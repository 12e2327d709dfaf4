import BuildScript.Text.Basic

/-!
# Bytes of a text

A text is stored as UTF-8.  Decoding never fails: a sequence of bytes that starts a character and
is broken off, as far as it could still have been completed, is read as one replacement character,
and so is every byte that can start no character.
-/

namespace BuildScript.Text

/-- The number of bytes that store a text. -/
def byteLength : Text → Nat
  | [] => 0
  | c :: rest => c.utf8Size + byteLength rest

/-- The bytes that store a text. -/
def encode (text : Text) : List UInt8 := text.flatMap String.utf8EncodeChar

/-- Stands for bytes that are no character. -/
def replacement : Char := '\uFFFD'

/-- A character of which only the first bytes have been read: the value of these bytes, how many
are still missing, and the range in which the next one must lie. -/
structure PartialChar where
  value : Nat
  missing : Nat
  low : UInt8
  high : UInt8

/-- What the first byte of a character can be. -/
inductive FirstByte where
  | complete (c : Char)
  | partialChar (p : PartialChar)
  | invalid

/-- The reading of a first byte.  The second byte of a character of three or four bytes has a
narrower range where the full one would admit overlong forms, surrogates, or values beyond the
last code point. -/
def firstByte (b : UInt8) : FirstByte :=
  if b < 0x80 then .complete (Char.ofNat b.toNat)
  else if b < 0xC2 then .invalid
  else if b < 0xE0 then .partialChar ⟨b.toNat - 0xC0, 1, 0x80, 0xBF⟩
  else if b < 0xF0 then
    let low := if b = 0xE0 then 0xA0 else 0x80
    let high := if b = 0xED then 0x9F else 0xBF
    .partialChar ⟨b.toNat - 0xE0, 2, low, high⟩
  else if b < 0xF5 then
    let low := if b = 0xF0 then 0x90 else 0x80
    let high := if b = 0xF4 then 0x8F else 0xBF
    .partialChar ⟨b.toNat - 0xF0, 3, low, high⟩
  else .invalid

/-- Decodes the bytes that follow those of an unfinished character. -/
def decodeAfter : Option PartialChar → List UInt8 → Text
  | none, [] => []
  | some _, [] => [replacement]
  | some p, b :: bytes =>
    if p.low ≤ b ∧ b ≤ p.high then
      let value := p.value * 64 + (b.toNat - 0x80)
      if p.missing = 1 then Char.ofNat value :: decodeAfter none bytes
      else decodeAfter (some ⟨value, p.missing - 1, 0x80, 0xBF⟩) bytes
    else
      match firstByte b with
      | .complete c => replacement :: c :: decodeAfter none bytes
      | .partialChar q => replacement :: decodeAfter (some q) bytes
      | .invalid => replacement :: replacement :: decodeAfter none bytes
  | none, b :: bytes =>
    match firstByte b with
    | .complete c => c :: decodeAfter none bytes
    | .partialChar q => decodeAfter (some q) bytes
    | .invalid => replacement :: decodeAfter none bytes

/-- Decodes the bytes of a file, of which a leading byte order mark is no part of the text. -/
def decodeFile : List UInt8 → Text
  | 0xEF :: 0xBB :: 0xBF :: bytes => decodeAfter none bytes
  | bytes => decodeAfter none bytes

end BuildScript.Text
