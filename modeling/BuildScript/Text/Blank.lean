import BuildScript.Text.Basic

/-!
# Blank characters

A character is blank if it has the Unicode property `White_Space`.  Trimming and the division into
words go by this property; the information separators, the zero width space and the byte order
mark are not blank.
-/

namespace BuildScript.Text

/-- The ranges of code points with the property `White_Space`, ends included. -/
def blankRanges : List (Nat × Nat) :=
  [(0x09, 0x0D), (0x20, 0x20), (0x85, 0x85), (0xA0, 0xA0), (0x1680, 0x1680), (0x2000, 0x200A),
    (0x2028, 0x2029), (0x202F, 0x202F), (0x205F, 0x205F), (0x3000, 0x3000)]

def isBlank (c : Char) : Bool :=
  blankRanges.any fun (low, high) ↦ decide (low ≤ c.toNat) && decide (c.toNat ≤ high)

/-- Whether a text holds blank characters only, or none. -/
def allBlank (text : Text) : Bool := text.all isBlank

theorem not_mem_of_allBlank {text : Text} {mark : Char} (htext : allBlank text)
    (hmark : isBlank mark = false) : mark ∉ text := by
  intro hmem
  rw [List.all_eq_true.mp htext mark hmem] at hmark
  cases hmark

/-- The blank characters of ASCII, without the vertical tab. -/
def isPlainBlank (c : Char) : Bool :=
  c == ' ' || c == '\t' || c == '\n' || c == '\x0c' || c == '\r'

def trimStart (text : Text) : Text := text.dropWhile isBlank

def trimEnd (text : Text) : Text := (text.reverse.dropWhile isBlank).reverse

def trim (text : Text) : Text := trimEnd (trimStart text)

/-- The characters before the first blank, and the words after it. -/
def leadingWord : Text → Text × List Text
  | [] => ([], [])
  | c :: rest =>
    let (word, words) := leadingWord rest
    if isBlank c then ([], if word.isEmpty then words else word :: words) else (c :: word, words)

/-- The longest runs of characters that are not blank, in order. -/
def words (text : Text) : List Text :=
  let (word, words) := leadingWord text
  if word.isEmpty then words else word :: words

end BuildScript.Text
