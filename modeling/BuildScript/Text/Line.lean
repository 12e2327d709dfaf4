import BuildScript.Text.Utf8

/-!
# Physical lines

A line feed ends a line, and a text that ends in one has no empty line after it.  Carriage returns
before a line feed are no part of a line's extent.
-/

namespace BuildScript

namespace Text

/-- The lines of a text, without their line feeds. -/
def lines : Text → List Text
  | [] => []
  | c :: rest =>
    if c = '\n' then [] :: lines rest
    else
      match lines rest with
      | [] => [[c]]
      | line :: more => (c :: line) :: more

end Text

/-- A stretch of a text, in bytes. -/
structure Span where
  offset : Nat
  length : Nat
  deriving DecidableEq

namespace Span

/-- The extent of the line at position `index`, for lines that begin at `offset`; there is none
past the last line. -/
def ofLines? (offset : Nat) : Nat → List Text → Option Span
  | _, [] => none
  | 0, line :: _ => some ⟨offset, (Text.dropAtEnd '\r' line).byteLength⟩
  | index + 1, line :: more => ofLines? (offset + line.byteLength + 1) index more

/-- The extent of a line, counted from 1.  A line number past the last line stands for the end of
the text. -/
def ofLine (text : Text) (number : Nat) : Span :=
  (ofLines? 0 (number - 1) text.lines).getD ⟨text.byteLength, 0⟩

end Span

end BuildScript
