import BuildScript.Text.Blank

/-!
# Definitions

A line defines a name if it starts with a word, which one of five operators follows.
-/

namespace BuildScript

/-- How a definition treats a value that is already there: `recursive` and `simple` replace it,
`conditional` keeps it, and `append` adds to it. -/
inductive Operator where
  | recursive
  | simple
  | conditional
  | append
  deriving DecidableEq

namespace Operator

/-- The spellings of the operators.  The first that fits is taken, so `::=` stands before `:=`. -/
def spellings : List (Text × Operator) :=
  [("::=".toList, simple), (":=".toList, simple), ("?=".toList, conditional),
    ("+=".toList, append), ("=".toList, recursive)]

/-- The operator that a text starts with, and what follows it. -/
def read? (text : Text) : Option (Operator × Text) :=
  spellings.findSome? fun (spelling, operator) ↦
    (Text.after? spelling text).map fun rest ↦ (operator, rest)

end Operator

structure Definition where
  name : Text
  operator : Operator
  value : Text
  deriving DecidableEq

namespace Definition

/-- The definition on a line.  The word must stand at the very start; blanks around the operator
and after the value do not count. -/
def ofLine? (line : Text) : Option Definition :=
  let name := line.takeWhile Text.isWordChar
  if name.isEmpty then none
  else
    (Operator.read? (Text.trimStart (line.dropWhile Text.isWordChar))).map
      fun (operator, value) ↦ ⟨name, operator, Text.trim value⟩

end Definition

end BuildScript
