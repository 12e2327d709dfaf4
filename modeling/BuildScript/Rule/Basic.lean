import BuildScript.FileName

/-!
# Rules

A rule names a target, the sources that it is made from, and the commands that make it.
-/

namespace BuildScript

/-- A command line; `tolerant` says that its failure does not count. -/
structure Command where
  text : Text
  tolerant : Bool
  deriving DecidableEq

namespace Command

/-- Reads a command.  A minus sign before it makes it tolerant. -/
def ofText : Text → Command
  | '-' :: text => ⟨text, true⟩
  | text => ⟨text, false⟩

end Command

structure Rule where
  target : Text
  sources : List Text
  recipe : List Command
  deriving DecidableEq

namespace Rule

/-- Whether the target starts with a dot, as suffix rules and special targets do. -/
def isDotted (r : Rule) : Bool := r.target.head? == some '.'

/-- The name under which a suffix rule for this rule would be written: the suffix of the first
source, followed by that of the target. -/
def suffixKey? (r : Rule) : Option Text :=
  r.sources.head?.map fun source ↦ FileName.suffix source ++ FileName.suffix r.target

/-- Adds a command at the end of the recipe. -/
def addCommand (r : Rule) (c : Command) : Rule := { r with recipe := r.recipe ++ [c] }

end Rule

end BuildScript
