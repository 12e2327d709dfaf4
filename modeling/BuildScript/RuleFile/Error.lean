import BuildScript.LogicalLine
import BuildScript.Text.Line

/-!
# Errors of a rule file

What can be wrong with a logical line, where it stands in the file, and how this is told.
-/

namespace BuildScript

/-- What is wrong with a logical line: it is no statement, it is a header with a number of targets
other than one, or it is a command that no rule is open for. -/
inductive Fault where
  | unrecognised
  | targetCount (count : Nat)
  | orphanCommand
  deriving DecidableEq

/-- A fault, the logical line that has it, and the extent of that line's first physical line. -/
structure ParseError where
  fault : Fault
  line : LogicalLine
  span : Span
  deriving DecidableEq

namespace ParseError

def message (e : ParseError) : Text :=
  match e.fault with
  | .unrecognised => "Syntax Error: ".toList ++ e.line.text
  | .targetCount count =>
    "none or multi targets: found ".toList ++ Nat.toDigits 10 count ++ " in `".toList ++
      e.line.text ++ "`".toList
  | .orphanCommand => "no current target for recipe line `".toList ++ e.line.text ++ "`".toList

end ParseError

namespace Fault

def code : Fault → Text
  | unrecognised => "makefile2batch::parse::syntax".toList
  | targetCount _ => "makefile2batch::parse::target_count".toList
  | orphanCommand => "makefile2batch::parse::no_current_target".toList

def help : Fault → Text
  | unrecognised =>
    "expected `NAME = value`, `target: prerequisites` or an indented recipe line".toList
  | targetCount _ => "write one rule per target; multi-target rules are not supported".toList
  | orphanCommand => "recipe lines must follow a `target: prerequisites` header".toList

/-- What is said beside the line. -/
def label : Fault → Text
  | unrecognised => "unrecognised line".toList
  | targetCount _ => "exactly one target expected here".toList
  | orphanCommand => "no rule is open".toList

end Fault

end BuildScript
