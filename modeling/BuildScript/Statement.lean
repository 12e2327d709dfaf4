import BuildScript.LogicalLine

/-!
# Statements

A logical line is a command if it is indented, else a definition if it reads as one, else a header
if it has a colon that does not belong to a drive letter.
-/

namespace BuildScript

/-- The targets and sources of a rule, and the command that follows them on the same line. -/
structure Header where
  targets : List Text
  sources : List Text
  command : Option Text
  deriving DecidableEq

inductive Statement where
  | command (body : Text)
  | definition (d : Definition)
  | header (h : Header)
  deriving DecidableEq

namespace Header

/-- Whether a colon belongs to a drive letter: a single letter at the start of a word stands before
it, and a slash after it.  The text before the colon is given backwards. -/
def isDriveColon (backwards after : Text) : Bool :=
  match backwards with
  | [] => false
  | letter :: before =>
    letter.isAlpha && before.head?.all Text.isPlainBlank &&
      (after.head? == some '\\' || after.head? == some '/')

/-- The two sides of the first colon that does not belong to a drive letter; `backwards` is the
text before, read backwards. -/
def splitColon? (backwards : Text) : Text → Option (Text × Text)
  | [] => none
  | c :: rest =>
    if c = ':' ∧ ¬isDriveColon backwards rest then some (backwards.reverse, rest)
    else splitColon? (c :: backwards) rest

/-- Reads a header.  A second colon right after the first is skipped, and a semicolon separates the
sources from a command. -/
def ofLine? (line : Text) : Option Header :=
  (splitColon? [] line).map fun (head, tail) ↦
    let tail := (Text.after? [':'] tail).getD tail
    match Text.cut? ';' tail with
    | none => ⟨Text.words head, Text.words tail, none⟩
    | some (sources, command) =>
      ⟨Text.words head, Text.words sources, some (Text.trimStart command)⟩

end Header

namespace Statement

def ofLine? (line : Text) : Option Statement :=
  if LogicalLine.isIndented line then some (command (Text.trimStart line))
  else ((Definition.ofLine? line).map definition).or ((Header.ofLine? line).map header)

end Statement

end BuildScript
