import BuildScript.RuleFile.Error
import BuildScript.RuleSet.Basic
import BuildScript.Statement

/-!
# Reading a rule file

A rule file is read line by line.  A definition takes effect for the lines after it.  A header opens
the rule for its target, and the commands that follow belong to it until the next header or
definition.
-/

namespace BuildScript

/-- What has been read of a rule file: the bindings, the rules, the target of the rule that is open,
and the logical line that goes on. -/
structure Reader where
  bindings : Bindings
  rules : RuleSet
  current : Option Text
  pending : Option LogicalLine

/-- A logical line that cannot be accepted. -/
structure Rejection where
  fault : Fault
  line : LogicalLine
  deriving DecidableEq

namespace Header

/-- The rule that a header opens, for its only target.  Dollar signs in names are no longer
doubled, and a command on the same line counts if it is not blank. -/
def rule (h : Header) (target : Text) : Rule where
  target := Text.undoubleDollars target
  sources := h.sources.map Text.undoubleDollars
  recipe := (h.command.filter fun body ↦ !Text.allBlank body).toList.map Command.ofText

end Header

namespace Reader

def start (b : Bindings) : Reader := ⟨b, .empty, none, none⟩

/-- Opens the rule of a header, which must have exactly one target. -/
def openRule (reader : Reader) (h : Header) : Except Fault Reader :=
  match h.targets with
  | [target] =>
    let r := h.rule target
    .ok { reader with rules := reader.rules.insert r, current := some r.target }
  | targets => .error (.targetCount targets.length)

/-- Carries out a statement. -/
def execute (reader : Reader) : Statement → Except Fault Reader
  | .command body =>
    match reader.current with
    | none => .error .orphanCommand
    | some target =>
      .ok { reader with rules := reader.rules.addCommand target (Command.ofText body) }
  | .definition d => .ok { reader with bindings := reader.bindings.assign d, current := none }
  | .header h => reader.openRule h

/-- Carries out what an expanded logical line says. -/
def accept (reader : Reader) (line : LogicalLine) : Except Rejection Reader :=
  match Statement.ofLine? line.text with
  | none => .error ⟨.unrecognised, line⟩
  | some statement => (reader.execute statement).mapError fun fault ↦ ⟨fault, line⟩

/-- Takes the line that goes on, and accepts the one that is handed on, if there is one. -/
def take (reader : Reader) : Option LogicalLine × Option LogicalLine → Except Rejection Reader
  | (pending, none) => .ok { reader with pending := pending }
  | (pending, some line) => accept { reader with pending := pending } line

/-- Takes a physical line. -/
def feed (reader : Reader) (number : Nat) (physical : Text) : Except Rejection Reader :=
  reader.take (LogicalLine.push reader.bindings reader.pending number physical)

/-- Takes physical lines, the first of which has the number `number`, and then the line that still
goes on. -/
def feedAll (reader : Reader) (number : Nat) : List Text → Except Rejection Reader
  | [] => reader.take (LogicalLine.flush reader.bindings reader.pending)
  | physical :: more =>
    match reader.feed number physical with
    | .error rejection => .error rejection
    | .ok reader => feedAll reader (number + 1) more

theorem feedAll_cons (reader : Reader) (number : Nat) (physical : Text) (more : List Text) :
    reader.feedAll number (physical :: more) =
      (reader.feed number physical).bind fun reader ↦ reader.feedAll (number + 1) more := by
  rw [feedAll]
  cases reader.feed number physical with
  | error rejection => rfl
  | ok reader => rfl

end Reader

namespace RuleFile

/-- Reads a rule file, up to its first error. -/
def parse (b : Bindings) (text : Text) : Except ParseError RuleSet :=
  match (Reader.start b).feedAll 1 text.lines with
  | .error rejection =>
    .error ⟨rejection.fault, rejection.line, Span.ofLine text rejection.line.number⟩
  | .ok reader => .ok reader.rules

end RuleFile

end BuildScript
