import BuildScript.Proofs.Making
import BuildScript.Script.Basic

/-!
# Running a script

How the command interpreter reads the lines that a script is made of, and what they do.  Nothing
else is assumed of it.  The script is taken as the list of its lines: a block is what follows its
label, and is run line by line until one of them returns.
-/

namespace BuildScript

namespace Text

/-- What stands before `tail` in a text that ends with it. -/
def before? (tail text : Text) : Option Text :=
  (after? tail.reverse text.reverse).map List.reverse

/-- What stands between `lead` and `tail` in a text that starts with the one and ends with the
other. -/
def between? (lead tail text : Text) : Option Text := (after? lead text).bind (before? tail)

theorem before?_eq_some_iff {tail text start : Text} :
    before? tail text = some start ↔ text = start ++ tail := by
  unfold before?
  rw [Option.map_eq_some_iff]
  constructor
  · rintro ⟨rest, hrest, rfl⟩
    rw [after?_eq_some_iff, List.reverse_eq_iff] at hrest
    simpa using hrest
  · rintro rfl
    exact ⟨start.reverse, after?_eq_some_iff.mpr List.reverse_append, List.reverse_reverse start⟩

theorem between?_eq_some_iff {lead tail text middle : Text} :
    between? lead tail text = some middle ↔ text = lead ++ (middle ++ tail) := by
  unfold between?
  rw [Option.bind_eq_some_iff]
  constructor
  · rintro ⟨rest, hrest, hmiddle⟩
    rw [after?_eq_some_iff.mp hrest, before?_eq_some_iff.mp hmiddle]
  · intro h
    exact ⟨middle ++ tail, after?_eq_some_iff.mpr h, before?_eq_some_iff.mpr rfl⟩

end Text

/-- What a line of a block does.  `call` runs a block and returns its status if that is not zero,
`forward` returns the status of a block in any case, and `skip` returns zero if the target of the
block is up to date. -/
inductive Instruction where
  | call (label : Text)
  | forward (label : Text)
  | skip
  | run (command : Text)
  | attempt (command : Text)
  | pass
  | succeed
  deriving DecidableEq

namespace Instruction

open Text (before? between?)

/-- Whether a line asks if a target is up to date, with sources or without.  Names may hold
quotation marks, so the target is not read off the line: it is the one whose block this is. -/
def isFreshnessTest (target body : Text) : Bool :=
  body == "@if exist \"".toList ++ target ++ "\" ".toList ++ Script.upToDate target ||
    (between? ("@call :test \"".toList ++ target ++ "\" \"".toList)
      ("\" && ".toList ++ Script.upToDate target) body).isSome

/-- The reading of a line in the block of a target. -/
def ofBody (target body : Text) : Instruction :=
  if body = "@setlocal".toList ∨ body = "@endlocal".toList then pass
  else if body = "@exit /b 0".toList then succeed
  else
    match between? "@call :\"".toList "\" || @exit /b".toList body with
    | some callee => call callee
    | none =>
      if isFreshnessTest target body then skip
      else
        match before? " || goto errpt".toList body with
        | some command => run command
        | none => attempt body

/-- The reading of a line in the block for the default goal. -/
def ofEntryBody (body : Text) : Instruction :=
  if body = "@exit /b 0".toList then succeed
  else
    match between? "@call :\"".toList "\"".toList body with
    | some callee => forward callee
    | none => attempt body

/-- The reading of a line, which is indented, in the block with a label.  The default block has the
empty label. -/
def ofLine? (label line : Text) : Option Instruction :=
  (Text.after? "  ".toList line).map fun body ↦
    if label.isEmpty then ofEntryBody body else ofBody label body

end Instruction

/-- The lines after the first one that marks a block. -/
def Script.block? (label : Text) : List Text → Option (List Text)
  | [] => none
  | line :: rest => if line = Script.labelled label then some rest else block? label rest

/-- In a script with these lines, going on in the block with a label, with these lines still to be
run and after the commands of a history, ends with an outcome. -/
inductive Executes (lines : List Text) (env : Environment) :
    Text → List Text → List Text → Outcome → Prop
  | callFails {label line callee rest body history o}
      (hline : Instruction.ofLine? label line = some (.call callee))
      (hblock : Script.block? callee lines = some body)
      (hbody : Executes lines env callee body history o) (hstatus : o.status ≠ 0) :
      Executes lines env label (line :: rest) history o
  | callSucceeds {label line callee rest body history between o}
      (hline : Instruction.ofLine? label line = some (.call callee))
      (hblock : Script.block? callee lines = some body)
      (hbody : Executes lines env callee body history ⟨between, 0⟩)
      (hrest : Executes lines env label rest between o) :
      Executes lines env label (line :: rest) history o
  | forward {label line callee rest body history o}
      (hline : Instruction.ofLine? label line = some (.forward callee))
      (hblock : Script.block? callee lines = some body)
      (hbody : Executes lines env callee body history o) :
      Executes lines env label (line :: rest) history o
  | skipFresh {label line rest history}
      (hline : Instruction.ofLine? label line = some .skip)
      (hfresh : env.upToDate history label = true) :
      Executes lines env label (line :: rest) history ⟨history, 0⟩
  | skipStale {label line rest history o}
      (hline : Instruction.ofLine? label line = some .skip)
      (hstale : env.upToDate history label = false)
      (hrest : Executes lines env label rest history o) :
      Executes lines env label (line :: rest) history o
  | runFails {label line command rest history}
      (hline : Instruction.ofLine? label line = some (.run command))
      (hstatus : env.status history command ≠ 0) :
      Executes lines env label (line :: rest) history
        ⟨history ++ [command], env.status history command⟩
  | runSucceeds {label line command rest history o}
      (hline : Instruction.ofLine? label line = some (.run command))
      (hstatus : env.status history command = 0)
      (hrest : Executes lines env label rest (history ++ [command]) o) :
      Executes lines env label (line :: rest) history o
  | attempt {label line command rest history o}
      (hline : Instruction.ofLine? label line = some (.attempt command))
      (hrest : Executes lines env label rest (history ++ [command]) o) :
      Executes lines env label (line :: rest) history o
  | pass {label line rest history o}
      (hline : Instruction.ofLine? label line = some .pass)
      (hrest : Executes lines env label rest history o) :
      Executes lines env label (line :: rest) history o
  | succeed {label line rest history}
      (hline : Instruction.ofLine? label line = some .succeed) :
      Executes lines env label (line :: rest) history ⟨history, 0⟩

/-- Running the block with a label, after the commands of a history, ends with an outcome. -/
def RunsBlock (lines : List Text) (env : Environment) (label : Text) (history : List Text)
    (o : Outcome) : Prop :=
  ∃ body, Script.block? label lines = some body ∧ Executes lines env label body history o

variable {lines : List Text} {env : Environment}

theorem Executes.deterministic {label : Text} {rest history : List Text} {o₁ o₂ : Outcome}
    (h₁ : Executes lines env label rest history o₁)
    (h₂ : Executes lines env label rest history o₂) : o₁ = o₂ := by
  induction h₁ generalizing o₂ with
  | callFails hline hblock _ hstatus ih => cases h₂ <;> grind
  | callSucceeds hline hblock _ _ ihbody ihrest => cases h₂ <;> grind
  | forward hline hblock _ ih => cases h₂ <;> grind
  | skipFresh hline hfresh => cases h₂ <;> grind
  | skipStale hline hstale _ ih => cases h₂ <;> grind
  | runFails hline hstatus => cases h₂ <;> grind
  | runSucceeds hline hstatus _ ih => cases h₂ <;> grind
  | attempt hline _ ih => cases h₂ <;> grind
  | pass hline _ ih => cases h₂ <;> grind
  | succeed hline => cases h₂ <;> grind

theorem RunsBlock.deterministic {label : Text} {history : List Text} {o₁ o₂ : Outcome}
    (h₁ : RunsBlock lines env label history o₁) (h₂ : RunsBlock lines env label history o₂) :
    o₁ = o₂ := by
  obtain ⟨body, hbody, hrun⟩ := h₁
  obtain ⟨body', hbody', hrun'⟩ := h₂
  rw [hbody, Option.some.injEq] at hbody'
  subst hbody'
  exact hrun.deterministic hrun'

end BuildScript
