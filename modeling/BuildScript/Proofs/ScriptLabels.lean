import BuildScript.Proofs.RuleLookup
import BuildScript.Script.OfRules

/-!
# Labels of a script

The lines of a script that start with a colon are its labels: one for the default goal, one for the
error exit, one for each block, and those of the subroutines if they are there.
-/

namespace BuildScript.Script

/-- Whether a line marks a place that can be called or jumped to. -/
def isLabelLine (line : Text) : Bool := line.head? == some ':'

/-- The labels of the subroutines that compare time stamps. -/
def subroutineLabels : List Text := [":test", ":test_next", ":stamp"].map String.toList

@[simp]
theorem isLabelLine_labelled (name : Text) : isLabelLine (labelled name) = true := rfl

@[simp]
theorem isLabelLine_line (s : Step) : isLabelLine s.line = false := rfl

theorem labelled_injective : Function.Injective labelled := by
  intro first second h
  simpa [labelled, quoted] using h

theorem filter_isLabelLine_goalLines (goal : Option Text) :
    (goalLines goal).filter isLabelLine = [] := by
  cases goal <;> rfl

theorem filter_isLabelLine_lines (b : Block) :
    b.lines.filter isLabelLine = [labelled b.label] := by
  have hsteps : (b.steps.map Step.line).filter isLabelLine = [] := by
    rw [List.filter_eq_nil_iff]
    intro line hline
    obtain ⟨s, -, rfl⟩ := List.mem_map.mp hline
    simp
  rw [Block.lines, List.filter_cons_of_neg (by decide), List.filter_cons_of_pos rfl, hsteps]

/-- The labels before the blocks. -/
theorem filter_isLabelLine_front (goal : Option Text) :
    (preamble ++ goalLines goal ++ errorExit).filter isLabelLine =
      [labelled [], ':' :: errorLabel] := by
  have hpreamble : preamble.filter isLabelLine = [labelled []] := by decide
  have hexit : errorExit.filter isLabelLine = [':' :: errorLabel] := by decide
  rw [List.filter_append, List.filter_append, hpreamble, filter_isLabelLine_goalLines, hexit]
  rfl

theorem filter_isLabelLine_flatMap_lines (blocks : List Block) :
    (blocks.flatMap Block.lines).filter isLabelLine = blocks.map (labelled ·.label) := by
  induction blocks with
  | nil => rfl
  | cons b blocks ih =>
    rw [List.flatMap_cons, List.filter_append, filter_isLabelLine_lines, ih]
    rfl

/-- All labels of a script, in order. -/
theorem filter_isLabelLine_script (s : Script) :
    s.lines.filter isLabelLine =
      [labelled [], ':' :: errorLabel] ++ s.blocks.map (labelled ·.label) ++
        if s.comparesAges then subroutineLabels else [] := by
  have hsubroutines : subroutines.filter isLabelLine = subroutineLabels := by decide +kernel
  rw [lines, List.filter_append, List.filter_append, filter_isLabelLine_front,
    filter_isLabelLine_flatMap_lines, apply_ite (List.filter isLabelLine), hsubroutines]
  rfl

end BuildScript.Script
