import BuildScript.Proofs.DefinitionLines
import Mathlib.Data.List.DropRight

/-!
# Definitions after expansion

Whether a line is a directive is decided before expansion, and what it states after it.  For a line
that defines a name the two agree: it defines the same name with the same operator, and the value is
the expansion of the value that was written.  Blanks around a value belong to no reference, so it
makes no difference whether they are removed before expansion or after it.
-/

namespace BuildScript

/-! ## Blanks around a text -/

namespace Text

variable {lead trail : Text}

/-- Trimming removes nothing but blanks. -/
theorem exists_append_trim_append (text : Text) :
    ∃ lead trail, allBlank lead ∧ allBlank trail ∧ text = lead ++ (trim text ++ trail) := by
  have hstart : text.takeWhile isBlank ++ trimStart text = text := List.takeWhile_append_dropWhile
  have hend : trim text ++ (trimStart text).rtakeWhile isBlank = trimStart text :=
    List.rdropWhile_append_rtakeWhile
  refine ⟨text.takeWhile isBlank, (trimStart text).rtakeWhile isBlank, List.all_takeWhile, ?_, ?_⟩
  · exact List.all_eq_true.mpr fun c hc ↦ List.mem_rtakeWhile_imp hc
  · rw [hend, hstart]

theorem trim_append_left (hlead : allBlank lead) (text : Text) :
    trim (lead ++ text) = trim text := by
  rw [trim, trim, trimStart, List.dropWhile_append_of_pos (List.all_eq_true.mp hlead)]
  rfl

theorem trimEnd_append (text : Text) (htrail : allBlank trail) :
    trimEnd (text ++ trail) = trimEnd text := by
  have hblank : ∀ c ∈ trail.reverse, isBlank c := fun c hc ↦
    List.all_eq_true.mp htrail c (List.mem_reverse.mp hc)
  rw [trimEnd, trimEnd, List.reverse_append, List.dropWhile_append_of_pos hblank]

theorem trim_append_right (text : Text) (htrail : allBlank trail) :
    trim (text ++ trail) = trim text := by
  have hblank : trimStart trail = [] := List.dropWhile_eq_nil_iff.mpr (List.all_eq_true.mp htrail)
  have happend : trimStart (text ++ trail) =
      if (trimStart text).isEmpty then trimStart trail else trimStart text ++ trail :=
    List.dropWhile_append
  rw [trim, trim, happend]
  -- If the text is blank throughout, then trimming its start removes the trail as well.
  split
  · rename_i hnil
    rw [hblank, List.isEmpty_iff.mp hnil]
  · exact trimEnd_append _ htrail

/-- A mark that the trail does not hold stands in the text before it. -/
theorem exists_append_cons_of_append_eq {text front after : Text} {mark : Char}
    (hmark : mark ∉ trail) (h : text ++ trail = front ++ mark :: after) :
    ∃ rest, text = front ++ mark :: rest ∧ after = rest ++ trail := by
  rcases List.append_eq_append_iff.mp h with ⟨back, -, rfl⟩ | ⟨rest, rfl, hrest⟩
  · simp at hmark
  · cases rest with
    | nil =>
      rw [List.nil_append] at hrest
      simp [← hrest] at hmark
    | cons c rest =>
      obtain ⟨rfl, rfl⟩ := List.cons.inj hrest
      exact ⟨rest, rfl, rfl⟩

/-- Blanks at the end of a text neither open nor close a reference. -/
theorem reference?_append (text : Text) (htrail : allBlank trail) :
    reference? (text ++ trail) =
      (reference? text).map fun (name, rest) ↦ (name, rest ++ trail) := by
  apply Option.ext
  rintro ⟨name, after⟩
  simp only [reference?_eq_some_iff, Option.map_eq_some_iff, Prod.exists, Prod.mk.injEq]
  constructor
  · rintro ⟨mark, close, hmark, hname, hclose, htext⟩
    have happend : text ++ trail = (mark :: name) ++ close :: after := htext
    -- The closing mark is not blank, so the whole reference stands before the trail.
    have hend : close ∉ trail := by
      apply not_mem_of_allBlank htrail
      rcases hclose with rfl | rfl <;> decide
    obtain ⟨rest, rfl, rfl⟩ := exists_append_cons_of_append_eq hend happend
    exact ⟨name, rest, ⟨mark, close, hmark, hname, hclose, rfl⟩, rfl, rfl⟩
  · rintro ⟨_, rest, ⟨mark, close, hmark, hname, hclose, rfl⟩, rfl, rfl⟩
    exact ⟨mark, close, hmark, hname, hclose, by simp⟩

end Text

namespace Bindings

variable (b : Bindings) {trail : Text}

/-- Blanks at the end of a text stay as they are, and nothing before them is read in another way. -/
theorem expand_append_right (text : Text) (htrail : Text.allBlank trail) :
    b.expand (text ++ trail) = b.expand text ++ trail := by
  have hdollar : '$' ∉ trail := Text.not_mem_of_allBlank htrail (by decide)
  fun_induction Bindings.expand b text with
  | case1 => simpa using b.expand_append hdollar []
  | case2 rest ih => simp [ih]
  | case3 rest name tail href _ ih =>
    have happend : Text.reference? (rest ++ trail) = some (name, tail ++ trail) := by
      rw [Text.reference?_append rest htrail, href, Option.map_some]
    rw [List.cons_append, b.expand_reference happend, ih, List.append_assoc]
  | case4 rest href hdouble ih =>
    have happend : Text.reference? (rest ++ trail) = none := by
      rw [Text.reference?_append rest htrail, href, Option.map_none]
    -- A dollar sign at the very end of the text does not become a doubled one.
    have hhead : (rest ++ trail).head? ≠ some '$' := by
      intro hhead
      obtain ⟨tail, htail⟩ := List.head?_eq_some_iff.mp hhead
      have hsplit : rest ++ trail = [] ++ '$' :: tail := htail
      obtain ⟨more, rfl, -⟩ := Text.exists_append_cons_of_append_eq hdollar hsplit
      exact hdouble more rfl rfl
    rw [List.cons_append, b.expand_lone hhead happend, ih, List.cons_append]
  | case5 c rest _ hc ih =>
    rw [List.cons_append, b.expand_cons_of_ne _ hc, ih, List.cons_append]

/-- It makes no difference to a trimmed expansion whether the text was trimmed before. -/
theorem trim_expand_trim (text : Text) :
    Text.trim (b.expand (Text.trim text)) = Text.trim (b.expand text) := by
  obtain ⟨lead, trail, hlead, htrail, htext⟩ := Text.exists_append_trim_append text
  have hdollar : '$' ∉ lead := Text.not_mem_of_allBlank hlead (by decide)
  calc
    Text.trim (b.expand (Text.trim text))
        = Text.trim (b.expand (Text.trim text) ++ trail) := (Text.trim_append_right _ htrail).symm
    _ = Text.trim (lead ++ (b.expand (Text.trim text) ++ trail)) :=
        (Text.trim_append_left hlead _).symm
    _ = Text.trim (b.expand (lead ++ (Text.trim text ++ trail))) := by
        rw [b.expand_append hdollar, b.expand_append_right _ htrail]
    _ = Text.trim (b.expand text) := by rw [← htext]

end Bindings

/-! ## Definitions -/

namespace Definition

/-- A line that defines a name defines it after expansion too, with the same operator, and this is
what the expanded line states.  The value is the one before, expanded and trimmed. -/
theorem definition_kept_by_expansion (b : Bindings) (line : Text) (d : Definition)
    (h : ofLine? line = some d) :
    ofLine? (b.expand line) = some ⟨d.name, d.operator, Text.trim (b.expand d.value)⟩ ∧
      Statement.ofLine? (b.expand line) = (ofLine? (b.expand line)).map .definition := by
  obtain ⟨gap, spelling, rest, hparts⟩ := exists_parts h
  have hvalue : Text.trim (b.expand d.value) = Text.trim (b.expand rest) := by
    rw [hparts.value_eq, b.trim_expand_trim]
  have hline := (hparts.expand b).ofLine?_eq
  refine ⟨by rw [hline, hvalue], ?_⟩
  simp [Statement.ofLine?, LogicalLine.isIndented_of_definition hline, hline]

/-- A value with blanks and an operator in it. -/
def paddedBindings : Bindings := .ofOverrides [("MODE".toList, "\t x += ".toList)]

/-- A reference, a doubled dollar sign, a lone one, and a reference that is not closed. -/
def paddedLine : Text := "FLAGS ?=$(MODE)$$ $ $\x7bMODE \t".toList

theorem definition_kept_by_expansion_paddedLine :
    ofLine? paddedLine =
        some ⟨"FLAGS".toList, .conditional, "$(MODE)$$ $ $\x7bMODE".toList⟩ ∧
      ofLine? (paddedBindings.expand paddedLine) =
        some ⟨"FLAGS".toList, .conditional, "x += $$ $ $\x7bMODE".toList⟩ := by
  have hline : ofLine? paddedLine =
      some ⟨"FLAGS".toList, .conditional, "$(MODE)$$ $ $\x7bMODE".toList⟩ := by decide +kernel
  refine ⟨hline, ?_⟩
  rw [(definition_kept_by_expansion paddedBindings paddedLine _ hline).1]
  decide +kernel

end Definition

end BuildScript
