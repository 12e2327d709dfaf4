import BuildScript.Proofs.HeaderNames

/-!
# Lines that define a name

A line defines a name exactly if it is made up of a word, blanks, one of the operators and a value.
Neither the word nor the operator can hold a reference, so the line defines the same name in the
same way after expansion; and it is neither indented nor a directive, so it is not dropped before.
-/

namespace BuildScript

open Text (isBlank isWordChar)

theorem Text.isWordChar_of_isBlank {c : Char} (h : isBlank c) : isWordChar c = false := by
  have hunderscore : c ≠ '_' := by
    rintro rfl
    revert h
    decide
  simp only [isBlank, blankRanges, List.any_cons, List.any_nil, Bool.or_false, Bool.or_eq_true,
    Bool.and_eq_true, decide_eq_true_eq] at h
  simp only [isWordChar_eq, UInt32.le_iff_toNat_le, UInt32.reduceToNat, Char.toNat_val,
    Bool.or_eq_false_iff, Bool.and_eq_false_imp, decide_eq_true_eq, decide_eq_false_iff_not,
    beq_eq_false_iff_ne]
  refine ⟨?_, hunderscore⟩
  omega

theorem Bindings.expand_append {front : Text} (b : Bindings) (h : '$' ∉ front) (rest : Text) :
    b.expand (front ++ rest) = front ++ b.expand rest := by
  induction front with
  | nil => rfl
  | cons c front ih =>
    have hc : c ≠ '$' := (List.ne_of_not_mem_cons h).symm
    rw [List.cons_append, b.expand_cons_of_ne _ hc, ih (List.not_mem_of_not_mem_cons h)]
    rfl

namespace Operator

/-- No spelling of an operator starts another, so a text that starts with one is read as that. -/
theorem read?_append {spelling : Text} {operator : Operator}
    (h : (spelling, operator) ∈ spellings) (rest : Text) :
    read? (spelling ++ rest) = some (operator, rest) := by
  simp only [spellings, List.mem_cons, Prod.mk.injEq, List.not_mem_nil, or_false] at h
  rcases h with ⟨rfl, rfl⟩ | ⟨rfl, rfl⟩ | ⟨rfl, rfl⟩ | ⟨rfl, rfl⟩ | ⟨rfl, rfl⟩ <;> rfl

theorem exists_spelling_of_read? {text rest : Text} {operator : Operator}
    (h : read? text = some (operator, rest)) :
    ∃ spelling, (spelling, operator) ∈ spellings ∧ text = spelling ++ rest := by
  obtain ⟨⟨spelling, _⟩, hmem, hfound⟩ := List.exists_of_findSome?_eq_some h
  obtain ⟨_, hafter, heq⟩ := Option.map_eq_some_iff.mp hfound
  obtain ⟨rfl, rfl⟩ := Prod.mk.inj heq
  exact ⟨spelling, hmem, Text.after?_eq_some_iff.mp hafter⟩

/-- The mark that an operator starts with belongs to no word and is not blank. -/
theorem exists_spelling_eq_cons {spelling : Text} {operator : Operator}
    (h : (spelling, operator) ∈ spellings) :
    ∃ mark rest, spelling = mark :: rest ∧ isBlank mark = false ∧ isWordChar mark = false := by
  simp only [spellings, List.mem_cons, Prod.mk.injEq, List.not_mem_nil, or_false] at h
  rcases h with ⟨rfl, -⟩ | ⟨rfl, -⟩ | ⟨rfl, -⟩ | ⟨rfl, -⟩ | ⟨rfl, -⟩ <;>
    exact ⟨_, _, rfl, by decide, by decide⟩

end Operator

namespace Definition

/-- The parts of a line that gives a definition: its name, blanks, its operator, and a text with its
value. -/
structure Parts (d : Definition) (gap spelling rest line : Text) : Prop where
  isWord : Text.isWord d.name
  allBlank : Text.allBlank gap
  mem_spellings : (spelling, d.operator) ∈ Operator.spellings
  value_eq : d.value = Text.trim rest
  line_eq : line = d.name ++ (gap ++ (spelling ++ rest))

variable {d : Definition} {gap spelling rest line : Text}

theorem exists_parts (h : ofLine? line = some d) :
    ∃ gap spelling rest, d.Parts gap spelling rest line := by
  unfold ofLine? at h
  simp only [] at h
  split at h
  · cases h
  · rename_i hne
    obtain ⟨⟨operator, rest⟩, hread, rfl⟩ := Option.map_eq_some_iff.mp h
    obtain ⟨spelling, hspelling, htrim⟩ := Operator.exists_spelling_of_read? hread
    let gap := (line.dropWhile isWordChar).takeWhile isBlank
    have hgap : gap ++ Text.trimStart (line.dropWhile isWordChar) = line.dropWhile isWordChar :=
      List.takeWhile_append_dropWhile
    refine ⟨gap, spelling, rest, ?_, List.all_takeWhile, hspelling, rfl, ?_⟩
    · simpa [Text.isWord] using hne
    · rw [← htrim, hgap, List.takeWhile_append_dropWhile]

namespace Parts

variable (h : d.Parts gap spelling rest line)

include h

/-- What follows the name starts with a character that ends it. -/
theorem exists_gap_append_eq_cons :
    ∃ mark tail, gap ++ (spelling ++ rest) = mark :: tail ∧ isWordChar mark = false := by
  cases gap with
  | nil =>
    obtain ⟨mark, tail, rfl, -, hmark⟩ := Operator.exists_spelling_eq_cons h.mem_spellings
    exact ⟨mark, tail ++ rest, rfl, hmark⟩
  | cons c gap =>
    have hc : isBlank c := List.all_eq_true.mp h.allBlank c List.mem_cons_self
    exact ⟨c, gap ++ (spelling ++ rest), rfl, Text.isWordChar_of_isBlank hc⟩

theorem trimStart_eq : Text.trimStart (gap ++ (spelling ++ rest)) = spelling ++ rest := by
  obtain ⟨mark, tail, rfl, hmark, -⟩ := Operator.exists_spelling_eq_cons h.mem_spellings
  rw [Text.trimStart, List.dropWhile_append_of_pos (List.all_eq_true.mp h.allBlank)]
  simp [hmark]

theorem ofLine?_eq : ofLine? line = some d := by
  obtain ⟨hne, hname⟩ : d.name ≠ [] ∧ d.name.all isWordChar := by
    simpa [Text.isWord] using h.isWord
  obtain ⟨mark, tail, htail, hmark⟩ := h.exists_gap_append_eq_cons
  obtain ⟨htake, hdrop⟩ := Text.takeWhile_isWordChar_append tail hname hmark
  rw [← htail] at htake hdrop
  have hread : Operator.read? (spelling ++ rest) = some (d.operator, rest) :=
    Operator.read?_append h.mem_spellings rest
  simp only [ofLine?, h.line_eq, htake, hdrop, h.trimStart_eq, hread, Option.map_some]
  rw [if_neg (by simpa using hne), ← h.value_eq]

/-- Only the value of a line that defines a name can hold references. -/
theorem expand (b : Bindings) :
    Parts ⟨d.name, d.operator, Text.trim (b.expand rest)⟩ gap spelling (b.expand rest)
      (b.expand line) where
  isWord := h.isWord
  allBlank := h.allBlank
  mem_spellings := h.mem_spellings
  value_eq := rfl
  line_eq := by
    have hname : '$' ∉ d.name := by
      have hchars : d.name.all isWordChar := (Bool.and_eq_true _ _ ▸ h.isWord).2
      intro hmem
      exact absurd (List.all_eq_true.mp hchars _ hmem) (by decide)
    have hgap : '$' ∉ gap := Text.not_mem_of_allBlank h.allBlank (by decide)
    have hspelling : '$' ∉ spelling := by
      have hall : ∀ entry ∈ Operator.spellings, '$' ∉ entry.1 := by decide
      exact hall _ h.mem_spellings
    rw [h.line_eq, b.expand_append hname, b.expand_append hgap, b.expand_append hspelling]

end Parts

/-- A line that defines a name defines it with the same operator after expansion. -/
theorem exists_ofLine?_expand (b : Bindings) (h : ofLine? line = some d) :
    ∃ value, ofLine? (b.expand line) = some ⟨d.name, d.operator, value⟩ := by
  obtain ⟨gap, spelling, rest, hparts⟩ := exists_parts h
  exact ⟨_, (hparts.expand b).ofLine?_eq⟩

theorem exists_line_eq_cons (h : ofLine? line = some d) :
    ∃ c rest, line = c :: rest ∧ isWordChar c := by
  obtain ⟨gap, spelling, rest, hparts⟩ := exists_parts h
  obtain ⟨hne, hname⟩ : d.name ≠ [] ∧ ∀ c ∈ d.name, isWordChar c := by
    simpa [Text.isWord] using hparts.isWord
  obtain ⟨c, more, hcons⟩ := List.exists_cons_of_ne_nil hne
  refine ⟨c, more ++ (gap ++ (spelling ++ rest)), ?_, hname c (hcons ▸ List.mem_cons_self)⟩
  rw [hparts.line_eq, hcons, List.cons_append]

end Definition

namespace LogicalLine

variable {line : Text} {d : Definition}

theorem isInvisible_of_definition (h : Definition.ofLine? line = some d) :
    isInvisible line = false := by
  obtain ⟨c, rest, rfl, hc⟩ := Definition.exists_line_eq_cons h
  have hblank : isBlank c = false := by
    rw [Bool.eq_false_iff]
    intro hblank
    simp [Text.isWordChar_of_isBlank hblank] at hc
  have hsign : c ≠ '#' := by
    rintro rfl
    exact absurd hc (by decide)
  simp [isInvisible, Text.allBlank, hblank, hsign]

theorem isIndented_of_definition (h : Definition.ofLine? line = some d) :
    isIndented line = false := by
  obtain ⟨c, rest, rfl, hc⟩ := Definition.exists_line_eq_cons h
  have hne (mark : Char) (hmark : isWordChar mark = false) : c ≠ mark :=
    ne_of_apply_ne isWordChar (by simp [hc, hmark])
  simp [isIndented, hne '\t' (by decide), hne ' ' (by decide)]

theorem content?_of_definition (h : Definition.ofLine? line = some d) (hsign : '#' ∉ line) :
    content? line = some line := by
  have hbody : withoutComment line = line := if_neg hsign
  have hblank : Text.allBlank line = false :=
    (Bool.or_eq_false_iff.mp (isInvisible_of_definition h)).1
  have hdirective : isDirective line = false := by simp [isDirective, h]
  simp [content?, isIndented_of_definition h, hbody, hblank, hdirective]

end LogicalLine

end BuildScript
