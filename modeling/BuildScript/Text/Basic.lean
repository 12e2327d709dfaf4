/-!
# Texts

Rule files, names and scripts are lists of characters, so that every scan over them is a recursion
on the list.  This module holds the cuts that the rest of the library makes: at a leading text, at
the first occurrence of a mark, and after the longest run of word characters.
-/

namespace BuildScript

/-- A text is the list of its characters. -/
abbrev Text := List Char

namespace Text

/-- What follows `lead` in a text that starts with it. -/
def after? : Text → Text → Option Text
  | [], text => some text
  | _ :: _, [] => none
  | c :: lead, d :: text => if c = d then after? lead text else none

theorem after?_eq_some_iff {lead text rest : Text} :
    after? lead text = some rest ↔ text = lead ++ rest := by
  fun_induction after? lead text with
  | case1 text => simp [eq_comm]
  | case2 => simp
  | case3 lead d text ih => simp [ih]
  | case4 c lead d text hne => simp [Ne.symm hne]

theorem getD_after?_subset (lead text : Text) : (after? lead text).getD text ⊆ text := by
  cases hafter : after? lead text with
  | none => exact List.Subset.refl text
  | some rest =>
    rw [after?_eq_some_iff] at hafter
    exact hafter ▸ List.subset_append_right lead rest

/-- The two sides of the first `mark` in a text. -/
def cut? (mark : Char) : Text → Option (Text × Text)
  | [] => none
  | c :: rest =>
    if c = mark then some ([], rest)
    else (cut? mark rest).map fun (left, right) ↦ (c :: left, right)

theorem eq_append_of_cut? {mark : Char} {text left right : Text}
    (h : cut? mark text = some (left, right)) : text = left ++ mark :: right := by
  fun_induction cut? mark text generalizing left with
  | case1 => simp at h
  | case2 rest =>
    obtain ⟨rfl, rfl⟩ : [] = left ∧ rest = right := by simpa using h
    rfl
  | case3 c rest hne ih =>
    simp only [Option.map_eq_some_iff, Prod.mk.injEq, Prod.exists] at h
    obtain ⟨start, _, hcut, rfl, rfl⟩ := h
    rw [ih hcut, List.cons_append]

theorem cut?_eq_none {mark : Char} {text : Text} (h : mark ∉ text) : cut? mark text = none := by
  induction text with
  | nil => rfl
  | cons c rest ih =>
    rw [cut?, if_neg (List.ne_of_not_mem_cons h).symm, ih (List.not_mem_of_not_mem_cons h)]
    rfl

theorem cut?_append {mark : Char} {left : Text} (right : Text) (h : mark ∉ left) :
    cut? mark (left ++ mark :: right) = some (left, right) := by
  induction left with
  | nil => rw [List.nil_append, cut?, if_pos rfl]
  | cons c left ih =>
    rw [List.cons_append, cut?, if_neg (List.ne_of_not_mem_cons h).symm,
      ih (List.not_mem_of_not_mem_cons h)]
    rfl

/-- Letters, digits and the underscore, of ASCII only. -/
def isWordChar (c : Char) : Bool := c.isAlphanum || c == '_'

theorem isWordChar_eq (c : Char) :
    isWordChar c =
      (decide (65 ≤ c.val ∧ c.val ≤ 90) || decide (97 ≤ c.val) && decide (c.val ≤ 122) ||
        decide (48 ≤ c.val) && decide (c.val ≤ 57) || c == '_') := rfl

/-- A word is a non-empty text of word characters. -/
def isWord (text : Text) : Bool := !text.isEmpty && text.all isWordChar

/-- The text without the occurrences of `mark` at its end. -/
def dropAtEnd (mark : Char) (text : Text) : Text := (text.reverse.dropWhile (· == mark)).reverse

/-- The text without its last character, if that is `mark`. -/
def dropLast? (mark : Char) (text : Text) : Option Text :=
  if text.getLast? = some mark then some text.dropLast else none

end Text

end BuildScript
