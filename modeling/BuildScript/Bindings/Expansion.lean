import BuildScript.Bindings.Basic

/-!
# Expansion of references

A reference is a dollar sign and a word in parentheses or braces.  Expansion puts the value of the
word in its place, in one pass: a value is not read again.  A doubled dollar sign is kept, because
it stands for a single one only where names and commands are used.
-/

namespace BuildScript

namespace Text

/-- The word of a reference and what follows it, for the text after the dollar sign.  Either
closing mark fits either opening mark. -/
def reference? : Text → Option (Text × Text)
  | [] => none
  | mark :: text =>
    if mark = '(' ∨ mark = '\x7b' then
      match text.dropWhile isWordChar with
      | [] => none
      | close :: rest =>
        if (close = ')' ∨ close = '\x7d') ∧ text.takeWhile isWordChar ≠ [] then
          some (text.takeWhile isWordChar, rest)
        else none
    else none

theorem takeWhile_isWordChar_append {word : Text} {mark : Char} (rest : Text)
    (hword : word.all isWordChar) (hmark : isWordChar mark = false) :
    (word ++ mark :: rest).takeWhile isWordChar = word ∧
      (word ++ mark :: rest).dropWhile isWordChar = mark :: rest := by
  rw [List.all_eq_true] at hword
  rw [List.takeWhile_append_of_pos hword, List.dropWhile_append_of_pos hword]
  simp [hmark]

/-- A reference is a word between an opening and a closing mark. -/
theorem reference?_eq_some_iff {text name rest : Text} :
    reference? text = some (name, rest) ↔
      ∃ mark close, (mark = '(' ∨ mark = '\x7b') ∧ isWord name ∧ (close = ')' ∨ close = '\x7d') ∧
        text = mark :: (name ++ close :: rest) := by
  constructor
  · intro h
    cases text with
    | nil => cases h
    | cons mark text =>
      simp only [reference?] at h
      split at h
      · rename_i hmark
        split at h
        · cases h
        · rename_i close tail hdrop
          split at h
          · rename_i hclose
            obtain ⟨rfl, rfl⟩ : text.takeWhile isWordChar = name ∧ tail = rest := by simpa using h
            refine ⟨mark, close, hmark, ?_, hclose.1, ?_⟩
            · simp [isWord, hclose.2]
            · rw [← hdrop, List.takeWhile_append_dropWhile]
          · cases h
      · cases h
  · rintro ⟨mark, close, hmark, hname, hclose, rfl⟩
    obtain ⟨hne, hchars⟩ : name ≠ [] ∧ name.all isWordChar := by simpa [isWord] using hname
    have hend : isWordChar close = false := by
      rcases hclose with rfl | rfl <;> decide
    obtain ⟨htake, hdrop⟩ := takeWhile_isWordChar_append rest hchars hend
    simp [reference?, hmark, htake, hdrop, hclose, hne]

theorem length_lt_of_reference? {text name rest : Text} (h : reference? text = some (name, rest)) :
    rest.length < text.length := by
  obtain ⟨mark, close, -, -, -, rfl⟩ := reference?_eq_some_iff.mp h
  simp only [List.length_cons, List.length_append]
  omega

/-- Puts a single dollar sign in the place of each doubled one. -/
def undoubleDollars : Text → Text
  | '$' :: '$' :: rest => '$' :: undoubleDollars rest
  | c :: rest => c :: undoubleDollars rest
  | [] => []

end Text

namespace Bindings

open Text (reference? length_lt_of_reference?)

/-- Puts the values of its references into a text. -/
def expand (b : Bindings) : Text → Text
  | [] => []
  | '$' :: '$' :: rest => '$' :: '$' :: expand b rest
  | c :: rest =>
    if c = '$' then
      match _h : reference? rest with
      | some (name, tail) => b.value name ++ expand b tail
      | none => c :: expand b rest
    else c :: expand b rest
termination_by text => text.length
decreasing_by
  all_goals simp only [List.length_cons]
  · omega
  · have := length_lt_of_reference? _h
    omega
  · omega
  · omega

section Equations

variable (b : Bindings)

@[simp]
theorem expand_nil : b.expand [] = [] := by
  rw [expand]

@[simp]
theorem expand_doubled (rest : Text) :
    b.expand ('$' :: '$' :: rest) = '$' :: '$' :: b.expand rest := by
  rw [expand]

theorem expand_cons_of_ne {c : Char} (rest : Text) (h : c ≠ '$') :
    b.expand (c :: rest) = c :: b.expand rest := by
  rw [expand, if_neg h]
  rintro tail rfl -
  exact h rfl

theorem expand_reference {rest name tail : Text} (h : reference? rest = some (name, tail)) :
    b.expand ('$' :: rest) = b.value name ++ b.expand tail := by
  rw [expand, if_pos rfl, h]
  rintro other - rfl
  simp [reference?] at h

/-- A dollar sign that starts neither a reference nor a doubled one is kept. -/
theorem expand_lone {rest : Text} (hdollar : rest.head? ≠ some '$') (h : reference? rest = none) :
    b.expand ('$' :: rest) = '$' :: b.expand rest := by
  rw [expand, if_pos rfl, h]
  rintro other - rfl
  exact hdollar rfl

end Equations

/-- The values of names are all that an expansion takes from the bindings. -/
theorem expand_congr {b c : Bindings} (h : ∀ name, b.value name = c.value name) (text : Text) :
    b.expand text = c.expand text := by
  fun_induction Bindings.expand b text with
  | case1 => exact c.expand_nil.symm
  | case2 rest ih => rw [c.expand_doubled, ih]
  | case3 rest name tail href _ ih => rw [c.expand_reference href, h name, ih]
  | case4 rest href hdouble ih =>
    have hdollar : rest.head? ≠ some '$' := by
      intro hhead
      obtain ⟨tail, rfl⟩ := List.head?_eq_some_iff.mp hhead
      exact hdouble tail rfl rfl
    rw [c.expand_lone hdollar href, ih]
  | case5 mark rest _ hmark ih => rw [c.expand_cons_of_ne rest hmark, ih]

end Bindings

end BuildScript
