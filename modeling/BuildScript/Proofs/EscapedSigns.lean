import BuildScript.LogicalLine

/-!
# Number signs that are part of a line

A number sign starts a comment unless a backslash stands before it.  So a text is written with a
backslash before each of its number signs, and removing the comment gives it back, whatever
backslashes the text itself has.  Blanks at its end are lost, but only if there is a number sign at
all.  A comment after the text is removed as well; if the text ended in a backslash, then the number
sign of the comment would be taken for an escaped one.
-/

namespace BuildScript

namespace Text

/-- Writes a backslash before each number sign. -/
def escapeSigns : Text → Text
  | [] => []
  | c :: rest => if c = '#' then '\\' :: '#' :: escapeSigns rest else c :: escapeSigns rest

@[simp]
theorem escapeSigns_nil : escapeSigns [] = [] := rfl

@[simp]
theorem escapeSigns_sign (rest : Text) :
    escapeSigns ('#' :: rest) = '\\' :: '#' :: escapeSigns rest := rfl

theorem escapeSigns_cons_of_ne {c : Char} (rest : Text) (h : c ≠ '#') :
    escapeSigns (c :: rest) = c :: escapeSigns rest :=
  if_neg h

theorem sign_mem_escapeSigns {text : Text} : '#' ∈ escapeSigns text ↔ '#' ∈ text := by
  induction text with
  | nil => rfl
  | cons c rest ih =>
    by_cases hc : c = '#'
    · subst hc
      simp
    · rw [escapeSigns_cons_of_ne rest hc, List.mem_cons, List.mem_cons, ih]

theorem escapeSigns_eq_self {text : Text} (h : '#' ∉ text) : escapeSigns text = text := by
  induction text with
  | nil => rfl
  | cons c rest ih =>
    rw [escapeSigns_cons_of_ne rest (List.ne_of_not_mem_cons h).symm,
      ih (List.not_mem_of_not_mem_cons h)]

/-- No escaped text starts with a number sign, so a backslash before it escapes nothing. -/
theorem head?_escapeSigns_append {text : Text} (rest : Text) (h : text ≠ []) :
    (escapeSigns text ++ rest).head? ≠ some '#' := by
  cases text with
  | nil => exact absurd rfl h
  | cons c text =>
    by_cases hc : c = '#'
    · subst hc
      simp
    · simp [escapeSigns_cons_of_ne text hc, hc]

end Text

namespace LogicalLine

open Text (escapeSigns trimEnd)

variable {text rest : Text}

/-- Each sign of an escaped text is read back, as long as its last backslash escapes nothing. -/
theorem beforeComment_escapeSigns_append (h : text.getLast? = some '\\' → rest.head? ≠ some '#') :
    beforeComment (escapeSigns text ++ rest) = text ++ beforeComment rest := by
  induction text with
  | nil => rfl
  | cons c text ih =>
    have hlast : text.getLast? = some '\\' → rest.head? ≠ some '#' := by
      intro hlast
      apply h
      rw [List.getLast?_cons, hlast, Option.getD_some]
    by_cases hc : c = '#'
    · subst hc
      simp [ih hlast]
    · -- A backslash of the text itself has the next escaped character after it, or the rest.
      have hhead : c = '\\' → (escapeSigns text ++ rest).head? ≠ some '#' := by
        rintro rfl
        cases text with
        | nil => exact h rfl
        | cons d text => exact Text.head?_escapeSigns_append rest (List.cons_ne_nil d text)
      rw [Text.escapeSigns_cons_of_ne text hc, List.cons_append, beforeComment_cons hc hhead,
        ih hlast, List.cons_append]

theorem beforeComment_escapeSigns (text : Text) : beforeComment (escapeSigns text) = text := by
  have hend : text.getLast? = some '\\' → ([] : Text).head? ≠ some '#' := by simp
  have hread := beforeComment_escapeSigns_append hend
  rwa [beforeComment, List.append_nil, List.append_nil] at hread

theorem withoutComment_of_mem (h : '#' ∈ text) :
    withoutComment text = trimEnd (beforeComment text) :=
  if_pos h

theorem withoutComment_of_not_mem (h : '#' ∉ text) : withoutComment text = text :=
  if_neg h

/-- Removing the comment undoes the escaping of a text, up to blanks at its end if there is a number
sign, and it removes a comment after a text that does not end in a backslash. -/
theorem comment_removal_undoes_escaping (text : Text) :
    withoutComment (escapeSigns text) = (if '#' ∈ text then trimEnd text else text) ∧
      (text.getLast? ≠ some '\\' → ∀ comment,
        withoutComment (escapeSigns text ++ '#' :: comment) = trimEnd text) := by
  constructor
  · by_cases hsign : '#' ∈ text
    · rw [if_pos hsign, withoutComment_of_mem (Text.sign_mem_escapeSigns.mpr hsign),
        beforeComment_escapeSigns]
    · rw [if_neg hsign, Text.escapeSigns_eq_self hsign, withoutComment_of_not_mem hsign]
  · intro hlast comment
    have hsign : '#' ∈ escapeSigns text ++ '#' :: comment := by simp
    have hread : beforeComment (escapeSigns text ++ '#' :: comment) = text := by
      rw [beforeComment_escapeSigns_append (absurd · hlast), beforeComment_sign, List.append_nil]
    rw [withoutComment_of_mem hsign, hread]

/-- Backslashes before number signs, two number signs side by side, and blanks at the end. -/
def signedText : Text := "dir\\\\## a\\b# \t".toList

theorem comment_removal_undoes_escaping_signedText :
    escapeSigns signedText = "dir\\\\\\#\\# a\\b\\# \t".toList ∧
      ('#' ∈ signedText ∧ signedText.getLast? ≠ some '\\') ∧
      withoutComment (escapeSigns signedText) = "dir\\\\## a\\b#".toList ∧
      withoutComment (escapeSigns signedText ++ "## it \\# is".toList) =
        "dir\\\\## a\\b#".toList := by
  have hsign : '#' ∈ signedText := by decide +kernel
  have hlast : signedText.getLast? ≠ some '\\' := by decide +kernel
  have hread : trimEnd signedText = "dir\\\\## a\\b#".toList := by decide +kernel
  obtain ⟨hescaped, hcomment⟩ := comment_removal_undoes_escaping signedText
  refine ⟨by decide +kernel, ⟨hsign, hlast⟩, ?_, ?_⟩
  · rw [hescaped, if_pos hsign, hread]
  · exact (hcomment hlast "# it \\# is".toList).trans hread

-- After a backslash the number sign does not start a comment.
example :
    withoutComment (escapeSigns "dir\\".toList ++ "# it is".toList) = "dir# it is".toList := by
  decide +kernel

end LogicalLine

end BuildScript
