import BuildScript.Rule.Basic

/-!
# Automatic variables

In the commands of a rule, a dollar sign and one character stand for the names that the rule is
about.
-/

namespace BuildScript.Rule

/-- What a dollar sign before a character stands for: the target, its base, the first source, all
sources, or a dollar sign.  There is nothing for the sources of a rule that has none. -/
def automatic? (r : Rule) : Char → Option Text
  | '@' => some r.target
  | '*' => some (FileName.base r.target)
  | '<' => r.sources.head?
  | '^' => if r.sources.isEmpty then none else some (List.intercalate [' '] r.sources)
  | '$' => some ['$']
  | _ => none

/-- Puts the names of a rule into a text.  A dollar sign that stands for nothing is kept. -/
def substitute (r : Rule) : Text → Text
  | [] => []
  | '$' :: c :: rest =>
    match r.automatic? c with
    | some value => value ++ substitute r rest
    | none => '$' :: substitute r (c :: rest)
  | c :: rest => c :: substitute r rest

section Equations

variable {r : Rule}

theorem substitute_cons_of_ne {c : Char} (rest : Text) (h : c ≠ '$') :
    r.substitute (c :: rest) = c :: r.substitute rest := by
  rw [substitute]
  rintro d tail rfl -
  exact h rfl

theorem substitute_automatic {c : Char} {value : Text} (rest : Text)
    (h : r.automatic? c = some value) :
    r.substitute ('$' :: c :: rest) = value ++ r.substitute rest := by
  rw [substitute, h]

theorem substitute_lone {c : Char} (rest : Text) (h : r.automatic? c = none) :
    r.substitute ('$' :: c :: rest) = '$' :: r.substitute (c :: rest) := by
  rw [substitute, h]

/-- After a text that does not end in a dollar sign, reading starts anew. -/
theorem substitute_append_of_getLast? {front : Text} (rest : Text)
    (h : front.getLast? ≠ some '$') :
    r.substitute (front ++ rest) = r.substitute front ++ r.substitute rest := by
  fun_induction substitute r front with
  | case1 => rfl
  | case2 c tail value hvalue ih =>
    have htail : tail.getLast? ≠ some '$' := by
      cases tail with
      | nil => simp
      | cons d tail => simpa using h
    rw [List.cons_append, List.cons_append, substitute_automatic _ hvalue, ih htail,
      List.append_assoc]
  | case3 c tail hnone ih =>
    rw [List.cons_append, List.cons_append, substitute_lone _ hnone, ← List.cons_append,
      ih (by simpa using h), List.cons_append]
  | case4 c tail hother ih =>
    have hc : c ≠ '$' := by
      rintro rfl
      cases tail with
      | nil => simp at h
      | cons d tail => exact hother d tail rfl rfl
    have htail : tail.getLast? ≠ some '$' := by
      cases tail with
      | nil => simp
      | cons d tail => simpa using h
    rw [List.cons_append, substitute_cons_of_ne _ hc, ih htail, List.cons_append]

end Equations

end BuildScript.Rule
