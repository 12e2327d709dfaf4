import BuildScript.Bindings.Basic
import Mathlib.Data.List.Induction

/-!
# Values after a history of definitions

What a name stands for can be read off the overrides and the definitions of this name, whatever is
defined in between.  An override hides all definitions.  Else the value is put together from a base
and from the values that were appended after it.  The base is the last value that replaced what was
there before; if there is none, it is the value that the name had from the start, or the first one
that was defined.
-/

namespace BuildScript

namespace Text

variable {mark : Text} {texts : List Text}

theorem intercalate_concat (h : texts ≠ []) (last : Text) :
    List.intercalate mark (texts ++ [last]) = List.intercalate mark texts ++ mark ++ last := by
  induction texts with
  | nil => exact absurd rfl h
  | cons text more ih =>
    cases more with
    | nil => simp
    | cons next more =>
      calc
        List.intercalate mark (text :: next :: more ++ [last]) =
            text ++ mark ++ List.intercalate mark (next :: more ++ [last]) :=
          List.intercalate_cons_cons
        _ = text ++ mark ++ (List.intercalate mark (next :: more) ++ mark ++ last) := by
          rw [ih (List.cons_ne_nil next more)]
        _ = List.intercalate mark (text :: next :: more) ++ mark ++ last := by
          rw [List.intercalate_cons_cons]
          simp only [List.append_assoc]

theorem intercalate_ne_nil (h : texts ≠ []) (hfilled : ∀ text ∈ texts, text ≠ []) :
    List.intercalate mark texts ≠ [] := by
  obtain ⟨text, more, rfl⟩ := List.exists_cons_of_ne_nil h
  have htext : text ≠ [] := hfilled text List.mem_cons_self
  cases more <;> simp [htext]

end Text

/-! ## The value of one name -/

namespace Bindings

/-- The values that are not empty, with a blank between neighbours. -/
def joinFilled (values : List Text) : Text :=
  List.intercalate [' '] (values.filter fun value ↦ !value.isEmpty)

theorem joinFilled_singleton (value : Text) : joinFilled [value] = value := by
  cases value <;> simp [joinFilled]

theorem joinFilled_concat (values : List Text) (last : Text) :
    joinFilled (values ++ [last]) = joinValues (joinFilled values) last := by
  unfold joinFilled
  rw [List.filter_append]
  cases last with
  | nil => simp [joinValues]
  | cons c last =>
    have hlast : List.filter (fun value ↦ !value.isEmpty) [c :: last] = [c :: last] := rfl
    rw [hlast]
    by_cases hvalues : values.filter (fun value ↦ !value.isEmpty) = []
    · simp [hvalues, joinValues]
    · have hfilled : List.intercalate [' '] (values.filter fun value ↦ !value.isEmpty) ≠ [] :=
        Text.intercalate_ne_nil hvalues (by simp)
      rw [Text.intercalate_concat hvalues]
      simp [joinValues, hfilled]

end Bindings

namespace Definition

open Bindings (joinFilled joinValues)

/-- Whether a definition replaces the value that is there. -/
def replaces (d : Definition) : Bool := d.operator == .recursive || d.operator == .simple

/-- The value that a definition adds to the one that is there. -/
def appended? (d : Definition) : Option Text :=
  if d.operator = .append then some d.value else none

/-- The value of the last definition that replaces, and the definitions after it. -/
def lastReplacing? : List Definition → Option (Text × List Definition)
  | [] => none
  | d :: later => (lastReplacing? later).or (if d.replaces then some (d.value, later) else none)

/-- The value of the first definition, and the definitions after it. -/
def first? : List Definition → Option (Text × List Definition)
  | [] => none
  | d :: later => some (d.value, later)

/-- What the value of a name builds on, and the definitions of the name after that: the last value
that replaces, else the one that was given before, else the first one. -/
def base? (given : Option Text) (history : List Definition) : Option (Text × List Definition) :=
  (lastReplacing? history).or ((given.map fun value ↦ (value, history)).or (first? history))

/-- The value of a name after its definitions, if `given` is the one before. -/
def valueAfter? (given : Option Text) (history : List Definition) : Option Text :=
  (base? given history).map fun (base, later) ↦ joinFilled (base :: later.filterMap appended?)

/-- What one definition of a name makes of its value. -/
def revalue (current : Option Text) (d : Definition) : Option Text :=
  match d.operator with
  | .recursive => some d.value
  | .simple => some d.value
  | .conditional => some (current.getD d.value)
  | .append => some (joinValues (current.getD []) d.value)

variable {given : Option Text} {history later : List Definition} {base : Text} {d : Definition}

theorem lastReplacing?_concat (history : List Definition) (d : Definition) :
    lastReplacing? (history ++ [d]) =
      if d.replaces then some (d.value, [])
      else (lastReplacing? history).map fun (base, later) ↦ (base, later ++ [d]) := by
  induction history with
  | nil => rfl
  | cons e history ih =>
    rw [List.cons_append, lastReplacing?, ih]
    by_cases hd : d.replaces
    · simp [hd]
    · cases hlast : lastReplacing? history <;> cases he : e.replaces <;>
        simp [lastReplacing?, hd, hlast, he]

theorem base?_eq_none_iff : base? given history = none ↔ given = none ∧ history = [] := by
  cases history with
  | nil => simp [base?, lastReplacing?, first?]
  | cons d history => simp [base?, first?]

theorem base?_concat_of_replaces (given : Option Text) (history : List Definition)
    (hd : d.replaces) : base? given (history ++ [d]) = some (d.value, []) := by
  rw [base?, lastReplacing?_concat, if_pos hd, Option.some_or]

/-- The base stays the same until a value replaces it. -/
theorem base?_concat (hd : d.replaces = false) (h : base? given history = some (base, later)) :
    base? given (history ++ [d]) = some (base, later ++ [d]) := by
  unfold base? at h ⊢
  rw [lastReplacing?_concat, if_neg (by simp [hd])]
  cases hlast : lastReplacing? history with
  | some last => simp_all
  | none =>
    cases given with
    | some value => simp_all
    | none => cases history <;> simp_all [first?]

theorem base?_singleton (d : Definition) : base? none [d] = some (d.value, []) := by
  cases hd : d.replaces <;> simp [base?, lastReplacing?, first?, hd]

theorem revalue_none (d : Definition) : revalue none d = some d.value := by
  cases hd : d.operator <;> simp [revalue, hd, joinValues]

/-- A definition makes of the value what it makes of the history. -/
theorem valueAfter?_concat (given : Option Text) (history : List Definition) (d : Definition) :
    valueAfter? given (history ++ [d]) = revalue (valueAfter? given history) d := by
  unfold valueAfter?
  cases hbase : base? given history with
  | none =>
    obtain ⟨rfl, rfl⟩ := base?_eq_none_iff.mp hbase
    rw [List.nil_append, base?_singleton, Option.map_none, revalue_none]
    exact congrArg some (Bindings.joinFilled_singleton d.value)
  | some found =>
    obtain ⟨base, later⟩ := found
    have hreplaced (hd : d.replaces) : base? given (history ++ [d]) = some (d.value, []) :=
      base?_concat_of_replaces given history hd
    have hkept (hd : d.replaces = false) :
        base? given (history ++ [d]) = some (base, later ++ [d]) := base?_concat hd hbase
    cases hoperator : d.operator with
    | recursive =>
      rw [hreplaced (by simp [replaces, hoperator])]
      simp [revalue, hoperator, Bindings.joinFilled_singleton]
    | simple =>
      rw [hreplaced (by simp [replaces, hoperator])]
      simp [revalue, hoperator, Bindings.joinFilled_singleton]
    | conditional =>
      rw [hkept (by simp [replaces, hoperator])]
      simp [revalue, hoperator, appended?]
    | append =>
      have hvalues : base :: (later ++ [d]).filterMap appended? =
          base :: later.filterMap appended? ++ [d.value] := by simp [appended?, hoperator]
      rw [hkept (by simp [replaces, hoperator])]
      calc
        some (joinFilled (base :: (later ++ [d]).filterMap appended?)) =
            some (joinValues (joinFilled (base :: later.filterMap appended?)) d.value) := by
          rw [hvalues, Bindings.joinFilled_concat]
        _ = revalue (some (joinFilled (base :: later.filterMap appended?))) d := by
          simp only [revalue, hoperator, Option.getD_some]

/-- The value after definitions, one after the other. -/
theorem foldl_revalue (given : Option Text) (history : List Definition) :
    history.foldl revalue given = valueAfter? given history := by
  induction history using List.reverseRecOn with
  | nil =>
    cases given with
    | none => rfl
    | some value => exact congrArg some (Bindings.joinFilled_singleton value).symm
  | append_singleton history d ih =>
    rw [List.foldl_append, ih, valueAfter?_concat]
    rfl

-- What is appended before a value that replaces is lost, and empty values leave no blank behind.
example : valueAfter? (some "x".toList)
    [⟨"N".toList, .append, "a".toList⟩, ⟨"N".toList, .simple, []⟩,
      ⟨"N".toList, .append, "b".toList⟩, ⟨"N".toList, .conditional, "c".toList⟩,
      ⟨"N".toList, .append, []⟩, ⟨"N".toList, .append, "d".toList⟩] = some "b d".toList := by
  decide +kernel

end Definition

/-! ## Bindings -/

namespace Bindings

open Definition (revalue valueAfter?)

variable {b : Bindings} {name : Text}

@[simp]
theorem overrides_assign (b : Bindings) (d : Definition) :
    (b.assign d).overrides = b.overrides := by
  rcases b.assign_cases d with heq | ⟨value, heq⟩ <;> rw [heq]
  rfl

/-- A definition leaves the values of other names alone. -/
theorem lookup_defined_assign_of_ne {d : Definition} (h : d.name ≠ name) :
    (b.assign d).defined.lookup name = b.defined.lookup name := by
  rcases b.assign_cases d with heq | ⟨value, heq⟩
  · rw [heq]
  · have hne : (name == d.name) = false := beq_eq_false_iff_ne.mpr (Ne.symm h)
    rw [heq, define, List.lookup_cons, hne]

theorem lookup_defined_assign {d : Definition} (hfree : b.overrides.lookup d.name = none) :
    (b.assign d).defined.lookup d.name = revalue (b.defined.lookup d.name) d := by
  cases hoperator : d.operator with
  | recursive => simp [assign, define, revalue, hoperator]
  | simple => simp [assign, define, revalue, hoperator]
  | conditional =>
    -- Without an override, a name has a value exactly if one is defined.
    cases hdefined : b.defined.lookup d.name <;>
      simp [assign, define, lookup, revalue, hoperator, hfree, hdefined]
  | append => simp [assign, define, revalue, hoperator]

theorem overrides_foldl_assign (b : Bindings) (history : List Definition) :
    (history.foldl assign b).overrides = b.overrides := by
  induction history generalizing b with
  | nil => rfl
  | cons d history ih => rw [List.foldl_cons, ih, overrides_assign]

/-- Of a history, only the definitions of a name play a part in its value. -/
theorem lookup_defined_foldl_assign (history : List Definition)
    (hfree : b.overrides.lookup name = none) :
    (history.foldl assign b).defined.lookup name =
      (history.filter (·.name = name)).foldl revalue (b.defined.lookup name) := by
  induction history generalizing b with
  | nil => rfl
  | cons d history ih =>
    rw [List.foldl_cons, ih (by rwa [overrides_assign])]
    by_cases hname : d.name = name
    · subst hname
      rw [List.filter_cons_of_pos (by simp), List.foldl_cons, lookup_defined_assign hfree]
    · rw [List.filter_cons_of_neg (by simpa using hname), lookup_defined_assign_of_ne hname]

theorem lookup_foldl_assign (b : Bindings) (history : List Definition) (name : Text) :
    (history.foldl assign b).lookup name =
      (b.overrides.lookup name).or
        (valueAfter? (b.defined.lookup name) (history.filter (·.name = name))) := by
  rw [lookup, overrides_foldl_assign]
  cases hoverride : b.overrides.lookup name with
  | some value => rw [Option.some_or, Option.some_or]
  | none => rw [lookup_defined_foldl_assign history hoverride, Definition.foldl_revalue]

/-- The value of the last override of a name. -/
def lastOverride? (overrides : List (Text × Text)) (name : Text) : Option Text :=
  (overrides.filter (·.1 = name)).getLast?.map Prod.snd

theorem lookup_reverse (overrides : List (Text × Text)) (name : Text) :
    overrides.reverse.lookup name = lastOverride? overrides name := by
  unfold lastOverride?
  induction overrides using List.reverseRecOn with
  | nil => rfl
  | append_singleton overrides last ih =>
    obtain ⟨other, value⟩ := last
    rw [List.reverse_append, List.filter_append]
    by_cases hother : other = name
    · simp [hother]
    · have hne : (name == other) = false := beq_eq_false_iff_ne.mpr (Ne.symm hother)
      simp [hother, hne, ih, List.lookup_cons]

theorem lastOverride?_eq_none_iff {overrides : List (Text × Text)} :
    lastOverride? overrides name = none ↔ ∀ override ∈ overrides, override.1 ≠ name := by
  simp [lastOverride?]

/-- The value of a name after a history of definitions.  It is that of the last override of the
name, if there is one.  Else it depends on the definitions of this name only.  It is the last value
that replaced what was there, or if there is none the value that every rule file starts with, or
else the first value; and then the values that were appended later, with single blanks in between
and without those that are empty.  So a name has no value exactly if nothing gives it one. -/
theorem lookup_after_definitions (overrides : List (Text × Text)) (history : List Definition)
    (name : Text) :
    (history.foldl assign (ofOverrides overrides)).lookup name =
        (lastOverride? overrides name).or
          (valueAfter? (builtins.lookup name) (history.filter (·.name = name))) ∧
      ((history.foldl assign (ofOverrides overrides)).lookup name = none ↔
        (∀ override ∈ overrides, override.1 ≠ name) ∧ builtins.lookup name = none ∧
          ∀ d ∈ history, d.name ≠ name) := by
  have hlast : (ofOverrides overrides).overrides.lookup name = lastOverride? overrides name :=
    lookup_reverse overrides name
  have hgiven : (ofOverrides overrides).defined = builtins := rfl
  have hclosed := lookup_foldl_assign (ofOverrides overrides) history name
  rw [hlast, hgiven] at hclosed
  refine ⟨hclosed, ?_⟩
  rw [hclosed, Option.or_eq_none_iff, lastOverride?_eq_none_iff, valueAfter?,
    Option.map_eq_none_iff, Definition.base?_eq_none_iff, List.filter_eq_nil_iff]
  simp only [decide_eq_true_eq, ne_eq]

end Bindings

end BuildScript
