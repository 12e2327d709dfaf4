import BuildScript.Rule.Basic

/-!
# Rule sets

A rule set holds at most one rule for a target, and the target that is made when none is asked for,
the default goal, which has a rule.  The rules are kept in no particular order.  What is made from
them goes through them in ascending order of the targets.
-/

namespace BuildScript

/-- Rules in strictly ascending order of their targets. -/
def Ascending (rules : List Rule) : Prop := rules.Pairwise fun r s ↦ r.target < s.target

namespace Rule

/-- Puts a rule into its place among rules in ascending order. -/
def place (r : Rule) : List Rule → List Rule
  | [] => [r]
  | s :: rest => if r.target < s.target then r :: s :: rest else s :: place r rest

/-- Rules in ascending order of their targets. -/
def sorted (rules : List Rule) : List Rule := rules.foldr place []

theorem place_perm (r : Rule) (rules : List Rule) : (r.place rules).Perm (r :: rules) := by
  induction rules with
  | nil => exact List.Perm.refl _
  | cons s rest ih =>
    unfold place
    split
    · exact List.Perm.refl _
    · exact (ih.cons s).trans (List.Perm.swap r s rest)

theorem sorted_perm (rules : List Rule) : (sorted rules).Perm rules := by
  induction rules with
  | nil => exact List.Perm.refl _
  | cons r rest ih => exact (place_perm r (sorted rest)).trans (ih.cons r)

theorem ascending_place {r : Rule} {rules : List Rule} (h : Ascending rules)
    (hnew : r.target ∉ rules.map Rule.target) : Ascending (r.place rules) := by
  induction rules with
  | nil => exact List.pairwise_singleton _ _
  | cons s rest ih =>
    have hs : ∀ t ∈ rest, s.target < t.target := fun _ ↦ List.rel_of_pairwise_cons h
    rw [List.map_cons, List.mem_cons, not_or] at hnew
    unfold place
    split
    · rename_i hlt
      refine List.pairwise_cons.mpr ⟨fun t ht ↦ ?_, h⟩
      rcases List.mem_cons.mp ht with rfl | ht
      · exact hlt
      · exact List.lt_trans hlt (hs t ht)
    · rename_i hlt
      have hgt : s.target < r.target := by
        rcases Std.le_total (a := s.target) (b := r.target) with hle | hle
        · exact Std.lt_of_le_of_ne hle (Ne.symm hnew.1)
        · exact absurd (Std.lt_of_le_of_ne hle hnew.1) hlt
      refine List.pairwise_cons.mpr ⟨fun t ht ↦ ?_, ih (List.Pairwise.of_cons h) hnew.2⟩
      rcases List.mem_cons.mp ((place_perm r rest).mem_iff.mp ht) with rfl | ht
      · exact hgt
      · exact hs t ht

theorem ascending_sorted {rules : List Rule} (h : (rules.map Rule.target).Nodup) :
    Ascending (sorted rules) := by
  induction rules with
  | nil => exact List.Pairwise.nil
  | cons r rest ih =>
    obtain ⟨hnew, hrest⟩ := List.nodup_cons.mp h
    refine ascending_place (ih hrest) fun hmem ↦ hnew ?_
    exact ((sorted_perm rest).map Rule.target).mem_iff.mp hmem

/-- The order of the targets leaves no choice, so rules in any order are sorted into one. -/
theorem sorted_eq_of_perm {first second : List Rule} (h : first.Perm second)
    (hnodup : (first.map Rule.target).Nodup) : sorted first = sorted second := by
  have hperm : (sorted first).Perm (sorted second) :=
    (sorted_perm first).trans (h.trans (sorted_perm second).symm)
  have hsecond : (second.map Rule.target).Nodup := (h.map Rule.target).nodup_iff.mp hnodup
  refine hperm.eq_of_pairwise ?_ (ascending_sorted hnodup) (ascending_sorted hsecond)
  intro r s _ _ hrs hsr
  exact absurd (List.lt_trans hrs hsr) (List.lt_irrefl _)

end Rule

structure RuleSet where
  entries : List Rule
  goal : Option Text
  nodup : (entries.map Rule.target).Nodup
  goalHasRule : ∀ name, goal = some name → name ∈ entries.map Rule.target
  deriving DecidableEq

namespace RuleSet

/-! ## The rules of a set -/

/-- The rule set without rules. -/
def empty : RuleSet := ⟨[], none, List.Pairwise.nil, fun _ h ↦ nomatch h⟩

instance : Inhabited RuleSet := ⟨empty⟩

/-- The rules in ascending order of their targets. -/
def rules (g : RuleSet) : List Rule := Rule.sorted g.entries

theorem ascending (g : RuleSet) : Ascending g.rules := Rule.ascending_sorted g.nodup

theorem mem_rules {g : RuleSet} {r : Rule} : r ∈ g.rules ↔ r ∈ g.entries :=
  (Rule.sorted_perm g.entries).mem_iff

def size (g : RuleSet) : Nat := g.entries.length

def targets (g : RuleSet) : List Text := g.rules.map Rule.target

def find? (g : RuleSet) (target : Text) : Option Rule := g.entries.find? (·.target == target)

theorem mem_of_find? {g : RuleSet} {target : Text} {r : Rule} (h : g.find? target = some r) :
    r ∈ g.rules :=
  mem_rules.mpr (List.mem_of_find?_eq_some h)

theorem target_of_find? {g : RuleSet} {target : Text} {r : Rule} (h : g.find? target = some r) :
    r.target = target := by
  simpa using List.find?_some h

/-- Whether there is a rule for a target. -/
def has (g : RuleSet) (target : Text) : Bool := (g.find? target).isSome

/-! ## Storing rules -/

/-- Stores a rule among others, instead of the one for its target or else at the end. -/
def store (r : Rule) : List Rule → List Rule
  | [] => [r]
  | s :: rest => if s.target = r.target then r :: rest else s :: store r rest

theorem mem_store {r s : Rule} {entries : List Rule} (h : s ∈ store r entries) :
    s = r ∨ s ∈ entries := by
  induction entries with
  | nil => simpa [store] using h
  | cons t rest ih =>
    unfold store at h
    split at h
    · rcases List.mem_cons.mp h with rfl | hrest
      · exact .inl rfl
      · exact .inr (List.mem_cons_of_mem _ hrest)
    · rcases List.mem_cons.mp h with rfl | hrest
      · exact .inr List.mem_cons_self
      · exact (ih hrest).imp_right (List.mem_cons_of_mem _)

theorem mem_targets_store {name : Text} {r : Rule} {entries : List Rule} :
    name ∈ (store r entries).map Rule.target ↔
      name = r.target ∨ name ∈ entries.map Rule.target := by
  induction entries with
  | nil => simp [store]
  | cons s rest ih =>
    unfold store
    split
    · rename_i heq
      simp [heq]
    · rw [List.map_cons, List.mem_cons, ih, List.map_cons, List.mem_cons]
      exact or_left_comm

theorem nodup_store {entries : List Rule} (r : Rule) (h : (entries.map Rule.target).Nodup) :
    ((store r entries).map Rule.target).Nodup := by
  induction entries with
  | nil => simp [store]
  | cons s rest ih =>
    obtain ⟨hs, hrest⟩ := List.nodup_cons.mp h
    unfold store
    split
    · rename_i heq
      exact List.nodup_cons.mpr ⟨heq ▸ hs, hrest⟩
    · rename_i hne
      refine List.nodup_cons.mpr ⟨fun hmem ↦ ?_, ih hrest⟩
      exact (mem_targets_store.mp hmem).elim hne hs

/-- Stores a rule, instead of the one for its target if there is one. -/
def put (g : RuleSet) (r : Rule) : RuleSet where
  entries := store r g.entries
  goal := g.goal
  nodup := nodup_store r g.nodup
  goalHasRule name h := mem_targets_store.mpr (.inr (g.goalHasRule name h))

theorem mem_rules_put {g : RuleSet} {r s : Rule} (h : s ∈ (g.put r).rules) :
    s = r ∨ s ∈ g.rules :=
  (mem_store (mem_rules.mp h)).imp_right mem_rules.mpr

/-- Stores a rule that was written down.  The first whose target has no leading dot becomes the
default goal. -/
def insert (g : RuleSet) (r : Rule) : RuleSet where
  entries := store r g.entries
  goal := g.goal.or (if r.isDotted then none else some r.target)
  nodup := nodup_store r g.nodup
  goalHasRule name h := by
    rcases Option.or_eq_some_iff.mp h with hold | ⟨-, hnew⟩
    · exact mem_targets_store.mpr (.inr (g.goalHasRule name hold))
    · split at hnew
      · simp at hnew
      · exact mem_targets_store.mpr (.inl (Option.some.inj hnew).symm)

theorem target_ite_addCommand (target : Text) (c : Command) (r : Rule) :
    (if r.target = target then r.addCommand c else r).target = r.target := by
  split <;> rfl

/-- Adding a command to rules changes no target. -/
theorem map_target_addCommand (target : Text) (c : Command) (entries : List Rule) :
    (entries.map fun r ↦ if r.target = target then r.addCommand c else r).map Rule.target =
      entries.map Rule.target := by
  rw [List.map_map]
  exact List.map_congr_left fun r _ ↦ target_ite_addCommand target c r

/-- Adds a command to the rule for a target. -/
def addCommand (g : RuleSet) (target : Text) (c : Command) : RuleSet where
  entries := g.entries.map fun r ↦ if r.target = target then r.addCommand c else r
  goal := g.goal
  nodup := by
    rw [map_target_addCommand]
    exact g.nodup
  goalHasRule name h := by
    rw [map_target_addCommand]
    exact g.goalHasRule name h

/-- The target whose sources are phony. -/
def phonyTarget : Text := ".PHONY".toList

/-- Whether a target names no file, so that it is never up to date. -/
def isPhony (g : RuleSet) (target : Text) : Bool :=
  target == phonyTarget || (g.find? phonyTarget).any fun r ↦ r.sources.contains target

end RuleSet

end BuildScript
