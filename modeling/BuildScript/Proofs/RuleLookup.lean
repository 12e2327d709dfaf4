import BuildScript.RuleSet.Basic
import Mathlib.Data.List.Nodup

/-!
# Looking up rules

What a rule set gives for a target, before and after a rule is stored or a command is added.  The
order of the rules plays no part here: each operation is described by the rules that are found.
-/

namespace BuildScript.RuleSet

variable {g : RuleSet}

theorem has_iff_exists_find? {name : Text} : g.has name ↔ ∃ r, g.find? name = some r :=
  Option.isSome_iff_exists

theorem has_eq_false_iff {name : Text} : g.has name = false ↔ g.find? name = none := by
  simp [has]

theorem has_iff_mem_targets {name : Text} : g.has name ↔ name ∈ g.targets := by
  simp [has, find?, targets, mem_rules]

theorem has_goal {name : Text} (h : g.goal = some name) : g.has name := by
  simpa [has, find?] using g.goalHasRule name h

theorem nodup_targets (g : RuleSet) : g.targets.Nodup :=
  ((Rule.sorted_perm g.entries).map Rule.target).nodup_iff.mpr g.nodup

theorem length_targets (g : RuleSet) : g.targets.length = g.size := by
  rw [targets, List.length_map]
  exact (Rule.sorted_perm g.entries).length_eq

/-- Targets are unique, so every rule is found under its own. -/
theorem find?_target {r : Rule} (h : r ∈ g.rules) : g.find? r.target = some r := by
  obtain ⟨s, hs⟩ := has_iff_exists_find?.mp (has_iff_mem_targets.mpr (List.mem_map_of_mem h))
  have htarget := target_of_find? hs
  have heq : s = r := List.inj_on_of_nodup_map g.nodup_targets (mem_of_find? hs) h htarget
  rw [hs, heq]

theorem mem_rules_iff {r : Rule} : r ∈ g.rules ↔ g.find? r.target = some r :=
  ⟨find?_target, mem_of_find?⟩

theorem find?_eq_some_iff {name : Text} {r : Rule} :
    g.find? name = some r ↔ r ∈ g.rules ∧ r.target = name := by
  constructor
  · intro h
    exact ⟨mem_of_find? h, target_of_find? h⟩
  · rintro ⟨hr, rfl⟩
    exact find?_target hr

theorem find?_rules (g : RuleSet) (name : Text) :
    g.rules.find? (·.target == name) = g.find? name := by
  cases hfind : g.rules.find? (·.target == name) with
  | none =>
    refine (List.find?_eq_none.mpr fun r hr ↦ ?_).symm
    exact List.find?_eq_none.mp hfind r (mem_rules.mpr hr)
  | some r =>
    have htarget : r.target = name := by simpa using List.find?_some hfind
    exact (find?_eq_some_iff.mpr ⟨List.mem_of_find?_eq_some hfind, htarget⟩).symm

theorem find?_store (r : Rule) (entries : List Rule) (name : Text) :
    (store r entries).find? (·.target == name) =
      if name = r.target then some r else entries.find? (·.target == name) := by
  induction entries with
  | nil => grind [store]
  | cons s rest ih =>
    unfold store
    split <;> grind

@[simp]
theorem find?_empty (name : Text) : empty.find? name = none := rfl

theorem find?_put (g : RuleSet) (r : Rule) (name : Text) :
    (g.put r).find? name = if name = r.target then some r else g.find? name :=
  find?_store r g.entries name

theorem find?_insert (g : RuleSet) (r : Rule) (name : Text) :
    (g.insert r).find? name = if name = r.target then some r else g.find? name :=
  find?_store r g.entries name

theorem find?_addCommand (g : RuleSet) (target : Text) (c : Command) (name : Text) :
    (g.addCommand target c).find? name =
      (g.find? name).map fun r ↦ if name = target then r.addCommand c else r := by
  have hmatch : (fun r : Rule ↦ r.target == name) ∘
      (fun r ↦ if r.target = target then r.addCommand c else r) = fun r ↦ r.target == name := by
    funext r
    simp [target_ite_addCommand]
  unfold find? addCommand
  rw [List.find?_map, hmatch]
  cases hfind : g.entries.find? (·.target == name) with
  | none => rfl
  | some r =>
    have htarget : r.target = name := target_of_find? hfind
    simp [htarget]

theorem map_addCommand_store (r : Rule) (c : Command) {entries : List Rule}
    (h : (entries.map Rule.target).Nodup) :
    ((store r entries).map fun s ↦ if s.target = r.target then s.addCommand c else s) =
      store (r.addCommand c) entries := by
  induction entries with
  | nil => simp [store]
  | cons s rest ih =>
    obtain ⟨hs, hrest⟩ := List.nodup_cons.mp h
    have htarget : (r.addCommand c).target = r.target := rfl
    simp only [store, htarget]
    split
    · rename_i heq
      -- The rule that is replaced was the only one for its target.
      have hothers : ∀ t ∈ rest, t.target ≠ r.target := fun t ht hsame ↦
        hs (heq ▸ hsame ▸ List.mem_map_of_mem ht)
      rw [List.map_cons, if_pos rfl]
      refine congrArg _ ((List.map_congr_left fun t ht ↦ if_neg (hothers t ht)).trans ?_)
      exact List.map_id' rest
    · rename_i hne
      rw [List.map_cons, if_neg hne, ih hrest]

/-- A command for the rule that was stored last is as good as stored with it. -/
theorem addCommand_insert (g : RuleSet) (r : Rule) (c : Command) :
    (g.insert r).addCommand r.target c = g.insert (r.addCommand c) := by
  unfold insert addCommand
  simp only [map_addCommand_store r c g.nodup]
  rfl

theorem has_put {r : Rule} {name : Text} : (g.put r).has name ↔ name = r.target ∨ g.has name := by
  simp only [has, find?_put]
  split <;> simp [*]

end BuildScript.RuleSet
