import BuildScript.Proofs.Dependency

/-!
# Rules and how they were collected

Rules are collected by storing them one after the other and adding commands to them, and the order
in which they are kept afterwards is that of this history.  Inference, the search for a cycle and
the script go through the rules in the order of their targets, and otherwise only ask for the rule
of a target.  So the script, or the cycle that is reported instead of it, is the same for all
histories that collect the same rules, and for all orders in which the rules can be kept.
-/

namespace BuildScript.RuleSet

/-! ## The same rules in any order -/

/-- The rule sets give the same rule for each target and have the same goal.  The order in which
they keep the rules may differ. -/
structure SameRules (g h : RuleSet) : Prop where
  rule : ∀ name, g.find? name = h.find? name
  goal : g.goal = h.goal

variable {g h : RuleSet}

/-- A listing of the rules of a set is sorted into the order that they have there. -/
theorem sorted_eq_rules {listing : List Rule} (h : listing.Perm g.rules) :
    Rule.sorted listing = g.rules := by
  have hentries : g.entries.Perm listing := (Rule.sorted_perm g.entries).symm.trans h.symm
  exact (Rule.sorted_eq_of_perm hentries g.nodup).symm

namespace SameRules

theorem refl (g : RuleSet) : g.SameRules g := ⟨fun _ ↦ rfl, rfl⟩

theorem trans {k : RuleSet} (first : g.SameRules h) (second : h.SameRules k) : g.SameRules k :=
  ⟨fun name ↦ (first.rule name).trans (second.rule name), first.goal.trans second.goal⟩

/-- Rules that are kept in another order are the same rules. -/
theorem of_perm (hperm : g.entries.Perm h.entries) (hgoal : g.goal = h.goal) : g.SameRules h := by
  refine ⟨fun name ↦ Option.ext fun r ↦ ?_, hgoal⟩
  rw [find?_eq_some_iff, find?_eq_some_iff, mem_rules, mem_rules, hperm.mem_iff]

theorem rules_eq (same : g.SameRules h) : g.rules = h.rules := by
  have hperm : g.rules.Perm h.rules := by
    apply (List.perm_ext_iff_of_nodup g.nodup_targets.of_map h.nodup_targets.of_map).mpr
    intro r
    rw [mem_rules_iff, mem_rules_iff, same.rule]
  rw [← sorted_eq_rules hperm]
  exact (sorted_eq_rules (List.Perm.refl g.rules)).symm

theorem targets_eq (same : g.SameRules h) : g.targets = h.targets :=
  congrArg (List.map Rule.target) same.rules_eq

theorem has_eq (same : g.SameRules h) : g.has = h.has :=
  funext fun name ↦ congrArg Option.isSome (same.rule name)

theorem put (same : g.SameRules h) (r : Rule) : (g.put r).SameRules (h.put r) := by
  refine ⟨fun name ↦ ?_, same.goal⟩
  rw [find?_put, find?_put, same.rule]

theorem insert (same : g.SameRules h) (r : Rule) : (g.insert r).SameRules (h.insert r) := by
  constructor
  · intro name
    rw [find?_insert, find?_insert, same.rule]
  · simp only [RuleSet.insert, same.goal]

theorem addCommand (same : g.SameRules h) (target : Text) (c : Command) :
    (g.addCommand target c).SameRules (h.addCommand target c) := by
  refine ⟨fun name ↦ ?_, same.goal⟩
  rw [find?_addCommand, find?_addCommand, same.rule]

/-! ### Inference -/

theorem inferFor (same : g.SameRules h) (pairs : List SuffixPair) (name : Text) :
    (g.inferFor pairs name).SameRules (h.inferFor pairs name) := by
  unfold RuleSet.inferFor candidate?
  rw [same.has_eq]
  split
  · exact same
  · split
    · exact same.put _
    · exact same

/-- Inference goes through the same names, and finds the same rules for each in turn. -/
theorem infer (same : g.SameRules h) : g.infer.SameRules h.infer := by
  have hfold (pairs : List SuffixPair) (names : List Text) :
      (names.foldl (RuleSet.inferFor pairs) g).SameRules
        (names.foldl (RuleSet.inferFor pairs) h) := by
    induction names generalizing g h with
    | nil => exact same
    | cons name names ih => exact ih (same.inferFor pairs name)
  have hpairs : g.suffixPairs = h.suffixPairs := by
    rw [suffixPairs, same.targets_eq, suffixPairs]
  unfold RuleSet.infer
  rw [same.rules_eq, hpairs]
  exact hfold _ _

/-! ### The search -/

/-- From the same names, the search visits the same names in the same order. -/
theorem search_eq (same : g.SameRules h) (path clear names : List Text) :
    g.search path clear names = h.search path clear names := by
  fun_induction search g path clear names with
  | case1 path clear => rw [search]
  | case2 path clear name rest hclear ih =>
    rw [search, if_pos hclear, ih]
  | case3 path clear name rest hclear hpath =>
    rw [search, if_neg hclear, dif_pos hpath]
  | case4 path clear name rest hclear hpath hfind ih =>
    rw [same.rule] at hfind
    rw [search, if_neg hclear, dif_neg hpath, ih]
    split <;> simp_all
  | case5 path clear name rest hclear hpath r hfind cycle hsources ih =>
    rw [same.rule] at hfind
    rw [search, if_neg hclear, dif_neg hpath]
    split <;> simp_all
  | case6 path clear name rest hclear hpath r hfind cleared hsources ihsources ih =>
    rw [same.rule] at hfind
    rw [search, if_neg hclear, dif_neg hpath, ih]
    split <;> simp_all

theorem findCycle?_eq (same : g.SameRules h) : g.findCycle? = h.findCycle? := by
  unfold findCycle?
  rw [same.targets_eq, same.search_eq]

/-! ### The script -/

theorem block_eq (same : g.SameRules h) (isolated : Bool) :
    g.block isolated = h.block isolated := by
  have hfind : g.find? = h.find? := funext same.rule
  funext r
  unfold block skipSteps isPhony recipeOf
  rw [same.has_eq, hfind]

theorem script_eq (same : g.SameRules h) (isolated : Bool) :
    g.script isolated = h.script isolated := by
  unfold script
  rw [same.goal, same.rules_eq, same.block_eq]

theorem compile_eq (same : g.SameRules h) (isolated : Bool) :
    g.compile isolated = h.compile isolated := by
  unfold compile
  rw [same.infer.findCycle?_eq, same.infer.script_eq]

end SameRules

/-! ## Rules collected step by step -/

/-- A step in collecting rules. -/
inductive Edit where
  | insert (r : Rule)
  | addCommand (target : Text) (c : Command)

def edit (g : RuleSet) : Edit → RuleSet
  | .insert r => g.insert r
  | .addCommand target c => g.addCommand target c

/-- The rules that a history of steps collects, in the order in which they came. -/
def collect (edits : List Edit) : RuleSet := edits.foldl edit empty

/-- Histories that collect the same rule for every target and the same goal give the same script,
text for text, or the same cycle.  This does not hang on an order in which the rules are kept: it is
the same for every order of what one of the histories has collected. -/
theorem compile_depends_on_rules_only {first second : List Edit}
    (hrules : ∀ target, (collect first).find? target = (collect second).find? target)
    (hgoal : (collect first).goal = (collect second).goal) (isolated : Bool) :
    (∀ kept : RuleSet, kept.entries.Perm (collect first).entries →
      kept.goal = (collect first).goal →
        kept.compile isolated = (collect second).compile isolated) ∧
    ((∃ s t, (collect first).compile isolated = .ok s ∧ (collect second).compile isolated = .ok t ∧
        s.render = t.render ∧ s.blocks.map Block.label = (collect second).infer.targets) ∨
      ∃ cycle, (collect first).compile isolated = .error cycle ∧
        (collect second).compile isolated = .error cycle) := by
  have same : (collect first).SameRules (collect second) := ⟨hrules, hgoal⟩
  have hcompile := same.compile_eq isolated
  constructor
  · intro kept hkept hkeptGoal
    exact ((SameRules.of_perm hkept hkeptGoal).compile_eq isolated).trans hcompile
  · cases hsecond : (collect second).compile isolated with
    | error cycle => exact .inr ⟨cycle, hcompile.trans hsecond, rfl⟩
    | ok s =>
      obtain ⟨-, rfl⟩ := compile_eq_ok_iff.mp hsecond
      have hlabels : (((collect second).infer.script isolated).blocks.map Block.label) =
          (collect second).infer.targets := by
        unfold script targets
        rw [List.map_map]
        rfl
      exact .inl ⟨_, _, hcompile.trans hsecond, rfl, rfl, hlabels⟩

def plainHistory : List Edit :=
  [.insert ⟨"all".toList, ["a.o".toList], []⟩, .insert ⟨".c.o".toList, [], []⟩,
    .addCommand ".c.o".toList ⟨"cc $<".toList, false⟩, .insert ⟨"a.c".toList, [], []⟩]

/-- The same rules, but the goal is stored a second time with other sources, and the command is
added at the end. -/
def roundaboutHistory : List Edit :=
  [.insert ⟨".c.o".toList, [], []⟩, .insert ⟨"all".toList, [], []⟩,
    .insert ⟨"a.c".toList, [], []⟩, .insert ⟨"all".toList, ["a.o".toList], []⟩,
    .addCommand ".c.o".toList ⟨"cc $<".toList, false⟩]

/-- The same rules, kept in the opposite order. -/
def reversed (g : RuleSet) : RuleSet where
  entries := g.entries.reverse
  goal := g.goal
  nodup := by
    rw [List.map_reverse, List.nodup_reverse]
    exact g.nodup
  goalHasRule name h := by
    rw [List.map_reverse, List.mem_reverse]
    exact g.goalHasRule name h

theorem compile_depends_on_rules_only_roundabout :
    ((∀ target, (collect plainHistory).find? target = (collect roundaboutHistory).find? target) ∧
        (collect plainHistory).goal = (collect roundaboutHistory).goal) ∧
      (collect plainHistory).entries ≠ (collect roundaboutHistory).entries ∧
      (collect plainHistory).reversed.compile true = (collect roundaboutHistory).compile true ∧
      ∃ s t, (collect plainHistory).compile true = .ok s ∧
        (collect roundaboutHistory).compile true = .ok t ∧ s.render = t.render ∧
        s.blocks.map Block.label =
          [".c.o".toList, "a.c".toList, "a.o".toList, "all".toList] := by
  have hrules (target : Text) :
      (collect plainHistory).find? target = (collect roundaboutHistory).find? target := by
    simp only [collect, plainHistory, roundaboutHistory, List.foldl_cons, List.foldl_nil, edit,
      find?_insert, find?_addCommand, find?_empty]
    split_ifs <;> simp_all
  have hgoal : (collect plainHistory).goal = (collect roundaboutHistory).goal := by decide +kernel
  obtain ⟨hkept, hresult⟩ := compile_depends_on_rules_only hrules hgoal true
  refine ⟨⟨hrules, hgoal⟩, by decide +kernel, hkept _ (List.reverse_perm _) rfl, ?_⟩
  rcases hresult with ⟨s, t, hs, ht, hrender, hlabels⟩ | ⟨cycle, hcycle, -⟩
  · refine ⟨s, t, hs, ht, hrender, hlabels.trans ?_⟩
    decide +kernel
  · have hok : ((collect plainHistory).compile true).isOk := by decide +kernel
    rw [hcycle] at hok
    cases hok

end BuildScript.RuleSet
