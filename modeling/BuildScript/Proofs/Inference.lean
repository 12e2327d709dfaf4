import BuildScript.Proofs.RuleLookup
import BuildScript.RuleSet.Inference

/-!
# Inferred rules

Inference goes through the sources of the given rules and stores a rule for a source that has none.
Whatever holds of the given rules and is kept by storing such a rule holds of the result; from this
it follows that no rule and no goal is changed, and where the new rules come from.
-/

namespace BuildScript.RuleSet

variable {g : RuleSet}

theorem inferFor_cases (pairs : List SuffixPair) (g : RuleSet) (name : Text) :
    inferFor pairs g name = g ∨
      ∃ source, g.has name = false ∧ candidate? pairs g name = some source ∧
        inferFor pairs g name = g.put ⟨name, [source], []⟩ := by
  unfold inferFor
  cases hname : g.has name with
  | true => exact .inl rfl
  | false =>
    cases hsource : candidate? pairs g name with
    | none => exact .inl rfl
    | some source => exact .inr ⟨source, rfl, rfl, rfl⟩

/-- The suffix rule `pattern` of `g` makes `name` from `source`: its target suffix is the suffix of
the name, and the source has its source suffix instead. -/
structure SuffixRuleFor (g : RuleSet) (pattern name source : Text) : Prop where
  hasRule : g.has pattern
  ne_phony : pattern ≠ phonyTarget
  fits : ∃ pair, SuffixPair.ofName? pattern = some pair ∧ pair.target = FileName.suffix name ∧
    source = FileName.base name ++ pair.source

theorem mem_suffixPairs {pair : SuffixPair} :
    pair ∈ g.suffixPairs ↔
      ∃ pattern, (g.has pattern ∧ pattern ≠ phonyTarget) ∧
        SuffixPair.ofName? pattern = some pair := by
  simp [suffixPairs, has_iff_mem_targets]

/-- The sources that the pairs give a name are those that suffix rules make it from. -/
theorem mem_candidates {name source : Text} :
    source ∈ (g.suffixPairs.filter (·.target == FileName.suffix name)).map
        (fun pair ↦ FileName.base name ++ pair.source) ↔
      ∃ pattern, g.SuffixRuleFor pattern name source := by
  simp only [List.mem_map, List.mem_filter, mem_suffixPairs, beq_iff_eq]
  constructor
  · rintro ⟨pair, ⟨⟨pattern, ⟨hrule, hphony⟩, hpair⟩, htarget⟩, hsource⟩
    exact ⟨pattern, hrule, hphony, pair, hpair, htarget, hsource.symm⟩
  · rintro ⟨pattern, hrule, hphony, pair, hpair, htarget, hsource⟩
    exact ⟨pair, ⟨⟨pattern, ⟨hrule, hphony⟩, hpair⟩, htarget⟩, hsource.symm⟩

theorem has_of_candidate? {pairs : List SuffixPair} {name source : Text}
    (h : candidate? pairs g name = some source) : g.has source :=
  List.find?_some h

theorem suffixRuleFor_of_candidate? {grown : RuleSet} {name source : Text}
    (h : candidate? g.suffixPairs grown name = some source) :
    ∃ pattern, g.SuffixRuleFor pattern name source :=
  mem_candidates.mp (List.mem_of_find?_eq_some h)

/-- What holds at the start and is kept by each rule that is added holds at the end. -/
theorem infer_induction {P : RuleSet → Prop} (hstart : P g)
    (hstep : ∀ (h : RuleSet) (name source : Text), P h → name ∈ g.rules.flatMap Rule.sources →
      h.has name = false → candidate? g.suffixPairs h name = some source →
      P (h.put ⟨name, [source], []⟩)) : P g.infer := by
  refine List.foldlRecOn _ _ hstart fun h hh name hname ↦ ?_
  rcases inferFor_cases g.suffixPairs h name with heq | ⟨source, hnone, hsource, heq⟩
  · rwa [heq]
  · rw [heq]
    exact hstep h name source hh hname hnone hsource

@[simp]
theorem goal_infer (g : RuleSet) : g.infer.goal = g.goal :=
  infer_induction (P := fun h ↦ h.goal = g.goal) rfl fun _ _ _ hh _ _ _ ↦ hh

theorem find?_infer {name : Text} {r : Rule} (h : g.find? name = some r) :
    g.infer.find? name = some r := by
  refine infer_induction (P := fun h ↦ h.find? name = some r) h ?_
  intro h fresh source hh _ hnone _
  have hne : name ≠ fresh := by
    rintro rfl
    rw [has_eq_false_iff, hh] at hnone
    cases hnone
  rw [find?_put, if_neg hne, hh]

/-- A rule is a given one, or it makes a source of a given rule as a suffix rule says, from another
name that has a rule, and has no commands. -/
theorem mem_rules_infer {r : Rule} (h : r ∈ g.infer.rules) :
    r ∈ g.rules ∨ ∃ name source, r = ⟨name, [source], []⟩ ∧
      name ∈ g.rules.flatMap Rule.sources ∧ (∃ pattern, g.SuffixRuleFor pattern name source) ∧
      source ≠ name ∧ g.infer.has source := by
  -- A candidate has a rule when it is chosen, and a set that grows does not lose it.
  refine infer_induction
    (P := fun h ↦ ∀ r ∈ h.rules, r ∈ g.rules ∨ ∃ name source, r = ⟨name, [source], []⟩ ∧
      name ∈ g.rules.flatMap Rule.sources ∧ (∃ pattern, g.SuffixRuleFor pattern name source) ∧
      source ≠ name ∧ h.has source) (fun _ ↦ .inl) ?_ r h
  intro h fresh source hh hfresh hnone hcandidate r hr
  have hsource : h.has source := has_of_candidate? hcandidate
  rcases mem_rules_put hr with rfl | hr
  · have hne : source ≠ fresh := by
      rintro rfl
      exact Bool.false_ne_true (hnone.symm.trans hsource)
    exact .inr ⟨fresh, source, rfl, hfresh, suffixRuleFor_of_candidate? hcandidate, hne,
      has_put.mpr (.inr hsource)⟩
  · rcases hh r hr with hgiven | ⟨name, origin, rfl, hname, hpattern, hne, horigin⟩
    · exact .inl hgiven
    · exact .inr ⟨name, origin, rfl, hname, hpattern, hne, has_put.mpr (.inr horigin)⟩

/-- A property of all names that occur in the given rules is one of all names that occur in the
result. -/
theorem forall_names_infer {P : Text → Prop}
    (h : ∀ r ∈ g.rules, P r.target ∧ ∀ source ∈ r.sources, P source) :
    ∀ r ∈ g.infer.rules, P r.target ∧ ∀ source ∈ r.sources, P source := by
  refine infer_induction
    (P := fun h ↦ ∀ r ∈ h.rules, P r.target ∧ ∀ source ∈ r.sources, P source) h ?_
  intro grown fresh source hgrown hfresh _ hcandidate r hr
  rcases mem_rules_put hr with rfl | hr
  · obtain ⟨user, huser, hused⟩ := List.mem_flatMap.mp hfresh
    obtain ⟨maker, hmaker⟩ := has_iff_exists_find?.mp (has_of_candidate? hcandidate)
    have hsource : P source := target_of_find? hmaker ▸ (hgrown maker (mem_of_find? hmaker)).1
    exact ⟨(h user huser).2 fresh hused, by simpa using hsource⟩
  · exact hgrown r hr

/-- Commands are lent, never made up: each stands in a given rule. -/
theorem exists_mem_recipe_of_mem_recipeOf_infer {r : Rule} {c : Command} (hr : r ∈ g.infer.rules)
    (hc : c ∈ g.infer.recipeOf r) : ∃ s ∈ g.rules, c ∈ s.recipe := by
  have hown (s : Rule) (hs : s ∈ g.infer.rules) (hc : c ∈ s.recipe) :
      ∃ s ∈ g.rules, c ∈ s.recipe := by
    rcases mem_rules_infer hs with hgiven | ⟨name, source, rfl, -⟩
    · exact ⟨s, hgiven, hc⟩
    · simp at hc
  unfold recipeOf at hc
  split at hc
  · split at hc
    · rename_i lender hlender
      obtain ⟨key, -, hfind⟩ := Option.bind_eq_some_iff.mp hlender
      exact hown lender (mem_of_find? hfind) hc
    · exact hown r hr hc
  · exact hown r hr hc

end BuildScript.RuleSet
