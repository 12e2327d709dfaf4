import BuildScript.Proofs.InferredRules
import Mathlib.Data.List.Chain

/-!
# The order in which rules are inferred

Inference goes through the listed sources once.  A rule that was added serves the names that come
later, not those that came before.  So a name gets a rule exactly if it can be made from the target
of a given rule by one suffix rule after another, the names on the way being listed in this order.
Whether inference would find anything more in its own result therefore depends on the order in
which sources are listed.
-/

namespace BuildScript.RuleSet

variable {g : RuleSet} {name : Text}

/-- Some suffix rule makes the name from the source. -/
def Makes (g : RuleSet) (source name : Text) : Prop :=
  ∃ pattern, g.SuffixRuleFor pattern name source

/-- All sources of the rules, as they are gone through. -/
def listing (g : RuleSet) : List Text := g.rules.flatMap Rule.sources

/-! ## One pass -/

/-- Suffix rules of `g` lead to the name from one that `known` has a rule for, and the names that
they make on the way stand in this order among the names that are listed. -/
def MadeInOrder (g known : RuleSet) (names : List Text) (name : Text) : Prop :=
  ∃ start made, known.has start ∧ (start :: made).IsChain g.Makes ∧ made.Sublist names ∧
    (start :: made).getLast? = some name

theorem has_inferFor_iff {known : RuleSet} {fresh : Text} :
    (inferFor g.suffixPairs known fresh).has name ↔
      known.has name ∨ name = fresh ∧ ∃ source, g.Makes source fresh ∧ known.has source := by
  constructor
  · intro h
    rcases inferFor_cases g.suffixPairs known fresh with heq | ⟨source, -, hsource, heq⟩
    · exact .inl (heq ▸ h)
    · rw [heq, has_put] at h
      refine h.symm.imp_right fun hname ↦ ⟨hname, source, ?_, has_of_candidate? hsource⟩
      exact suffixRuleFor_of_candidate? hsource
  · rintro (h | ⟨rfl, source, ⟨pattern, hrule⟩, hsource⟩)
    · exact has_foldl_inferFor [fresh] h
    · exact has_inferFor hrule hsource

/-- What a pass over some names finds, whatever rules are known before it. -/
theorem has_foldl_inferFor_iff (known : RuleSet) (names : List Text) :
    (names.foldl (inferFor g.suffixPairs) known).has name ↔ g.MadeInOrder known names name := by
  induction names generalizing known with
  | nil =>
    constructor
    · intro h
      exact ⟨name, [], h, .singleton name, .slnil, rfl⟩
    · rintro ⟨start, made, hstart, -, hmade, hlast⟩
      obtain rfl := List.sublist_nil.mp hmade
      obtain rfl : start = name := by simpa using hlast
      exact hstart
  | cons fresh names ih =>
    rw [List.foldl_cons, ih]
    constructor
    · rintro ⟨start, made, hstart, hchain, hmade, hlast⟩
      rcases has_inferFor_iff.mp hstart with hknown | ⟨rfl, source, hmakes, hsource⟩
      · exact ⟨start, made, hknown, hchain, hmade.cons fresh, hlast⟩
      · -- The chain began at the name that was added, and now begins one step before it.
        refine ⟨source, start :: made, hsource, hchain.cons_cons hmakes, hmade.cons_cons start, ?_⟩
        rwa [List.getLast?_cons_cons]
    · rintro ⟨start, made, hstart, hchain, hmade, hlast⟩
      cases hmade with
      | cons _ hmade =>
        exact ⟨start, made, has_inferFor_iff.mpr (.inl hstart), hchain, hmade, hlast⟩
      | cons_cons _ hmade =>
        obtain ⟨hmakes, hrest⟩ := List.isChain_cons_cons.mp hchain
        have hfresh := has_inferFor_iff.mpr (.inr ⟨rfl, start, hmakes, hstart⟩)
        refine ⟨fresh, _, hfresh, hrest, hmade, ?_⟩
        rwa [List.getLast?_cons_cons] at hlast

/-! ## Fixed points -/

/-- There is nothing to infer exactly if no source without a rule can be made from a name that has
one. -/
theorem infer_eq_self_iff :
    g.infer = g ↔
      ∀ name ∈ g.listing, ∀ source, g.Makes source name → g.has source → g.has name := by
  constructor
  · rintro h name hname source ⟨pattern, hrule⟩ hsource
    exact h ▸ has_infer_of_suffixRuleFor hname hrule hsource
  · intro h
    refine infer_induction (P := fun grown ↦ grown = g) rfl ?_
    rintro _ name source rfl hname hnone hcandidate
    have hhas := h name hname source (suffixRuleFor_of_candidate? hcandidate)
      (has_of_candidate? hcandidate)
    rw [hnone] at hhas
    cases hhas

/-- What suffix rules can make from the targets of `g` in any number of steps and in any order.  A
suffix rule counts too if it is itself made. -/
inductive Makeable (g : RuleSet) : Text → Prop
  | given {name : Text} (h : g.has name) : Makeable g name
  | made {name pattern : Text} {pair : SuffixPair} (hname : name ∈ g.listing)
      (hpattern : Makeable g pattern) (hphony : pattern ≠ phonyTarget)
      (hpair : SuffixPair.ofName? pattern = some pair)
      (htarget : pair.target = FileName.suffix name)
      (hsource : Makeable g (FileName.base name ++ pair.source)) : Makeable g name

theorem makeable_of_has_infer : g.infer.has name → g.Makeable name := by
  refine infer_induction (P := fun grown ↦ ∀ name, grown.has name → g.Makeable name)
    (fun _ ↦ .given) ?_ name
  intro grown fresh source hgrown hfresh _ hcandidate name hname
  rcases has_put.mp hname with rfl | hname
  · obtain ⟨pattern, hrule⟩ := suffixRuleFor_of_candidate? hcandidate
    obtain ⟨pair, hpair, htarget, rfl⟩ := hrule.fits
    exact .made hfresh (.given hrule.hasRule) hrule.ne_phony hpair htarget
      (hgrown _ (has_of_candidate? hcandidate))
  · exact hgrown name hname

/-- The sources of added rules have rules, so a source without one is listed by a given rule. -/
theorem mem_listing_infer (hname : name ∈ g.infer.listing) :
    name ∈ g.listing ∨ g.infer.has name := by
  obtain ⟨user, huser, hused⟩ := List.mem_flatMap.mp hname
  rcases mem_rules_infer huser with hgiven | ⟨target, source, rfl, -, -, -, hhas⟩
  · exact .inl (List.mem_flatMap.mpr ⟨user, hgiven, hused⟩)
  · obtain rfl : name = source := by simpa using hused
    exact .inr hhas

theorem infer_infer_eq_iff :
    g.infer.infer = g.infer ↔ ∀ name, g.Makeable name → g.infer.has name := by
  rw [infer_eq_self_iff]
  constructor
  · intro h name hname
    induction hname with
    | given hhas =>
      obtain ⟨r, hfind⟩ := has_iff_exists_find?.mp hhas
      exact has_iff_exists_find?.mpr ⟨r, find?_infer hfind⟩
    | made hname _ hphony hpair htarget _ ihpattern ihsource =>
      obtain ⟨user, huser, hused⟩ := List.mem_flatMap.mp hname
      exact h _ (List.mem_flatMap.mpr ⟨user, mem_rules_infer_of_mem huser, hused⟩) _
        ⟨_, ihpattern, hphony, _, hpair, htarget, rfl⟩ ihsource
  · rintro h name hname source ⟨pattern, hpattern, hphony, pair, hpair, htarget, rfl⟩ hsource
    rcases mem_listing_infer hname with hlisted | hhas
    · exact h name (.made hlisted (makeable_of_has_infer hpattern) hphony hpair htarget
        (makeable_of_has_infer hsource))
    · exact hhas

/-- A pass gives rules to the names that are made in the order of the listing.  So inference has
nothing to add to its own result exactly if it leaves no source without a rule that a suffix rule
makes from a name with one, and this is so exactly if whatever can be made at all is made in
order. -/
theorem infer_fixed_iff_made_in_order (g : RuleSet) :
    (∀ name, g.infer.has name ↔ g.MadeInOrder g g.listing name) ∧
      (g.infer.infer = g.infer ↔ ∀ user ∈ g.infer.rules, ∀ name ∈ user.sources,
        ∀ pattern source, g.infer.SuffixRuleFor pattern name source → g.infer.has source →
          g.infer.has name) ∧
      (g.infer.infer = g.infer ↔ ∀ name, g.Makeable name → g.MadeInOrder g g.listing name) := by
  have hpass (name : Text) : g.infer.has name ↔ g.MadeInOrder g g.listing name :=
    has_foldl_inferFor_iff g g.listing
  refine ⟨hpass, ?_, ?_⟩
  · rw [infer_eq_self_iff]
    constructor
    · intro h user huser name hname pattern source hrule
      exact h name (List.mem_flatMap.mpr ⟨user, huser, hname⟩) source ⟨pattern, hrule⟩
    · rintro h name hname source ⟨pattern, hrule⟩
      obtain ⟨user, huser, hused⟩ := List.mem_flatMap.mp hname
      exact h user huser name hused pattern source hrule
  · rw [infer_infer_eq_iff]
    exact forall_congr' fun name ↦ imp_congr_right fun _ ↦ hpass name

/-- Two suffix rules, of which the second goes on from what the first makes.  What it makes is
listed first. -/
def lateRules : RuleSet :=
  [⟨"all".toList, ["prog.exe".toList, "prog.obj".toList], []⟩,
    ⟨".c.obj".toList, [], [⟨"cl $<".toList, false⟩]⟩,
    ⟨".obj.exe".toList, [], [⟨"link $< /out:$@".toList, false⟩]⟩,
    ⟨"prog.c".toList, [], []⟩].foldl insert empty

/-- Inference has more to add to its own result: a source is left without a rule although a suffix
rule makes it from a name that has one by then. -/
theorem infer_not_fixed_lateRules :
    lateRules.infer.infer ≠ lateRules.infer ∧
      lateRules.infer.has "prog.exe".toList = false ∧
      lateRules.infer.SuffixRuleFor ".obj.exe".toList "prog.exe".toList "prog.obj".toList ∧
      lateRules.infer.has "prog.obj".toList ∧
      lateRules.infer.infer.find? "prog.exe".toList =
        some ⟨"prog.exe".toList, ["prog.obj".toList], []⟩ := by
  have hrule : lateRules.infer.SuffixRuleFor ".obj.exe".toList "prog.exe".toList
      "prog.obj".toList :=
    ⟨by decide +kernel, by decide +kernel, ⟨".obj".toList, ".exe".toList⟩, by decide +kernel,
      by decide +kernel, by decide +kernel⟩
  exact ⟨by decide +kernel, by decide +kernel, hrule, by decide +kernel, by decide +kernel⟩

end BuildScript.RuleSet
