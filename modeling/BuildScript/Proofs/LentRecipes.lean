import BuildScript.Proofs.InferredRules

/-!
# Recipes that are lent

A rule without a recipe takes the one of the rule whose name is the suffix of its first source
followed by the suffix of its target.  Where the source has a suffix, a name divides into the two in
one way only, so a suffix rule is never taken for another pair than the one that it states.  It is
then the rule that inference has for this pair as well.
-/

namespace BuildScript

namespace SuffixPair

/-- Texts without dots are followed by texts that are empty or begin with a dot in one way only. -/
theorem append_inj_of_dots {first second front back : Text} (hfirst : '.' ∉ first)
    (hfront : '.' ∉ front) (hsecond : ∀ c ∈ second.head?, c = '.')
    (hback : ∀ c ∈ back.head?, c = '.') (h : first ++ second = front ++ back) :
    first = front ∧ second = back := by
  rcases List.append_eq_append_iff.mp h with ⟨between, rfl, rfl⟩ | ⟨between, rfl, rfl⟩
  · cases between with
    | nil => simp
    | cons c between =>
      obtain rfl : c = '.' := hsecond c rfl
      simp at hfront
  · cases between with
    | nil => simp
    | cons c between =>
      obtain rfl : c = '.' := hback c rfl
      simp at hfirst

theorem head?_eq_dot_of_isPlain {suffix : Text} (h : suffix = [] ∨ IsPlain suffix) :
    ∀ c ∈ suffix.head?, c = '.' := by
  rcases h with rfl | ⟨word, -, rfl⟩ <;> simp

theorem head?_suffix (name : Text) : ∀ c ∈ (FileName.suffix name).head?, c = '.' := by
  rcases FileName.suffix_eq_nil_or name with hnil | ⟨ending, -, hsuffix⟩
  · simp [hnil]
  · simp [hsuffix]

/-- The only pair that the suffixes of two names can state is these suffixes, if the first of them
is there. -/
theorem eq_of_ofName?_append {source target : Text} {pair : SuffixPair}
    (hsource : FileName.suffix source ≠ [])
    (h : ofName? (FileName.suffix source ++ FileName.suffix target) = some pair) :
    pair = ⟨FileName.suffix source, FileName.suffix target⟩ := by
  obtain ⟨hname, ⟨word, hword, hpair⟩, htarget⟩ := ofName?_eq_some_iff.mp h
  obtain ⟨ending, hending, hsuffix⟩ := (FileName.suffix_eq_nil_or source).resolve_left hsource
  rw [hsuffix, hpair, List.cons_append, List.cons_append] at hname
  have hword := FileName.all_isSuffixChar_of_isWord hword
  obtain ⟨rfl, hrest⟩ := append_inj_of_dots (FileName.dot_not_mem hending)
    (FileName.dot_not_mem hword) (head?_suffix target) (head?_eq_dot_of_isPlain htarget)
    (List.cons.inj hname).2
  rw [hsuffix, hrest, ← hpair]

end SuffixPair

namespace RuleSet

variable {g : RuleSet} {r : Rule}

theorem exists_lender (hrecipe : r.recipe = []) (hlent : g.recipeOf r ≠ []) :
    ∃ lender ∈ g.rules, r.suffixKey? = some lender.target ∧ g.recipeOf r = lender.recipe := by
  cases hkey : r.suffixKey?.bind g.find? with
  | none => simp [recipeOf, hrecipe, hkey] at hlent
  | some lender =>
    obtain ⟨key, hname, hfind⟩ := Option.bind_eq_some_iff.mp hkey
    refine ⟨lender, mem_of_find? hfind, ?_, recipeOf_eq hrecipe hname hfind⟩
    rw [hname, target_of_find? hfind]

/-- Inference has a pair exactly if a rule that is named by the two suffixes states it. -/
theorem mem_suffixPairs_iff {lender : Rule} {pair : SuffixPair} (hlender : lender ∈ g.rules)
    (hname : lender.target = pair.source ++ pair.target) :
    pair ∈ g.suffixPairs ↔
      SuffixPair.ofName? lender.target = some pair ∧ lender.target ≠ phonyTarget := by
  rw [mem_suffixPairs]
  constructor
  · rintro ⟨pattern, ⟨-, hphony⟩, hpair⟩
    obtain ⟨rfl, -⟩ := SuffixPair.ofName?_eq_some_iff.mp hpair
    exact hname ▸ ⟨hpair, hphony⟩
  · rintro ⟨hpair, hphony⟩
    have hhas : g.has lender.target := has_iff_exists_find?.mpr ⟨lender, find?_target hlender⟩
    exact ⟨lender.target, ⟨hhas, hphony⟩, hpair⟩

/-- The recipe that a rule borrows is that of another rule, named by the suffixes of the first
source and the target.  If the source has a suffix, then this rule states the pair of these suffixes
or none.  It states none exactly if one of the suffixes is not plain, where that of the target may
also be empty.  And inference has the pair exactly if this rule states it, `.PHONY` apart. -/
theorem lender_states_suffixes (g : RuleSet) (r : Rule) (source : Text) (hrecipe : r.recipe = [])
    (hsource : r.sources.head? = some source) (hlent : g.recipeOf r ≠ []) :
    ∃ lender ∈ g.rules, lender ≠ r ∧ g.recipeOf r = lender.recipe ∧
      lender.target = FileName.suffix source ++ FileName.suffix r.target ∧
      (FileName.suffix source ≠ [] →
        (∀ pair, SuffixPair.ofName? lender.target = some pair →
          pair = ⟨FileName.suffix source, FileName.suffix r.target⟩) ∧
        (SuffixPair.ofName? lender.target = none ↔
          ¬(SuffixPair.IsPlain (FileName.suffix source) ∧ (FileName.suffix r.target = [] ∨
            SuffixPair.IsPlain (FileName.suffix r.target)))) ∧
        (⟨FileName.suffix source, FileName.suffix r.target⟩ ∈ g.suffixPairs ↔
          SuffixPair.ofName? lender.target ≠ none ∧ lender.target ≠ phonyTarget)) := by
  obtain ⟨lender, hlender, hkey, hrecipes⟩ := exists_lender hrecipe hlent
  have hname : lender.target = FileName.suffix source ++ FileName.suffix r.target := by
    rw [Rule.suffixKey?, hsource, Option.map_some, Option.some.injEq] at hkey
    exact hkey.symm
  have hother : lender ≠ r := by
    rintro rfl
    exact hlent (hrecipes.trans hrecipe)
  refine ⟨lender, hlender, hother, hrecipes, hname, fun hsuffix ↦ ?_⟩
  have honly (pair : SuffixPair) (hpair : SuffixPair.ofName? lender.target = some pair) :
      pair = ⟨FileName.suffix source, FileName.suffix r.target⟩ :=
    SuffixPair.eq_of_ofName?_append hsuffix (hname ▸ hpair)
  have hstates : SuffixPair.ofName? lender.target ≠ none ↔ SuffixPair.ofName? lender.target =
      some ⟨FileName.suffix source, FileName.suffix r.target⟩ := by
    constructor
    · intro hsome
      obtain ⟨pair, hpair⟩ := Option.ne_none_iff_exists'.mp hsome
      rw [hpair, honly pair hpair]
    · intro hpair
      simp [hpair]
  refine ⟨honly, ?_, ?_⟩
  · rw [← not_iff_not, not_not, ← ne_eq, hstates, SuffixPair.ofName?_eq_some_iff]
    exact and_iff_right hname
  · rw [hstates, mem_suffixPairs_iff hlender hname]

theorem lender_states_suffixes_chain :
    (chainRules.recipeOf ⟨"prog.obj".toList, ["prog.c".toList, "prog.h".toList], []⟩ ≠ [] ∧
        FileName.suffix "prog.c".toList ≠ []) ∧
      ∃ lender ∈ chainRules.rules, lender.target = ".c.obj".toList ∧
        ∀ pair, SuffixPair.ofName? lender.target = some pair →
          pair = ⟨".c".toList, ".obj".toList⟩ := by
  have hlent : chainRules.recipeOf
      ⟨"prog.obj".toList, ["prog.c".toList, "prog.h".toList], []⟩ ≠ [] := by decide +kernel
  have hsuffix : FileName.suffix "prog.c".toList ≠ [] := by decide +kernel
  obtain ⟨lender, hlender, -, -, hname, hpair⟩ :=
    lender_states_suffixes chainRules _ "prog.c".toList rfl rfl hlent
  refine ⟨⟨hlent, hsuffix⟩, lender, hlender, ?_, fun pair hstates ↦ ?_⟩
  · rw [hname]
    decide +kernel
  · rw [(hpair hsuffix).1 pair hstates]
    decide +kernel

/-- A rule that makes names without a suffix, and one for a suffix that is not plain. -/
def oddRules : RuleSet :=
  [⟨".c".toList, [], [⟨"cl $< /Fe$@".toList, false⟩]⟩,
    ⟨".c++.o".toList, [], [⟨"cc $<".toList, false⟩]⟩].foldl insert empty

/-- Recipes are also lent where the suffixes are not the stated pair: the rule for making a name
without a suffix from a `.c` file is taken for making a `.c` file from a name without a suffix, and
a rule that states no pair is taken for the suffixes that its name is made up of. -/
theorem recipe_lent_to_other_suffixes :
    (oddRules.recipeOf ⟨"prog.c".toList, ["prog".toList], []⟩ = [⟨"cl $< /Fe$@".toList, false⟩] ∧
      Rule.suffixKey? ⟨"prog.c".toList, ["prog".toList], []⟩ = some ".c".toList ∧
      SuffixPair.ofName? ".c".toList = some ⟨".c".toList, []⟩ ∧
      some ⟨".c".toList, []⟩ ≠
        some (SuffixPair.mk (FileName.suffix "prog".toList) (FileName.suffix "prog.c".toList))) ∧
      oddRules.recipeOf ⟨"prog.o".toList, ["prog.c++".toList], []⟩ = [⟨"cc $<".toList, false⟩] ∧
      Rule.suffixKey? ⟨"prog.o".toList, ["prog.c++".toList], []⟩ = some ".c++.o".toList ∧
      SuffixPair.ofName? ".c++.o".toList = none := by
  decide +kernel

end RuleSet

end BuildScript
