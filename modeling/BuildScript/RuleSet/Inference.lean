import BuildScript.RuleSet.Basic

/-!
# Suffix rules

A rule whose target states a pair of suffixes says how files with the one suffix are made from
files with the other.  It lends its recipe to rules that have none, and it lets rules be inferred
for sources that no rule makes.
-/

namespace BuildScript.RuleSet

/-- The recipe of a rule: its own, or if that is empty the one of the suffix rule for it. -/
def recipeOf (g : RuleSet) (r : Rule) : List Command :=
  if r.recipe.isEmpty then
    match r.suffixKey?.bind g.find? with
    | some lender => lender.recipe
    | none => r.recipe
  else r.recipe

/-- The pairs of suffixes that the targets state, in the order of the targets. -/
def suffixPairs (g : RuleSet) : List SuffixPair :=
  (g.targets.filter (· != phonyTarget)).filterMap SuffixPair.ofName?

/-- The source that the first fitting pair gives a name, among those for which `g` has a rule. -/
def candidate? (pairs : List SuffixPair) (g : RuleSet) (name : Text) : Option Text :=
  ((pairs.filter (·.target == FileName.suffix name)).map
    fun pair ↦ FileName.base name ++ pair.source).find? g.has

/-- Adds a rule for a name that has none, if a pair of suffixes gives it a source. -/
def inferFor (pairs : List SuffixPair) (g : RuleSet) (name : Text) : RuleSet :=
  if g.has name then g
  else
    match candidate? pairs g name with
    | some source => g.put ⟨name, [source], []⟩
    | none => g

/-- Adds rules for the sources of all rules, one after the other.  A rule that was added serves the
names that come later. -/
def infer (g : RuleSet) : RuleSet :=
  (g.rules.flatMap Rule.sources).foldl (inferFor g.suffixPairs) g

end BuildScript.RuleSet
