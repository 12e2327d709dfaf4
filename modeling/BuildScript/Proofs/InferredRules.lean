import BuildScript.Proofs.BlockText
import BuildScript.Proofs.Dependency
import BuildScript.Proofs.Inference

/-!
# What inference adds

Inference changes no given rule.  It adds a rule only where a suffix rule makes the target from a
name that has a rule, and it adds one wherever a suffix rule makes a source from a name that a given
rule is for.  The suffix rule behind an added rule is found again when its recipe is looked for,
since both suffixes can be read off the two names, so the block of the target runs the commands of
that suffix rule.
-/

namespace BuildScript.RuleSet

variable {g : RuleSet}

/-! ## Given rules -/

theorem mem_rules_infer_of_mem {r : Rule} (h : r ∈ g.rules) : r ∈ g.infer.rules :=
  mem_of_find? (find?_infer (find?_target h))

/-! ## Names that get a rule -/

theorem has_foldl_inferFor {pairs : List SuffixPair} {name : Text} (names : List Text)
    (h : g.has name) : (names.foldl (inferFor pairs) g).has name := by
  refine List.foldlRecOn (motive := fun grown : RuleSet ↦ grown.has name) names _ h ?_
  intro grown hgrown fresh _
  rcases inferFor_cases pairs grown fresh with heq | ⟨source, -, -, heq⟩
  · rwa [heq]
  · rw [heq]
    exact has_put.mpr (.inr hgrown)

theorem isSome_candidate? {grown : RuleSet} {pattern name source : Text}
    (hrule : g.SuffixRuleFor pattern name source) (hsource : grown.has source) :
    (candidate? g.suffixPairs grown name).isSome :=
  List.find?_isSome.mpr ⟨source, mem_candidates.mpr ⟨pattern, hrule⟩, hsource⟩

/-- The step for a name gives it a rule, if the source that a suffix rule makes it from has one by
then. -/
theorem has_inferFor {grown : RuleSet} {pattern name source : Text}
    (hrule : g.SuffixRuleFor pattern name source) (hsource : grown.has source) :
    (inferFor g.suffixPairs grown name).has name := by
  obtain ⟨found, hfound⟩ := Option.isSome_iff_exists.mp (isSome_candidate? hrule hsource)
  unfold inferFor
  split
  · assumption
  · rw [hfound]
    exact has_put.mpr (.inl rfl)

theorem has_infer_of_suffixRuleFor {pattern name source : Text}
    (hname : name ∈ g.rules.flatMap Rule.sources) (hrule : g.SuffixRuleFor pattern name source)
    (hsource : g.has source) : g.infer.has name := by
  obtain ⟨before, after, hsplit⟩ := List.append_of_mem hname
  unfold infer
  rw [hsplit, List.foldl_append, List.foldl_cons]
  -- A rule for the source is still there when the name's turn comes, and no rule is lost later.
  have hstill : (before.foldl (inferFor g.suffixPairs) g).has source :=
    has_foldl_inferFor before hsource
  exact has_foldl_inferFor after (has_inferFor hrule hstill)

/-- Inference keeps the given rules and the default goal.  A rule that it adds makes a source of a
given rule from one other name that has a rule, as a suffix rule says, and has no commands.  Every
source has a rule in the end that some suffix rule makes from the target of a given rule. -/
theorem infer_conservative_justified_complete (g : RuleSet) :
    ((∀ r ∈ g.rules, r ∈ g.infer.rules) ∧ g.infer.goal = g.goal) ∧
      (∀ r ∈ g.infer.rules, r ∉ g.rules → ∃ pattern source,
        (∃ user ∈ g.rules, r.target ∈ user.sources) ∧ r.recipe = [] ∧ r.sources = [source] ∧
        g.SuffixRuleFor pattern r.target source ∧ source ≠ r.target ∧ g.infer.has source) ∧
      ∀ user ∈ g.rules, ∀ name ∈ user.sources, ∀ pattern source,
        g.SuffixRuleFor pattern name source → g.has source → g.infer.has name := by
  refine ⟨⟨fun r ↦ mem_rules_infer_of_mem, goal_infer g⟩, ?_, ?_⟩
  · intro r hr hnew
    rcases mem_rules_infer hr with hgiven | ⟨name, source, rfl, hname, ⟨pattern, hrule⟩, hne, hhas⟩
    · exact absurd hgiven hnew
    · exact ⟨pattern, source, List.mem_flatMap.mp hname, rfl, rfl, hrule, hne, hhas⟩
  · intro user huser name hname pattern source hrule hsource
    have hmem : name ∈ g.rules.flatMap Rule.sources := List.mem_flatMap.mpr ⟨user, huser, hname⟩
    exact has_infer_of_suffixRuleFor hmem hrule hsource

/-- Two suffix rules, of which the second goes on from what the first makes. -/
def chainRules : RuleSet :=
  [⟨"all".toList, ["prog.obj".toList, "prog.exe".toList], []⟩,
    ⟨".c.obj".toList, [], [⟨"cl $<".toList, false⟩]⟩,
    ⟨".obj.exe".toList, [], [⟨"link $< /out:$@".toList, false⟩]⟩,
    ⟨"prog.c".toList, [], []⟩].foldl insert empty

/-- The rule that is inferred from another inferred rule. -/
def chainRule : Rule := ⟨"prog.exe".toList, ["prog.obj".toList], []⟩

theorem infer_conservative_justified_complete_chain :
    (chainRule ∈ chainRules.infer.rules ∧ chainRule ∉ chainRules.rules ∧
      ∃ pattern, chainRules.SuffixRuleFor pattern "prog.exe".toList "prog.obj".toList) ∧
      chainRules.has "prog.obj".toList = false ∧
      chainRules.SuffixRuleFor ".c.obj".toList "prog.obj".toList "prog.c".toList ∧
      chainRules.infer.has "prog.obj".toList := by
  obtain ⟨-, hjustified, hcomplete⟩ := infer_conservative_justified_complete chainRules
  have hmem : chainRule ∈ chainRules.infer.rules := by decide +kernel
  have hnew : chainRule ∉ chainRules.rules := by decide +kernel
  obtain ⟨pattern, source, -, -, hsource, hrule, -⟩ := hjustified chainRule hmem hnew
  obtain rfl : "prog.obj".toList = source := (List.cons.inj hsource).1
  have hobject : chainRules.SuffixRuleFor ".c.obj".toList "prog.obj".toList "prog.c".toList :=
    ⟨by decide +kernel, by decide +kernel, ⟨".c".toList, ".obj".toList⟩, by decide +kernel,
      by decide +kernel, by decide +kernel⟩
  refine ⟨⟨hmem, hnew, pattern, hrule⟩, by decide +kernel, hobject, ?_⟩
  exact hcomplete ⟨"all".toList, ["prog.obj".toList, "prog.exe".toList], []⟩ (by decide +kernel)
    "prog.obj".toList (by decide +kernel) ".c.obj".toList "prog.c".toList hobject
    (by decide +kernel)

/-! ## The suffix rule behind an added rule -/

namespace SuffixRuleFor

variable {pattern name source : Text}

/-- The pair of a suffix rule can be read off the names that it is used for. -/
theorem ofName?_eq (h : g.SuffixRuleFor pattern name source) :
    SuffixPair.ofName? pattern = some ⟨FileName.suffix source, FileName.suffix name⟩ := by
  obtain ⟨pair, hpair, htarget, rfl⟩ := h.fits
  obtain ⟨-, word, hword, hsource⟩ := SuffixPair.append_of_ofName? hpair
  have hsuffix : FileName.suffix (FileName.base name ++ pair.source) = pair.source := by
    rw [hsource]
    exact FileName.suffix_append _ (FileName.all_isSuffixChar_of_isWord hword)
  rw [hpair, hsuffix, ← htarget]

theorem eq_append (h : g.SuffixRuleFor pattern name source) :
    pattern = FileName.suffix source ++ FileName.suffix name :=
  (SuffixPair.append_of_ofName? h.ofName?_eq).1

theorem suffixKey?_eq (h : g.SuffixRuleFor pattern name source) (recipe : List Command) :
    Rule.suffixKey? ⟨name, [source], recipe⟩ = some pattern := by
  rw [h.eq_append]
  rfl

end SuffixRuleFor

theorem recipeOf_eq {r lender : Rule} {key : Text} (hrecipe : r.recipe = [])
    (hkey : r.suffixKey? = some key) (hfind : g.find? key = some lender) :
    g.recipeOf r = lender.recipe := by
  simp [recipeOf, hrecipe, hkey, hfind]

open Script (callLine commandLines testLine)

/-- Puts a target and its only source into the text of a command: the target, its base, the source,
and a single dollar sign for a doubled one. -/
def putNames (target source : Text) : Text → Text
  | [] => []
  | '$' :: '@' :: rest => target ++ putNames target source rest
  | '$' :: '*' :: rest => FileName.base target ++ putNames target source rest
  | '$' :: '<' :: rest => source ++ putNames target source rest
  | '$' :: '^' :: rest => source ++ putNames target source rest
  | '$' :: '$' :: rest => '$' :: putNames target source rest
  | c :: rest => c :: putNames target source rest

theorem substitute_eq_putNames (target source text : Text) :
    Rule.substitute ⟨target, [source], []⟩ text = putNames target source text := by
  fun_induction putNames target source text with
  | case1 => rfl
  | case2 rest ih => rw [Rule.substitute_automatic rest rfl, ih]
  | case3 rest ih => rw [Rule.substitute_automatic rest rfl, ih]
  | case4 rest ih => rw [Rule.substitute_automatic rest rfl, ih]
  | case5 rest ih =>
    rw [Rule.substitute_automatic rest rfl, ih, List.intercalate_singleton]
  | case6 rest ih => rw [Rule.substitute_automatic rest rfl, ih]; rfl
  | case7 c rest htarget hbase hfirst hall hdollar ih =>
    by_cases hc : c = '$'
    · subst hc
      cases rest with
      | nil => rfl
      | cons mark rest =>
        have hnone : Rule.automatic? ⟨target, [source], []⟩ mark = none := by
          unfold Rule.automatic?
          split <;> simp_all
        rw [Rule.substitute_lone rest hnone, ih]
    · rw [Rule.substitute_cons_of_ne rest hc, ih]

/-- The script has exactly one block for a rule. -/
theorem mem_blocks_script_iff {isolated : Bool} {r : Rule} (hr : r ∈ g.rules) {b : Block} :
    b ∈ (g.script isolated).blocks ∧ b.label = r.target ↔ b = g.block isolated r := by
  constructor
  · rintro ⟨hb, hlabel⟩
    obtain ⟨s, hs, rfl⟩ := List.mem_map.mp hb
    have hsr : s = r := List.inj_on_of_nodup_map g.nodup_targets hs hr hlabel
    rw [hsr]
  · rintro rfl
    exact ⟨List.mem_map_of_mem hr, rfl⟩

/-- The lines of a block stand in the text one after the other. -/
theorem infix_render {b : Block} {script : Script} (hb : b ∈ script.blocks) :
    b.lines.flatMap (· ++ ['\n']) <:+: script.render := by
  obtain ⟨before, after, hsplit⟩ := List.append_of_mem hb
  unfold Script.render Script.lines
  rw [hsplit]
  simp only [List.flatMap_append, List.flatMap_cons]
  refine List.IsInfix.trans ?_ (List.prefix_append _ _).isInfix
  refine List.IsInfix.trans ?_ (List.suffix_append _ _).isInfix
  refine List.IsInfix.trans ?_ (List.suffix_append _ _).isInfix
  exact (List.prefix_append _ _).isInfix

/-- An added rule uses the suffix rule that justified it: the name that is looked up for it is that
of a given suffix rule for its two suffixes, its recipe is the one of this rule, and its block runs
these commands with its target and its source put in. -/
theorem inferred_rule_uses_suffix_rule (g : RuleSet) (r : Rule) (hr : r ∈ g.infer.rules)
    (hnew : r ∉ g.rules) :
    ∃ source, r.sources = [source] ∧ ∃ lender ∈ g.rules,
      r.suffixKey? = some lender.target ∧ lender.target ≠ phonyTarget ∧
      SuffixPair.ofName? lender.target =
        some ⟨FileName.suffix source, FileName.suffix r.target⟩ ∧
      g.infer.recipeOf r = lender.recipe ∧
      ∀ isolated script, g.compile isolated = .ok script →
        ∃ b, (∀ other, other ∈ script.blocks ∧ other.label = r.target ↔ other = b) ∧
          b.lines = [[], ":\"".toList ++ r.target ++ "\"".toList, callLine source] ++
            (if g.infer.isPhony r.target then [] else [testLine r.target [source]]) ++
            lender.recipe.flatMap (fun c ↦
              commandLines isolated c.tolerant (putNames r.target source c.text)) ++
            ["  @exit /b 0".toList] ∧
          b.lines.flatMap (· ++ ['\n']) <:+: script.render := by
  rcases mem_rules_infer hr with hgiven | ⟨name, source, rfl, -, ⟨pattern, hrule⟩, -, hhas⟩
  · exact absurd hgiven hnew
  obtain ⟨lender, hlender⟩ := has_iff_exists_find?.mp hrule.hasRule
  obtain rfl : lender.target = pattern := target_of_find? hlender
  have hkey := hrule.suffixKey?_eq []
  have hrecipe : g.infer.recipeOf ⟨name, [source], []⟩ = lender.recipe :=
    recipeOf_eq rfl hkey (find?_infer hlender)
  refine ⟨source, rfl, lender, mem_of_find? hlender, hkey, hrule.ne_phony, hrule.ofName?_eq,
    hrecipe, ?_⟩
  intro isolated script hcompile
  obtain ⟨-, rfl⟩ := compile_eq_ok_iff.mp hcompile
  refine ⟨g.infer.block isolated ⟨name, [source], []⟩, fun other ↦ mem_blocks_script_iff hr, ?_, ?_⟩
  · have hcalled : [source].filter g.infer.has = [source] := by simp [hhas]
    have hfresh : g.infer.freshnessLines ⟨name, [source], []⟩ =
        if g.infer.isPhony name then [] else [testLine name [source]] := by
      simp [freshnessLines]
    unfold Block.lines
    simp only [map_line_steps_block, hrecipe, hcalled, hfresh, substitute_eq_putNames]
    rfl
  · exact infix_render ((mem_blocks_script_iff hr).mpr rfl).1

theorem inferred_rule_uses_suffix_rule_chain :
    chainRule ∈ chainRules.infer.rules ∧ chainRule ∉ chainRules.rules ∧
      chainRules.compile true = .ok (chainRules.infer.script true) ∧
      ∃ lender ∈ chainRules.rules, lender.target = ".obj.exe".toList ∧
        chainRules.infer.recipeOf chainRule = lender.recipe ∧
        (["", ":\"prog.exe\"", "  @call :\"prog.obj\" || @exit /b",
            "  @call :test \"prog.exe\" \"prog.obj\" && (@echo '%~f0': 'prog.exe' is up to " ++
              "date.& @exit /b 0)",
            "  @setlocal", "  link prog.obj /out:prog.exe || goto errpt", "  @endlocal",
            "  @exit /b 0"].map String.toList).flatMap (· ++ ['\n']) <:+:
          (chainRules.infer.script true).render := by
  have hmem : chainRule ∈ chainRules.infer.rules := by decide +kernel
  have hnew : chainRule ∉ chainRules.rules := by decide +kernel
  have hcompile : chainRules.compile true = .ok (chainRules.infer.script true) := by
    decide +kernel
  obtain ⟨source, hsource, lender, hlender, hkey, -, -, hrecipe, hblock⟩ :=
    inferred_rule_uses_suffix_rule chainRules chainRule hmem hnew
  obtain rfl : "prog.obj".toList = source := (List.cons.inj hsource).1
  have hname : lender.target = ".obj.exe".toList :=
    Option.some.inj (hkey.symm.trans (by decide +kernel))
  have hfind : chainRules.find? ".obj.exe".toList =
      some ⟨".obj.exe".toList, [], [⟨"link $< /out:$@".toList, false⟩]⟩ := by
    decide +kernel
  refine ⟨hmem, hnew, hcompile, lender, hlender, hname, hrecipe, ?_⟩
  obtain ⟨b, -, hlines, htext⟩ := hblock true _ hcompile
  -- The lender is the one rule for its name, and with its recipe the lines can be written down.
  obtain rfl := Option.some.inj (hfind.symm.trans (hname ▸ find?_target hlender))
  rw [hlines] at htext
  convert htext using 2
  decide +kernel

end BuildScript.RuleSet
