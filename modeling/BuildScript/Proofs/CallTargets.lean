import BuildScript.Proofs.BlockText
import BuildScript.Proofs.Dependency
import BuildScript.Proofs.ReadTexts
import BuildScript.Proofs.ScriptLabels

/-!
# Where calls go

The labels in the text of a script are exactly those of its blocks and those that every script has,
and no two are equal.  The lines of a block call sources whose labels are there, and the default
block calls the default goal.  So a call has one place to go to, and none is missing.  This holds
for every rule file, as long as the values that are given from outside hold no line feeds.
-/

namespace BuildScript

open Script (entryLines errorLabel isLabelLine labelled subroutineLabels)
open Text (OneLine)

namespace RuleSet

variable {g : RuleSet}

theorem pairwise_targets (g : RuleSet) : g.targets.Pairwise (· < ·) :=
  List.pairwise_map.mpr g.ascending

theorem skipIfFresh_mem_steps_block {isolated : Bool} {r : Rule} {target : Text}
    {sources : List Text} :
    Step.skipIfFresh target sources ∈ (g.block isolated r).steps ↔
      (g.isPhony r.target = false ∧ r.sources ≠ []) ∧ target = r.target ∧ sources = r.sources := by
  have hcommands : Step.skipIfFresh target sources ∉
      (g.recipeOf r).flatMap (commandSteps isolated r) := by
    simp only [List.mem_flatMap, not_exists, not_and]
    intro c _
    unfold commandSteps
    grind
  have hskip : Step.skipIfFresh target sources ∈ g.skipSteps r ↔
      (g.isPhony r.target = false ∧ r.sources ≠ []) ∧ target = r.target ∧ sources = r.sources := by
    unfold skipSteps
    grind
  simp [block, hcommands, hskip]

/-- A block compares ages exactly for a rule with sources whose target is not phony. -/
theorem exists_skipIfFresh_iff (isolated : Bool) :
    (∃ b ∈ (g.script isolated).blocks, ∃ target sources,
        Step.skipIfFresh target sources ∈ b.steps) ↔
      ∃ r ∈ g.rules, g.isPhony r.target = false ∧ r.sources ≠ [] := by
  constructor
  · rintro ⟨b, hb, target, sources, hmem⟩
    obtain ⟨r, hr, rfl⟩ := List.mem_map.mp hb
    exact ⟨r, hr, (skipIfFresh_mem_steps_block.mp hmem).1⟩
  · rintro ⟨r, hr, hages⟩
    refine ⟨g.block isolated r, List.mem_map_of_mem hr, r.target, r.sources, ?_⟩
    exact skipIfFresh_mem_steps_block.mpr ⟨hages, rfl, rfl⟩

theorem comparesAges_script {isolated : Bool} :
    (g.script isolated).comparesAges ↔
      ∃ r ∈ g.rules, g.isPhony r.target = false ∧ r.sources ≠ [] := by
  have hstep (s : Step) : s.comparesAges ↔ ∃ target sources, s = .skipIfFresh target sources := by
    cases s <;> simp [Step.comparesAges]
  rw [← exists_skipIfFresh_iff isolated]
  simp only [Script.comparesAges, List.any_eq_true, hstep]
  grind

end RuleSet

namespace Script

/-- The labels of blocks are in quotation marks, and the others are not. -/
theorem labelled_not_mem_fixed (name : Text) :
    labelled name ∉ (':' :: errorLabel) :: subroutineLabels := by
  have hunquoted : ∀ label ∈ (':' :: errorLabel) :: subroutineLabels, label[1]? ≠ some '"' := by
    decide
  exact fun hmem ↦ hunquoted _ hmem rfl

theorem nodup_labels {names : List Text} (hnames : names.Nodup) (hnil : [] ∉ names) :
    ([labelled [], ':' :: errorLabel] ++ names.map labelled ++ subroutineLabels).Nodup := by
  have hquoted : (([] :: names).map labelled).Nodup :=
    (List.nodup_cons.mpr ⟨hnil, hnames⟩).map labelled_injective
  have hfixed : ((':' :: errorLabel) :: subroutineLabels).Nodup := by decide
  have hapart : ∀ label ∈ ([] :: names).map labelled,
      ∀ other ∈ (':' :: errorLabel) :: subroutineLabels, label ≠ other := by
    rintro label hlabel other hother rfl
    obtain ⟨name, -, rfl⟩ := List.mem_map.mp hlabel
    exact labelled_not_mem_fixed name hother
  -- The error label stands between the quoted ones, so they are brought together first.
  have hall := List.nodup_append.mpr ⟨hquoted, hfixed, hapart⟩
  exact (List.perm_middle.cons _).nodup_iff.mp hall

end Script

namespace RuleSet

variable {g : RuleSet}

/-- The labels of a script for rules without an empty name, in order. -/
def labels (g : RuleSet) : List Text :=
  [":\"\"".toList, ":errpt".toList] ++
    g.targets.map (fun target ↦ ":\"".toList ++ target ++ "\"".toList) ++
    if ∃ r ∈ g.rules, g.isPhony r.target = false ∧ r.sources ≠ [] then
      [":test".toList, ":test_next".toList, ":stamp".toList]
    else []

theorem filter_isLabelLine_lines_script (g : RuleSet) (isolated : Bool) :
    (g.script isolated).lines.filter isLabelLine = g.labels := by
  have hblocks : (g.script isolated).blocks.map (labelled ·.label) = g.targets.map labelled := by
    simp [script, targets, block]
  rw [Script.filter_isLabelLine_script, hblocks]
  simp only [comparesAges_script]
  rfl

theorem nodup_labels (h : [] ∉ g.targets) : g.labels.Nodup := by
  refine List.Nodup.sublist ?_ (Script.nodup_labels g.nodup_targets h)
  unfold labels
  split
  · exact List.Sublist.refl _
  · exact (List.nil_sublist _).append_left _

/-- The labels in quotation marks are the targets, but for the empty one. -/
theorem labelled_mem_labels_iff {name : Text} (hname : name ≠ []) :
    labelled name ∈ g.labels ↔ g.has name := by
  have htargets : labelled name ∈ g.targets.map labelled ↔ g.has name := by
    rw [List.mem_map_of_injective Script.labelled_injective, has_iff_mem_targets]
  have hfixed := Script.labelled_not_mem_fixed name
  rw [List.mem_cons, not_or] at hfixed
  constructor
  · intro hmem
    rcases List.mem_append.mp hmem with hmem | hmem
    · rcases List.mem_append.mp hmem with hmem | hmem
      · rcases List.mem_pair.mp hmem with heq | heq
        · exact absurd (Script.labelled_injective heq) hname
        · exact absurd heq hfixed.1
      · exact htargets.mp hmem
    · split at hmem
      · exact absurd hmem hfixed.2
      · cases hmem
  · intro hhas
    exact List.mem_append_left _ (List.mem_append_right _ (htargets.mpr hhas))

theorem lines_script (g : RuleSet) (isolated : Bool) :
    (g.script isolated).lines =
      Script.preamble ++ entryLines g.goal ++ Script.errorExit ++
        g.rules.flatMap (g.blockLines isolated) ++
        if ∃ r ∈ g.rules, g.isPhony r.target = false ∧ r.sources ≠ [] then Script.subroutines
        else [] := by
  have hblocks : (g.script isolated).blocks.flatMap Block.lines =
      g.rules.flatMap (g.blockLines isolated) := by
    unfold script
    rw [List.flatMap_map]
    exact List.flatMap_congr fun r _ ↦ lines_block g isolated r
  unfold Script.lines
  rw [hblocks, Script.goalLines_eq]
  simp only [comparesAges_script]
  rfl

end RuleSet

/-- Every call lands on exactly one label.  The text of the script for a rule file consists of the
preamble, the call of the default goal, the error exit, a block for each rule, and the subroutines
if and only if some target that is not phony has sources, so that its block calls the one that
compares it with them.  The lines that start with a colon are the labels of the default block, of
the error exit, of the targets in ascending order and of those subroutines, and they are all
different.  The default goal is among them, and so is a source exactly if it has a rule, that is if
it is called. -/
theorem calls_land_on_labels (overrides : List (Text × Text)) (text : Text) (g : RuleSet)
    (isolated : Bool) (script : Script) (hvalues : ∀ override ∈ overrides, OneLine override.2)
    (hparse : RuleFile.parse (Bindings.ofOverrides overrides) text = .ok g)
    (hcompile : g.compile isolated = .ok script) :
    Text.lines script.render =
        Script.preamble ++ entryLines g.goal ++ Script.errorExit ++
          g.infer.rules.flatMap (g.infer.blockLines isolated) ++
          (if ∃ r ∈ g.infer.rules, g.infer.isPhony r.target = false ∧ r.sources ≠ [] then
            Script.subroutines
          else []) ∧
      (Text.lines script.render).filter isLabelLine = g.infer.labels ∧
      g.infer.targets.Pairwise (· < ·) ∧ g.infer.labels.Nodup ∧
      (∀ goal, g.goal = some goal → ":\"".toList ++ goal ++ "\"".toList ∈ g.infer.labels) ∧
      ∀ r ∈ g.infer.rules, ∀ source ∈ r.sources,
        g.infer.has source ↔ ":\"".toList ++ source ++ "\"".toList ∈ g.infer.labels := by
  obtain ⟨-, rfl⟩ := RuleSet.compile_eq_ok_iff.mp hcompile
  have hb := Bindings.valuesOneLine_ofOverrides hvalues
  have hlines := RuleSet.lines_render_infer (RuleFile.allOneLine_of_parse hb hparse) isolated
  have hnames := RuleSet.forall_names_infer (P := fun name ↦ name ≠ [] ∧ OneLine name)
    fun r hr ↦ RuleFile.names_of_parse hb hparse hr
  have hnil : [] ∉ g.infer.targets := by
    intro hmem
    obtain ⟨r, hr, htarget⟩ := List.mem_map.mp hmem
    exact (hnames r hr).1.1 htarget
  rw [hlines]
  refine ⟨?_, RuleSet.filter_isLabelLine_lines_script _ _, RuleSet.pairwise_targets _,
    RuleSet.nodup_labels hnil, ?_, ?_⟩
  · rw [RuleSet.lines_script, RuleSet.goal_infer]
  · intro goal hgoal
    have hhas : g.infer.has goal := RuleSet.has_goal ((RuleSet.goal_infer g).trans hgoal)
    have hne : goal ≠ [] := fun heq ↦ hnil (heq ▸ RuleSet.has_iff_mem_targets.mp hhas)
    exact (RuleSet.labelled_mem_labels_iff hne).mpr hhas
  · intro r hr source hsource
    have hne : source ≠ [] := ((hnames r hr).2 source hsource).1
    exact (RuleSet.labelled_mem_labels_iff hne).symm

/-- A rule file with a reference to an override, a phony target and a suffix rule. -/
def sampleFile : Text :=
  ".PHONY: all\nall: $(NAME).obj # first\n\techo $@\n.c.obj:\n\tcl $<\nprog.c:\n".toList

def sampleOverrides : List (Text × Text) := [("NAME".toList, "prog".toList)]

def sampleRules : RuleSet :=
  [⟨".PHONY".toList, ["all".toList], []⟩,
    ⟨"all".toList, ["prog.obj".toList], [⟨"echo $@".toList, false⟩]⟩,
    ⟨".c.obj".toList, [], [⟨"cl $<".toList, false⟩]⟩,
    ⟨"prog.c".toList, [], []⟩].foldl RuleSet.insert .empty

theorem calls_land_on_labels_sample :
    (∀ override ∈ sampleOverrides, OneLine override.2) ∧
      RuleFile.parse (Bindings.ofOverrides sampleOverrides) sampleFile = .ok sampleRules ∧
      sampleRules.compile false = .ok (sampleRules.infer.script false) ∧
      Text.lines (sampleRules.infer.script false).render =
        Script.preamble ++
          ["  @call :\"all\"", "  @exit /b %ERRORLEVEL%",
            ":errpt", "  @echo ERROR %ERRORLEVEL%", "  @exit /b %ERRORLEVEL%",
            "", ":\".PHONY\"", "  @call :\"all\" || @exit /b", "  @exit /b 0",
            "", ":\".c.obj\"",
            "  @if exist \".c.obj\" (@echo '%~f0': '.c.obj' is up to date.& @exit /b 0)",
            "  cl $< || goto errpt", "  @exit /b 0",
            "", ":\"all\"", "  @call :\"prog.obj\" || @exit /b", "  echo all || goto errpt",
            "  @exit /b 0",
            "", ":\"prog.c\"",
            "  @if exist \"prog.c\" (@echo '%~f0': 'prog.c' is up to date.& @exit /b 0)",
            "  @exit /b 0",
            "", ":\"prog.obj\"", "  @call :\"prog.c\" || @exit /b",
            "  @call :test \"prog.obj\" \"prog.c\" && " ++
              "(@echo '%~f0': 'prog.obj' is up to date.& @exit /b 0)",
            "  cl prog.c || goto errpt", "  @exit /b 0"].map String.toList ++
          Script.subroutines ∧
      (Text.lines (sampleRules.infer.script false).render).filter isLabelLine =
        [":\"\"", ":errpt", ":\".PHONY\"", ":\".c.obj\"", ":\"all\"", ":\"prog.c\"",
          ":\"prog.obj\"", ":test", ":test_next", ":stamp"].map String.toList := by
  have hvalues : ∀ override ∈ sampleOverrides, OneLine override.2 := by decide
  have hparse : RuleFile.parse (Bindings.ofOverrides sampleOverrides) sampleFile =
      .ok sampleRules := by
    decide +kernel
  have hcompile : sampleRules.compile false = .ok (sampleRules.infer.script false) := by
    decide +kernel
  obtain ⟨hlines, hlabels, -⟩ := calls_land_on_labels sampleOverrides sampleFile sampleRules false _
    hvalues hparse hcompile
  exact ⟨hvalues, hparse, hcompile, hlines.trans (by decide +kernel),
    hlabels.trans (by decide +kernel)⟩

end BuildScript
