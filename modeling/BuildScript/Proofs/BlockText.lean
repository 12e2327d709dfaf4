import BuildScript.Script.OfRules

/-!
# The text of a block

The lines of a block, written out.  After its label, a block calls the blocks of the sources that
have one, leaves if its target is up to date, and runs the commands with the names of its rule put
in.
-/

namespace BuildScript

namespace Script

/-- The line that calls the block of a source, and passes its failure on. -/
def callLine (source : Text) : Text :=
  "  @call :\"".toList ++ source ++ "\" || @exit /b".toList

/-- The line that leaves the block of a target without sources if there is a file for it. -/
def presentLine (target : Text) : Text :=
  "  @if exist \"".toList ++ target ++ "\" (@echo '%~f0': '".toList ++ target ++
    "' is up to date.& @exit /b 0)".toList

/-- The line that leaves the block of a target if its file is as new as those of its sources. -/
def testLine (target : Text) (sources : List Text) : Text :=
  "  @call :test".toList ++
    (target :: sources).flatMap (fun name ↦ " \"".toList ++ name ++ "\"".toList) ++
    " && (@echo '%~f0': '".toList ++ target ++ "' is up to date.& @exit /b 0)".toList

/-- The lines that run a command, in a scope of its own if that is asked for.  Unless the command is
tolerant, its failure leads to the error exit. -/
def commandLines (isolated tolerant : Bool) (command : Text) : List Text :=
  let line := "  ".toList ++ command ++ if tolerant then [] else " || goto errpt".toList
  if isolated then ["  @setlocal".toList, line, "  @endlocal".toList] else [line]

/-- The lines after the label of the default block. -/
def entryLines : Option Text → List Text
  | none => ["  @exit /b 0".toList]
  | some goal =>
    ["  @call :\"".toList ++ goal ++ "\"".toList, "  @exit /b %ERRORLEVEL%".toList]

theorem goalLines_eq (goal : Option Text) : goalLines goal = entryLines goal := by
  cases goal with
  | none => rfl
  | some goal => simp [goalLines, entryLines, labelled, quoted]

theorem labelled_eq (name : Text) : labelled name = ":\"".toList ++ name ++ "\"".toList := rfl

theorem line_call (source : Text) : (Step.call source).line = callLine source := by
  have hlead : "  @call :\"".toList = "  ".toList ++ "@call ".toList ++ ":\"".toList := by
    decide +kernel
  have htail : "\" || @exit /b".toList = "\"".toList ++ " || @exit /b".toList := by
    decide +kernel
  unfold callLine
  rw [hlead, htail]
  change "  ".toList ++ (Step.call source).body = _
  rw [Step.body_call, labelled_eq]
  simp only [List.append_assoc]

theorem line_skipIfPresent (target : Text) :
    (Step.skipIfPresent target).line = presentLine target := by
  have hlead : "  @if exist \"".toList = "  ".toList ++ "@if exist ".toList ++ "\"".toList := by
    decide +kernel
  have hmiddle : "\" (@echo '%~f0': '".toList = "\" ".toList ++ "(@echo '%~f0': '".toList := by
    decide +kernel
  unfold presentLine
  rw [hlead, hmiddle]
  change "  ".toList ++ (Step.skipIfPresent target).body = _
  rw [Step.body_skipIfPresent]
  unfold quoted upToDate
  simp only [List.append_assoc]
  rfl

theorem line_skipIfFresh (target : Text) (sources : List Text) :
    (Step.skipIfFresh target sources).line = testLine target sources := by
  have hlead : "  @call :test".toList = "  ".toList ++ "@call :".toList ++ testLabel := by
    decide +kernel
  have hmiddle : " && (@echo '%~f0': '".toList = " && ".toList ++ "(@echo '%~f0': '".toList := by
    decide +kernel
  unfold testLine
  rw [hlead, hmiddle]
  change "  ".toList ++ (Step.skipIfFresh target sources).body = _
  rw [Step.body_skipIfFresh]
  unfold upToDate
  simp only [List.append_assoc]
  rfl

end Script

namespace RuleSet

open Script

/-- The lines that leave the block of a rule whose target is up to date. -/
def freshnessLines (g : RuleSet) (r : Rule) : List Text :=
  if g.isPhony r.target then []
  else if r.sources = [] then [presentLine r.target]
  else [testLine r.target r.sources]

theorem map_line_skipSteps (g : RuleSet) (r : Rule) :
    (g.skipSteps r).map Step.line = g.freshnessLines r := by
  unfold skipSteps freshnessLines
  simp only [List.isEmpty_iff]
  split
  · rfl
  · split
    · rw [List.map_singleton, line_skipIfPresent]
    · rw [List.map_singleton, line_skipIfFresh]

theorem map_line_commandSteps (isolated : Bool) (r : Rule) (c : Command) :
    (commandSteps isolated r c).map Step.line =
      commandLines isolated c.tolerant (r.substitute c.text) := by
  have hline : (if c.tolerant then Step.attempt (r.substitute c.text)
      else Step.run (r.substitute c.text)).line =
        "  ".toList ++ r.substitute c.text ++
          if c.tolerant then [] else " || goto errpt".toList := by
    cases c.tolerant <;> simp [Step.line, errorLabel]
  unfold commandSteps commandLines
  cases isolated with
  | false => exact congrArg ([·]) hline
  | true => exact congrArg (["  @setlocal".toList, ·, "  @endlocal".toList]) hline

/-- The lines after the label of a block. -/
theorem map_line_steps_block (g : RuleSet) (isolated : Bool) (r : Rule) :
    (g.block isolated r).steps.map Step.line =
      (r.sources.filter g.has).map callLine ++ g.freshnessLines r ++
        (g.recipeOf r).flatMap (fun c ↦ commandLines isolated c.tolerant (r.substitute c.text)) ++
        ["  @exit /b 0".toList] := by
  have hcalls (names : List Text) : (names.map Step.call).map Step.line = names.map callLine := by
    rw [List.map_map]
    exact List.map_congr_left fun source _ ↦ line_call source
  have hcommands : ((g.recipeOf r).flatMap (commandSteps isolated r)).map Step.line =
      (g.recipeOf r).flatMap
        (fun c ↦ commandLines isolated c.tolerant (r.substitute c.text)) := by
    rw [List.map_flatMap]
    exact congrArg (List.flatMap · _) (funext fun c ↦ map_line_commandSteps isolated r c)
  unfold block
  rw [List.map_append, List.map_append, List.map_append, hcalls, map_line_skipSteps, hcommands]
  rfl

/-- The lines of the block of a rule: its label, the calls of the sources that have a rule, the test
whether there is anything to do, and the commands. -/
def blockLines (g : RuleSet) (isolated : Bool) (r : Rule) : List Text :=
  [[], ":\"".toList ++ r.target ++ "\"".toList] ++ (r.sources.filter g.has).map callLine ++
    g.freshnessLines r ++
    (g.recipeOf r).flatMap (fun c ↦ commandLines isolated c.tolerant (r.substitute c.text)) ++
    ["  @exit /b 0".toList]

theorem lines_block (g : RuleSet) (isolated : Bool) (r : Rule) :
    (g.block isolated r).lines = g.blockLines isolated r := by
  unfold Block.lines blockLines
  rw [map_line_steps_block]
  simp only [List.append_assoc]
  rfl

end RuleSet

end BuildScript
