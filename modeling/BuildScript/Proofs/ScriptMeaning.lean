import BuildScript.Proofs.OneLine
import BuildScript.Proofs.ScriptLabels
import BuildScript.Proofs.ScriptReading

/-!
# The meaning of a script

A script does what its rules mean.  Each line of a block is read back as what it was written for,
each label leads to the block of its target, and so running the block of a target runs the same
commands and returns the same status as making the target does.
-/

namespace BuildScript

/-- A command that reads like a line which a script is made of. -/
def Step.IsOwnLine (text : Text) : Prop := ∃ s : Step, (∀ c, s ≠ attempt c) ∧ s.body = text

theorem Text.append_ne_append_of_getLast? {first last other tail : Text}
    (hends : last.getLast? ≠ tail.getLast?) (hlast : last ≠ []) (htail : tail ≠ []) :
    first ++ last ≠ other ++ tail := by
  intro heq
  have h := congrArg List.getLast? heq
  rw [List.getLast?_append_of_ne_nil _ hlast, List.getLast?_append_of_ne_nil _ htail] at h
  exact hends h

theorem Step.IsOwnLine.head?_or_getLast? {text : Text} (h : IsOwnLine text) :
    text.head? = some '@' ∨ text.getLast? = some 't' := by
  obtain ⟨s, hs, rfl⟩ := h
  cases s with
  | call | skipIfPresent | skipIfFresh => exact .inl rfl
  | enterScope | leaveScope | succeed => exact .inl rfl
  | run command =>
    right
    rw [body_run, List.append_assoc, List.getLast?_append_of_ne_nil _ (by decide)]
    rfl
  | attempt command => exact absurd rfl (hs command)

/-! ## Reading lines back -/

namespace Instruction

open Text (before? between? before?_eq_some_iff between?_eq_some_iff)

variable {target : Text}

theorem ofLine?_line (h : target ≠ []) (s : Step) :
    ofLine? target s.line = some (ofBody target s.body) := by
  have hempty : target.isEmpty = false := by simpa using h
  have hbody : Text.after? "  ".toList s.line = some s.body := Text.after?_eq_some_iff.mpr rfl
  rw [ofLine?, hbody, Option.map_some, hempty]
  rfl

/-- The names of sources, each in quotation marks, start and end with one. -/
theorem exists_flatMap_quoted {sources : List Text} (h : sources ≠ []) :
    ∃ middle, sources.flatMap (fun name ↦ ' ' :: Script.quoted name) =
      " \"".toList ++ (middle ++ "\"".toList) := by
  induction sources with
  | nil => exact absurd rfl h
  | cons source rest ih =>
    by_cases hrest : rest = []
    · subst hrest
      exact ⟨source, by simp [Script.quoted]⟩
    · obtain ⟨middle, hmiddle⟩ := ih hrest
      refine ⟨source ++ "\" \"".toList ++ middle, ?_⟩
      rw [List.flatMap_cons, hmiddle]
      simp [Script.quoted]

/-- The lines that ask whether a target is up to date are those that are written for this. -/
theorem isFreshnessTest_iff {body : Text} :
    isFreshnessTest target body ↔
      body = (Step.skipIfPresent target).body ∨
        ∃ sources, sources ≠ [] ∧ body = (Step.skipIfFresh target sources).body := by
  have hpresent : (Step.skipIfPresent target).body =
      "@if exist \"".toList ++ target ++ "\" ".toList ++ Script.upToDate target := by
    simp [Script.quoted]
  have hfresh : (∃ sources, sources ≠ [] ∧ body = (Step.skipIfFresh target sources).body) ↔
      ∃ middle, body = ("@call :test \"".toList ++ target ++ "\" \"".toList) ++
        (middle ++ ("\" && ".toList ++ Script.upToDate target)) := by
    constructor
    · rintro ⟨sources, hsources, rfl⟩
      obtain ⟨middle, hmiddle⟩ := exists_flatMap_quoted hsources
      refine ⟨middle, ?_⟩
      rw [Step.body_skipIfFresh, List.flatMap_cons, hmiddle]
      simp [Script.quoted, Script.testLabel]
    · rintro ⟨middle, rfl⟩
      refine ⟨[middle], by simp, ?_⟩
      simp [Script.quoted, Script.testLabel]
  unfold isFreshnessTest
  rw [Bool.or_eq_true, beq_iff_eq, Option.isSome_iff_exists, hpresent, hfresh]
  simp only [between?_eq_some_iff]

theorem ofBody_call (callee : Text) : ofBody target (Step.call callee).body = call callee := by
  have hbetween : between? "@call :\"".toList "\" || @exit /b".toList (Step.call callee).body =
      some callee := by
    rw [between?_eq_some_iff]
    simp [Script.labelled, Script.quoted]
  rw [ofBody, if_neg (by simp), if_neg (by simp), hbetween]

/-- A line that asks for a target is neither of the fixed lines nor a call. -/
theorem ofBody_of_isFreshnessTest {body : Text} (h : isFreshnessTest target body) :
    ofBody target body = skip := by
  have hbetween : between? "@call :\"".toList "\" || @exit /b".toList body = none := by
    rw [Option.eq_none_iff_forall_ne_some]
    intro callee
    rw [Ne, between?_eq_some_iff]
    rcases isFreshnessTest_iff.mp h with rfl | ⟨sources, -, rfl⟩ <;> simp [Script.testLabel]
  have hscope : ¬(body = "@setlocal".toList ∨ body = "@endlocal".toList) := by
    rcases isFreshnessTest_iff.mp h with rfl | ⟨sources, -, rfl⟩ <;> simp
  have hexit : body ≠ "@exit /b 0".toList := by
    rcases isFreshnessTest_iff.mp h with rfl | ⟨sources, -, rfl⟩ <;> simp
  rw [ofBody, if_neg hscope, if_neg hexit, hbetween]
  exact if_pos h

/-- A guarded command ends like no other line, whatever the command is. -/
theorem ofBody_run (command : Text) : ofBody target (Step.run command).body = run command := by
  have hends (other tail : Text) (h : some 't' ≠ tail.getLast?) (htail : tail ≠ []) :
      (Step.run command).body ≠ other ++ tail := by
    rw [Step.body_run, List.append_assoc]
    exact Text.append_ne_append_of_getLast? h (by decide) htail
  have hscope : ¬((Step.run command).body = "@setlocal".toList ∨
      (Step.run command).body = "@endlocal".toList) :=
    not_or.mpr ⟨hends [] _ (by decide) (by decide), hends [] _ (by decide) (by decide)⟩
  have hexit : (Step.run command).body ≠ "@exit /b 0".toList :=
    hends [] _ (by decide) (by decide)
  have hbetween : between? "@call :\"".toList "\" || @exit /b".toList (Step.run command).body =
      none := by
    rw [Option.eq_none_iff_forall_ne_some]
    intro callee
    rw [Ne, between?_eq_some_iff, ← List.append_assoc]
    exact hends _ _ (by decide) (by decide)
  have hfresh (start : Text) : (Step.run command).body ≠ start ++ Script.upToDate target := by
    change _ ≠ start ++ (_ ++ target ++ "' is up to date.& @exit /b 0)".toList)
    rw [← List.append_assoc]
    exact hends _ _ (by decide) (by decide)
  have htest : ¬isFreshnessTest target (Step.run command).body := by
    rw [isFreshnessTest_iff, not_or]
    constructor
    · rw [Step.body_skipIfPresent, List.append_cons]
      exact hfresh _
    · rintro ⟨sources, -, hbody⟩
      exact hfresh _ hbody
  have hbefore : before? " || goto errpt".toList (Step.run command).body = some command := by
    rw [before?_eq_some_iff]
    simp [Script.errorLabel]
  rw [ofBody, if_neg hscope, if_neg hexit, hbetween]
  simp only [if_neg htest, hbefore]

/-- A command that is not guarded is read as one if it does not look like another line. -/
theorem ofBody_attempt {command : Text} (h : ¬Step.IsOwnLine command) :
    ofBody target command = attempt command := by
  have hother (s : Step) (hs : ∀ c, s ≠ .attempt c) : command ≠ s.body :=
    fun hbody ↦ h ⟨s, hs, hbody.symm⟩
  have hscope : ¬(command = "@setlocal".toList ∨ command = "@endlocal".toList) :=
    not_or.mpr ⟨hother .enterScope (by simp), hother .leaveScope (by simp)⟩
  have hexit : command ≠ "@exit /b 0".toList := hother .succeed (by simp)
  have hbetween : between? "@call :\"".toList "\" || @exit /b".toList command = none := by
    rw [Option.eq_none_iff_forall_ne_some]
    intro callee hcallee
    apply hother (.call callee) (by simp)
    rw [between?_eq_some_iff.mp hcallee]
    simp [Script.labelled, Script.quoted]
  have htest : ¬isFreshnessTest target command := by
    rw [isFreshnessTest_iff, not_or]
    constructor
    · exact hother (.skipIfPresent target) (by simp)
    · rintro ⟨sources, -, hbody⟩
      exact hother (.skipIfFresh target sources) (by simp) hbody
  have hbefore : before? " || goto errpt".toList command = none := by
    rw [Option.eq_none_iff_forall_ne_some]
    intro guarded hguarded
    apply hother (.run guarded) (by simp)
    rw [before?_eq_some_iff.mp hguarded]
    simp [Script.errorLabel]
  rw [ofBody, if_neg hscope, if_neg hexit, hbetween]
  simp only [if_neg htest, hbefore]

/-- The line that calls the default goal. -/
theorem ofLine?_goalLine (goal : Text) :
    ofLine? [] ("  @call ".toList ++ Script.labelled goal) = some (forward goal) := by
  have hbody : Text.after? "  ".toList ("  @call ".toList ++ Script.labelled goal) =
      some ("@call ".toList ++ Script.labelled goal) := Text.after?_eq_some_iff.mpr rfl
  have hexit : "@call ".toList ++ Script.labelled goal ≠ "@exit /b 0".toList := by simp
  have hbetween : between? "@call :\"".toList "\"".toList
      ("@call ".toList ++ Script.labelled goal) = some goal := between?_eq_some_iff.mpr rfl
  rw [ofLine?, hbody, Option.map_some, List.isEmpty_nil, if_pos rfl, ofEntryBody, if_neg hexit,
    hbetween]

end Instruction

/-! ## Finding blocks -/

namespace Script

theorem block?_append_of_not_mem {label : Text} {front : List Text}
    (h : labelled label ∉ front) (rest : List Text) :
    block? label (front ++ rest) = block? label rest := by
  induction front with
  | nil => rfl
  | cons line front ih =>
    rw [List.mem_cons, not_or] at h
    rw [List.cons_append, block?, if_neg (Ne.symm h.1), ih h.2]

/-- A name is marked among some lines only if it is among their labels. -/
theorem labelled_not_mem {label : Text} {texts labels : List Text}
    (hlabels : texts.filter isLabelLine = labels) (h : labelled label ∉ labels) :
    labelled label ∉ texts := by
  intro hmem
  apply h
  rw [← hlabels]
  exact List.mem_filter.mpr ⟨hmem, isLabelLine_labelled label⟩

/-- A label is found in front of the first block that has it. -/
theorem block?_flatMap_lines {label : Text} {blocks : List Block} {b : Block}
    (h : blocks.find? (·.label == label) = some b) (rest : List Text) :
    ∃ after, block? label (blocks.flatMap Block.lines ++ rest) =
      some (b.steps.map Step.line ++ after) := by
  induction blocks with
  | nil => cases h
  | cons first blocks ih =>
    rw [List.flatMap_cons, List.append_assoc]
    by_cases hlabel : first.label = label
    · have hb : first = b := by simpa [hlabel] using h
      subst hb hlabel
      have hblank : [] ≠ labelled first.label := by simp [labelled]
      refine ⟨blocks.flatMap Block.lines ++ rest, ?_⟩
      rw [Block.lines, List.cons_append, block?, if_neg hblank, List.cons_append, block?,
        if_pos rfl]
    · have hnot : labelled label ∉ first.lines := by
        apply labelled_not_mem (filter_isLabelLine_lines first)
        rw [List.mem_singleton]
        exact fun heq ↦ hlabel (labelled_injective heq).symm
      rw [block?_append_of_not_mem hnot]
      apply ih
      simpa [hlabel] using h

end Script

namespace RuleSet

variable {g : RuleSet} {isolated : Bool}

/-- The label of a target leads to the steps of its block. -/
theorem block?_script (isolated : Bool) {target : Text} {r : Rule}
    (hfind : g.find? target = some r) (htarget : target ≠ []) :
    ∃ after, Script.block? target (g.script isolated).lines =
      some ((g.block isolated r).steps.map Step.line ++ after) := by
  have hfront : Script.labelled target ∉
      Script.preamble ++ Script.goalLines g.goal ++ Script.errorExit := by
    apply Script.labelled_not_mem (Script.filter_isLabelLine_front g.goal)
    simp [Script.labelled, Script.quoted, Script.errorLabel, htarget]
  have hblock : (g.script isolated).blocks.find? (·.label == target) =
      some (g.block isolated r) := by
    change (g.rules.map (g.block isolated)).find? _ = _
    rw [List.find?_map]
    exact congrArg (Option.map (g.block isolated)) ((find?_rules g target).trans hfind)
  obtain ⟨after, hafter⟩ := Script.block?_flatMap_lines hblock
    (if (g.script isolated).comparesAges then Script.subroutines else [])
  refine ⟨after, ?_⟩
  rw [Script.lines, List.append_assoc, ← hafter]
  exact Script.block?_append_of_not_mem hfront _

/-- The empty label leads to the lines for the default goal. -/
theorem block?_script_nil (g : RuleSet) (isolated : Bool) :
    ∃ after, Script.block? [] (g.script isolated).lines =
      some (Script.goalLines g.goal ++ after) := by
  have hpreamble : Script.preamble = Script.preamble.dropLast ++ [Script.labelled []] := by decide
  have hnot : Script.labelled [] ∉ Script.preamble.dropLast := by decide
  unfold Script.lines
  rw [hpreamble]
  simp only [List.append_assoc]
  rw [Script.block?_append_of_not_mem hnot, List.singleton_append, Script.block?, if_pos rfl]
  exact ⟨_, rfl⟩

/-- No tolerant command, as it is written into a block, looks like another line of a script. -/
def Unforged (g : RuleSet) : Prop :=
  ∀ r ∈ g.rules, ∀ c ∈ g.commandsOf r, c.tolerant → ¬Step.IsOwnLine c.text

/-! ## Running blocks -/

section Running

variable {lines : List Text} {env : Environment} {target : Text} {rest history : List Text}

theorem ofLine?_of_ofBody {s : Step} {i : Instruction} (htarget : target ≠ [])
    (hbody : Instruction.ofBody target s.body = i) :
    Instruction.ofLine? target s.line = some i := by
  rw [Instruction.ofLine?_line htarget, hbody]

/-- The calls at the start of a block make the sources, given that the block of each source makes
it. -/
theorem executes_calls {hacyclic : g.Acyclic} {names : List Text} {next : List Text → Outcome}
    (htarget : target ≠ [])
    (hcalls : ∀ name ∈ names, ∀ history,
      RunsBlock lines env name history (g.make hacyclic env name history))
    (hrest : ∀ history, Executes lines env target rest history (next history)) :
    Executes lines env target ((names.map Step.call).map Step.line ++ rest) history
      ((g.makeAll hacyclic env names history).andThen next) := by
  induction names generalizing history with
  | nil => exact hrest history
  | cons name names ih =>
    have hline := ofLine?_of_ofBody htarget (Instruction.ofBody_call name)
    have hnames := fun other hother ↦ hcalls other (List.mem_cons_of_mem name hother)
    obtain ⟨body, hblock, hbody⟩ := hcalls name List.mem_cons_self history
    rw [makeAll_cons]
    by_cases hstatus : (g.make hacyclic env name history).status = 0
    · rw [Outcome.eq_success hstatus] at hbody ⊢
      exact .callSucceeds hline hblock hbody (ih hnames)
    · rw [Outcome.andThen_failure hstatus, Outcome.andThen_failure hstatus]
      exact .callFails hline hblock hbody hstatus

theorem executes_skipSteps {r : Rule} {o : Outcome} (htarget : r.target ≠ [])
    (hrest : Executes lines env r.target rest history o) :
    Executes lines env r.target ((g.skipSteps r).map Step.line ++ rest) history
      (if !g.isPhony r.target && env.upToDate history r.target then ⟨history, 0⟩ else o) := by
  -- Both kinds of test are read alike, so it does not matter which of them stands here.
  have htest {s : Step} (hs : Instruction.isFreshnessTest r.target s.body) :
      Executes lines env r.target (s.line :: rest) history
        (if env.upToDate history r.target then ⟨history, 0⟩ else o) := by
    have hline := ofLine?_of_ofBody htarget (Instruction.ofBody_of_isFreshnessTest hs)
    cases hfresh : env.upToDate history r.target with
    | true => exact .skipFresh hline hfresh
    | false => exact .skipStale hline hfresh hrest
  unfold skipSteps
  cases hphony : g.isPhony r.target with
  | true => exact hrest
  | false =>
    cases hsources : r.sources with
    | nil => exact htest (Instruction.isFreshnessTest_iff.mpr (.inl rfl))
    | cons source sources =>
      exact htest (Instruction.isFreshnessTest_iff.mpr
        (.inr ⟨source :: sources, List.cons_ne_nil _ _, rfl⟩))

/-- The steps for one command run it, and go on unless its failure counts. -/
theorem executes_commandSteps {r : Rule} {c : Command} {next : List Text → Outcome}
    (htarget : target ≠ []) (hforged : c.tolerant → ¬Step.IsOwnLine (r.substitute c.text))
    (hrest : ∀ history, Executes lines env target rest history (next history)) :
    Executes lines env target ((commandSteps isolated r c).map Step.line ++ rest) history
      ((env.run (r.instantiate c) history).andThen next) := by
  have hcommand {rest : List Text}
      (hrest : ∀ history, Executes lines env target rest history (next history)) :
      Executes lines env target
        ((if c.tolerant then Step.attempt (r.substitute c.text)
          else Step.run (r.substitute c.text)).line :: rest) history
        ((env.run (r.instantiate c) history).andThen next) := by
    unfold Environment.run Rule.instantiate
    cases htolerant : c.tolerant with
    | true =>
      have hbody : Instruction.ofBody target (Step.attempt (r.substitute c.text)).body = _ :=
        Instruction.ofBody_attempt (hforged htolerant)
      exact .attempt (ofLine?_of_ofBody htarget hbody) (hrest _)
    | false =>
      have hline := ofLine?_of_ofBody htarget (Instruction.ofBody_run (r.substitute c.text))
      by_cases hstatus : env.status history (r.substitute c.text) = 0
      · simp only [hstatus, Bool.false_eq_true, if_false, Outcome.andThen_success]
        exact .runSucceeds hline hstatus (hrest _)
      · rw [Outcome.andThen_failure (by simpa using hstatus)]
        exact .runFails hline hstatus
  unfold commandSteps
  cases isolated with
  | false => exact hcommand hrest
  | true =>
    have henter : Instruction.ofLine? target Step.enterScope.line = some .pass :=
      ofLine?_of_ofBody htarget rfl
    have hleave : Instruction.ofLine? target Step.leaveScope.line = some .pass :=
      ofLine?_of_ofBody htarget rfl
    exact .pass henter (hcommand fun history ↦ .pass hleave (hrest history))

theorem executes_recipe {r : Rule} {commands : List Command} {next : List Text → Outcome}
    (htarget : target ≠ [])
    (hforged : ∀ c ∈ commands, c.tolerant → ¬Step.IsOwnLine (r.substitute c.text))
    (hrest : ∀ history, Executes lines env target rest history (next history)) :
    Executes lines env target
      ((commands.flatMap (commandSteps isolated r)).map Step.line ++ rest) history
      ((env.runAll (commands.map r.instantiate) history).andThen next) := by
  induction commands generalizing history with
  | nil => exact hrest history
  | cons c commands ih =>
    have hmore := fun other hother ↦ hforged other (List.mem_cons_of_mem c hother)
    rw [List.flatMap_cons, List.map_append, List.append_assoc, List.map_cons,
      Environment.runAll, Outcome.andThen_assoc]
    exact executes_commandSteps htarget (hforged c List.mem_cons_self) fun history ↦ ih hmore

/-- The lines of a block make its target, given that the blocks which it calls make theirs. -/
theorem executes_block {hacyclic : g.Acyclic} {r : Rule} (hforged : g.Unforged)
    (hr : r ∈ g.rules) (htarget : r.target ≠ [])
    (hcalls : ∀ name, g.Depends r.target name → ∀ history,
      RunsBlock lines env name history (g.make hacyclic env name history)) :
    Executes lines env r.target ((g.block isolated r).steps.map Step.line ++ rest) history
      (g.make hacyclic env r.target history) := by
  have hfind : g.find? r.target = some r := find?_target hr
  have hlines : (g.block isolated r).steps.map Step.line ++ rest =
      ((r.sources.filter g.has).map Step.call).map Step.line ++ ((g.skipSteps r).map Step.line ++
        (((g.recipeOf r).flatMap (commandSteps isolated r)).map Step.line ++
          Step.succeed.line :: rest)) := by
    simp only [block, List.map_append, List.append_assoc, List.map_singleton,
      List.singleton_append]
  have hsources : ∀ name ∈ r.sources.filter g.has, ∀ history,
      RunsBlock lines env name history (g.make hacyclic env name history) :=
    fun name hname ↦ hcalls name ⟨r, hfind, List.mem_filter.mp hname⟩
  have hrecipe : ∀ c ∈ g.recipeOf r, c.tolerant → ¬Step.IsOwnLine (r.substitute c.text) :=
    fun c hc ↦ hforged r hr (r.instantiate c) (List.mem_map_of_mem hc)
  have hsucceed : Instruction.ofLine? r.target Step.succeed.line = some .succeed :=
    ofLine?_of_ofBody htarget rfl
  rw [hlines, make_of_find? hfind]
  refine executes_calls htarget hsources fun history ↦ executes_skipSteps htarget ?_
  rw [← Outcome.andThen_stop (env.runAll (g.commandsOf r) history)]
  exact executes_recipe htarget hrecipe fun _ ↦ .succeed hsucceed

/-- The block of every target makes it. -/
theorem runsBlock_make (hacyclic : g.Acyclic) (hforged : g.Unforged) (hnames : [] ∉ g.targets)
    (hhas : g.has target) :
    RunsBlock (g.script isolated).lines env target history
      (g.make hacyclic env target history) := by
  -- The induction is on the number of a target, which the numbers of its sources stay below.
  induction hheight : g.height target using Nat.strongRecOn generalizing target history with
  | ind height ih =>
    obtain ⟨r, hfind⟩ := has_iff_exists_find?.mp hhas
    obtain rfl : r.target = target := target_of_find? hfind
    have htarget : r.target ≠ [] := fun hempty ↦ hnames (hempty ▸ has_iff_mem_targets.mp hhas)
    obtain ⟨after, hafter⟩ := block?_script isolated hfind htarget
    refine ⟨_, hafter, executes_block hforged (mem_of_find? hfind) htarget ?_⟩
    intro name hdepends history
    have hlower : g.height name < height := hheight ▸ height_lt_of_depends hacyclic hdepends
    obtain ⟨-, -, -, hname⟩ := hdepends
    exact ih _ hlower hname rfl

/-- Making what is made when no target is asked for. -/
def makeGoal (g : RuleSet) (hacyclic : g.Acyclic) (env : Environment) (history : List Text) :
    Outcome :=
  match g.goal with
  | none => ⟨history, 0⟩
  | some goal => g.make hacyclic env goal history

/-- The block with the empty label makes the default goal. -/
theorem runsBlock_makeGoal (hacyclic : g.Acyclic) (hforged : g.Unforged)
    (hnames : [] ∉ g.targets) :
    RunsBlock (g.script isolated).lines env [] history (g.makeGoal hacyclic env history) := by
  obtain ⟨after, hafter⟩ := block?_script_nil g isolated
  refine ⟨_, hafter, ?_⟩
  unfold makeGoal
  cases hgoal : g.goal with
  | none =>
    have hline : Instruction.ofLine? [] "  @exit /b 0".toList = some .succeed := by decide
    exact .succeed hline
  | some goal =>
    have hruns : RunsBlock (g.script isolated).lines env goal history
        (g.make hacyclic env goal history) :=
      runsBlock_make hacyclic hforged hnames (has_goal hgoal)
    obtain ⟨body, hblock, hbody⟩ := hruns
    exact .forward (Instruction.ofLine?_goalLine goal) hblock hbody

end Running

/-- A script does what the rules mean, the inferred ones included.  Its text is run from the label
of any target, or from the empty label for the default goal: it comes to an end, in one way only,
having run the same commands in the same order as making the target does, with the same status. -/
theorem script_means_rules (g : RuleSet) (isolated : Bool) (script : Script) (env : Environment)
    (history : List Text) (hcompile : g.compile isolated = .ok script) (hlines : g.AllOneLine)
    (hnames : [] ∉ g.infer.targets) (hforged : g.infer.Unforged) :
    ∃ hacyclic : g.infer.Acyclic,
      (∀ target ∈ g.infer.targets, ∀ o,
        RunsBlock (Text.lines script.render) env target history o ↔
          o = g.infer.make hacyclic env target history) ∧
      ∀ o, RunsBlock (Text.lines script.render) env [] history o ↔
        o = g.infer.makeGoal hacyclic env history := by
  obtain ⟨hacyclic, rfl⟩ := compile_eq_ok_iff.mp hcompile
  rw [lines_render_infer hlines isolated]
  refine ⟨hacyclic, ?_, ?_⟩
  · intro target htarget o
    have hmake : RunsBlock (g.infer.script isolated).lines env target history
        (g.infer.make hacyclic env target history) :=
      runsBlock_make hacyclic hforged hnames (has_iff_mem_targets.mpr htarget)
    exact ⟨fun h ↦ h.deterministic hmake, fun h ↦ h ▸ hmake⟩
  · intro o
    have hmake : RunsBlock (g.infer.script isolated).lines env [] history
        (g.infer.makeGoal hacyclic env history) :=
      runsBlock_makeGoal hacyclic hforged hnames
    exact ⟨fun h ↦ h.deterministic hmake, fun h ↦ h ▸ hmake⟩

/-- Rules with an inferred one, a borrowed recipe and a tolerant command. -/
def program : RuleSet :=
  ((empty.insert ⟨"all".toList, ["prog.obj".toList],
      [⟨"link $^".toList, false⟩, ⟨"del tmp".toList, true⟩]⟩).insert
    ⟨".c.obj".toList, [], [⟨"cl $<".toList, false⟩]⟩).insert ⟨"prog.c".toList, [], []⟩

/-- Commands succeed, and nothing is up to date. -/
def alwaysStale : Environment := ⟨fun _ _ ↦ 0, fun _ _ ↦ false⟩

theorem script_means_rules_program :
    program.compile true = .ok (program.infer.script true) ∧ program.AllOneLine ∧
      [] ∉ program.infer.targets ∧ program.infer.Unforged ∧
      ∃ hacyclic : program.infer.Acyclic,
        (∀ target ∈ program.infer.targets, ∀ o,
          RunsBlock (Text.lines (program.infer.script true).render) alwaysStale target [] o ↔
            o = program.infer.make hacyclic alwaysStale target []) ∧
        ∀ o, RunsBlock (Text.lines (program.infer.script true).render) alwaysStale [] [] o ↔
          o = program.infer.makeGoal hacyclic alwaysStale [] := by
  have hcompile : program.compile true = .ok (program.infer.script true) := by decide +kernel
  have hlines : program.AllOneLine := ⟨by decide +kernel, by decide +kernel⟩
  have hnames : [] ∉ program.infer.targets := by decide +kernel
  have hdel : ¬Step.IsOwnLine "del tmp".toList := fun h ↦
    absurd h.head?_or_getLast? (by decide)
  have hforged : program.infer.Unforged := by
    have htolerant : ∀ r ∈ program.infer.rules, ∀ c ∈ program.infer.commandsOf r,
        c.tolerant → c.text = "del tmp".toList := by decide +kernel
    intro r hr c hc hct
    rw [htolerant r hr c hc hct]
    exact hdel
  exact ⟨hcompile, hlines, hnames, hforged,
    script_means_rules program true _ alwaysStale [] hcompile hlines hnames hforged⟩

/-- Rules with the empty name as a source, for which a rule is inferred. -/
def emptySource : RuleSet :=
  (empty.insert ⟨".c".toList, [], [⟨"cl".toList, false⟩]⟩).insert ⟨".x".toList, [[]], []⟩

theorem make_emptySource (hacyclic : emptySource.infer.Acyclic) :
    emptySource.infer.make hacyclic alwaysStale ".x".toList [] =
      ⟨["cl".toList, "cl".toList], 0⟩ := by
  have hx : emptySource.infer.find? ".x".toList = some ⟨".x".toList, [[]], []⟩ := by decide
  have hnil : emptySource.infer.find? [] = some ⟨[], [".c".toList], []⟩ := by decide
  have hc : emptySource.infer.find? ".c".toList =
      some ⟨".c".toList, [], [⟨"cl".toList, false⟩]⟩ := by decide
  have hsources : [[]].filter emptySource.infer.has = [[]] ∧
      [".c".toList].filter emptySource.infer.has = [".c".toList] := by decide
  rw [make_of_find? hx, hsources.1, makeAll_cons, make_of_find? hnil, hsources.2, makeAll_cons,
    make_of_find? hc]
  simp only [List.filter_nil, makeAll_nil, Outcome.andThen_success, Outcome.andThen_stop]
  decide

/-- It is not enough that no given target is empty.  The block of an inferred target with the empty
name is never reached, because its label leads to the lines for the default goal. -/
theorem emptySource_script_differs :
    [] ∉ emptySource.targets ∧ emptySource.AllOneLine ∧ emptySource.infer.Unforged ∧
      emptySource.compile false = .ok (emptySource.infer.script false) ∧
      ".x".toList ∈ emptySource.infer.targets ∧
      RunsBlock (Text.lines (emptySource.infer.script false).render) alwaysStale ".x".toList []
        ⟨[], 0⟩ ∧
      ∀ hacyclic, emptySource.infer.make hacyclic alwaysStale ".x".toList [] =
        ⟨["cl".toList, "cl".toList], 0⟩ := by
  have hlines : emptySource.AllOneLine := ⟨by decide +kernel, by decide +kernel⟩
  have hforged : emptySource.infer.Unforged := by
    have htolerant : ∀ r ∈ emptySource.infer.rules, ∀ c ∈ emptySource.infer.commandsOf r,
        c.tolerant = false := by decide +kernel
    intro r hr c hc hct
    rw [htolerant r hr c hc] at hct
    cases hct
  have hruns : RunsBlock (emptySource.infer.script false).lines alwaysStale ".x".toList []
      ⟨[], 0⟩ := by
    have hfind : emptySource.infer.find? ".x".toList = some ⟨".x".toList, [[]], []⟩ := by decide
    obtain ⟨after, hafter⟩ := block?_script false hfind (by decide)
    obtain ⟨after', hafter'⟩ := block?_script_nil emptySource.infer false
    have hcall : Instruction.ofLine? ".x".toList (Step.call []).line = some (.call []) := by decide
    have htest : Instruction.ofLine? ".x".toList (Step.skipIfFresh ".x".toList [[]]).line =
        some .skip := by decide
    have hsucceed : Instruction.ofLine? ".x".toList Step.succeed.line = some .succeed := by decide
    have hentry : Instruction.ofLine? [] "  @exit /b 0".toList = some .succeed := by decide
    exact ⟨_, hafter, .callSucceeds hcall hafter' (.succeed hentry)
      (.skipStale htest rfl (.succeed hsucceed))⟩
  rw [lines_render_infer hlines false]
  exact ⟨by decide, hlines, hforged, by decide +kernel, by decide, hruns, make_emptySource⟩

end RuleSet

end BuildScript
