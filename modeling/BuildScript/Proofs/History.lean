import BuildScript.Proofs.Collection
import BuildScript.Proofs.Inference
import Mathlib.Data.List.Dedup

/-!
# The history of a rule set

Rules are stored one by one, commands are added to them, and from time to time rules are inferred.
Everything that a rule set answers afterwards can be read off this history: the rule for a target is
the one that was stored last, be it by hand or by inference, with the commands that were added to it
since, and the default goal is the first target without a leading dot that was stored by hand.
-/

namespace BuildScript

namespace Rule

/-- Adds commands at the end of the recipe. -/
def addCommands (r : Rule) (commands : List Command) : Rule :=
  { r with recipe := r.recipe ++ commands }

@[simp]
theorem addCommands_nil (r : Rule) : r.addCommands [] = r := by
  simp [addCommands]

theorem addCommands_append (r : Rule) (first second : List Command) :
    r.addCommands (first ++ second) = (r.addCommands first).addCommands second := by
  simp [addCommands]

end Rule

namespace RuleSet

/-- A step in the history of a rule set. -/
inductive Act where
  | edit (e : Edit)
  | infer

def act (g : RuleSet) : Act → RuleSet
  | .edit e => g.edit e
  | .infer => g.infer

/-- The rule set that a history leads to. -/
def replay (history : List Act) : RuleSet := history.foldl act empty

/-! ## Events -/

/-- What happens to one target: a rule was stored for it by hand or by inference, or a command was
added to its rule. -/
inductive Event where
  | inserted (r : Rule)
  | inferred (r : Rule)
  | added (target : Text) (c : Command)

namespace Event

/-- The rule that an event stores. -/
def stored? : Event → Option Rule
  | inserted r => some r
  | inferred r => some r
  | added _ _ => none

/-- The target that an event stores a rule for. -/
def target? (e : Event) : Option Text := e.stored?.map Rule.target

/-- The command that an event adds to the rule for a target. -/
def addedTo? (target : Text) : Event → Option Command
  | added name c => if name = target then some c else none
  | _ => none

end Event

/-- The rules that inference adds. -/
def inferredRules (g : RuleSet) : List Rule := g.infer.rules.filter (· ∉ g.rules)

/-- What a step does, event by event. -/
def eventsOf (g : RuleSet) : Act → List Event
  | .edit (.insert r) => [.inserted r]
  | .edit (.addCommand target c) => [.added target c]
  | .infer => g.inferredRules.map .inferred

/-- What happens from a rule set on. -/
def eventsFrom (g : RuleSet) : List Act → List Event
  | [] => []
  | a :: history => g.eventsOf a ++ (g.act a).eventsFrom history

/-- What has happened in a history. -/
def events (history : List Act) : List Event := empty.eventsFrom history

/-- A rule set after an event. -/
def record (g : RuleSet) : Event → RuleSet
  | .inserted r => g.insert r
  | .inferred r => g.put r
  | .added target c => g.addCommand target c

/-! ## Rules after events -/

variable {g : RuleSet} {target : Text}

theorem find?_record_of_stored? {e : Event} {r : Rule} (h : e.stored? = some r) :
    (g.record e).find? r.target = some r := by
  cases e with
  | inserted s => simp_all [Event.stored?, record, find?_insert]
  | inferred s => simp_all [Event.stored?, record, find?_put]
  | added name c => cases h

/-- An event that stores no rule for a target can only add a command to the rule that is there. -/
theorem find?_record_of_target?_ne {e : Event} (h : e.target? ≠ some target) :
    (g.record e).find? target =
      (g.find? target).map (·.addCommands (e.addedTo? target).toList) := by
  cases e with
  | inserted s =>
    have hne : target ≠ s.target := fun heq ↦ h (by rw [heq]; rfl)
    simp [record, find?_insert, hne, Event.addedTo?]
  | inferred s =>
    have hne : target ≠ s.target := fun heq ↦ h (by rw [heq]; rfl)
    simp [record, find?_put, hne, Event.addedTo?]
  | added name c =>
    rw [record, find?_addCommand]
    by_cases hname : target = name
    · simp [hname, Event.addedTo?, Rule.addCommand, Rule.addCommands]
    · simp [hname, Ne.symm hname, Event.addedTo?]

theorem find?_foldl_record_of_not_mem {log : List Event}
    (h : target ∉ log.filterMap Event.target?) :
    (log.foldl record g).find? target =
      (g.find? target).map (·.addCommands (log.filterMap (Event.addedTo? target))) := by
  induction log generalizing g with
  | nil => simp
  | cons e log ih =>
    have hfirst : e.target? ≠ some target := fun heq ↦ h (by simp [heq])
    have hrest : target ∉ log.filterMap Event.target? := fun hmem ↦
      h ((List.sublist_cons_self e log).filterMap _ |>.subset hmem)
    have hadded : (e :: log).filterMap (Event.addedTo? target) =
        (e.addedTo? target).toList ++ log.filterMap (Event.addedTo? target) := by
      cases hadd : e.addedTo? target <;> simp [hadd]
    rw [List.foldl_cons, ih hrest, find?_record_of_target?_ne hfirst, Option.map_map, hadded]
    simp only [Function.comp_def, Rule.addCommands_append]

/-- The last event that stores a rule for a target. -/
theorem exists_last_stored {log : List Event} (h : target ∈ log.filterMap Event.target?) :
    ∃ before e after r, log = before ++ e :: after ∧ e.stored? = some r ∧ r.target = target ∧
      target ∉ after.filterMap Event.target? := by
  induction log with
  | nil => cases h
  | cons e log ih =>
    by_cases hlog : target ∈ log.filterMap Event.target?
    · obtain ⟨before, last, after, r, rfl, hlast⟩ := ih hlog
      exact ⟨e :: before, last, after, r, rfl, hlast⟩
    · have he : e.target? = some target := by
        obtain ⟨first, hfirst, htarget⟩ := List.mem_filterMap.mp h
        rcases List.mem_cons.mp hfirst with rfl | hmem
        · exact htarget
        · exact absurd (List.mem_filterMap.mpr ⟨first, hmem, htarget⟩) hlog
      obtain ⟨r, hr, htarget⟩ := Option.map_eq_some_iff.mp he
      exact ⟨[], e, log, r, rfl, hr, htarget, hlog⟩

/-- After events, the rule for a target is the one that was stored last, with the commands that were
added to it since. -/
theorem find?_foldl_record (log : List Event) (target : Text) :
    (target ∉ log.filterMap Event.target? ∧ (log.foldl record empty).find? target = none) ∨
      ∃ before e after r, log = before ++ e :: after ∧ e.stored? = some r ∧ r.target = target ∧
        target ∉ after.filterMap Event.target? ∧
        (log.foldl record empty).find? target =
          some (r.addCommands (after.filterMap (Event.addedTo? target))) := by
  by_cases h : target ∈ log.filterMap Event.target?
  · obtain ⟨before, e, after, r, rfl, hr, rfl, hafter⟩ := exists_last_stored h
    refine .inr ⟨before, e, after, r, rfl, hr, rfl, hafter, ?_⟩
    rw [List.foldl_append, List.foldl_cons, find?_foldl_record_of_not_mem hafter,
      find?_record_of_stored? hr, Option.map_some]
  · refine .inl ⟨h, ?_⟩
    rw [find?_foldl_record_of_not_mem h, find?_empty, Option.map_none]

/-! ## Steps as events -/

theorem goal_foldl_put (rules : List Rule) (g : RuleSet) : (rules.foldl put g).goal = g.goal := by
  induction rules generalizing g with
  | nil => rfl
  | cons r rules ih => exact ih (g.put r)

theorem find?_foldl_put (rules : List Rule) (g : RuleSet) (name : Text) :
    (rules.foldl put g).find? name =
      (rules.reverse.find? (·.target == name)).or (g.find? name) := by
  induction rules generalizing g with
  | nil => rfl
  | cons r rules ih =>
    rw [List.foldl_cons, ih, find?_put, List.reverse_cons, List.find?_append, Option.or_assoc]
    by_cases hname : name = r.target
    · simp [hname]
    · simp [hname, Ne.symm hname]

/-- To infer is to store the rules that inference adds, in any order. -/
theorem foldl_put_inferredRules (g : RuleSet) :
    (g.inferredRules.foldl put g).SameRules g.infer := by
  refine ⟨fun name ↦ ?_, (goal_foldl_put _ g).trans (goal_infer g).symm⟩
  rw [find?_foldl_put]
  cases hadded : g.inferredRules.reverse.find? (·.target == name) with
  | some r =>
    have hr : r ∈ g.inferredRules := List.mem_reverse.mp (List.mem_of_find?_eq_some hadded)
    obtain rfl : r.target = name := by simpa using List.find?_some hadded
    rw [find?_target (List.mem_of_mem_filter hr), Option.some_or]
  | none =>
    rw [Option.none_or]
    cases hgiven : g.find? name with
    | some r => exact (find?_infer hgiven).symm
    | none =>
      -- A rule for the name would be one of those that were added.
      cases hinfer : g.infer.find? name with
      | none => rfl
      | some r =>
        obtain rfl : r.target = name := target_of_find? hinfer
        have hnew : r ∉ g.rules := fun hr ↦ by simp [find?_target hr] at hgiven
        have hr : r ∈ g.inferredRules :=
          List.mem_filter.mpr ⟨mem_of_find? hinfer, by simpa using hnew⟩
        simpa using List.find?_eq_none.mp hadded r (List.mem_reverse.mpr hr)

theorem SameRules.foldl_record {g h : RuleSet} (same : g.SameRules h) (log : List Event) :
    (log.foldl record g).SameRules (log.foldl record h) := by
  induction log generalizing g h with
  | nil => exact same
  | cons e log ih =>
    refine ih ?_
    cases e with
    | inserted r => exact same.insert r
    | inferred r => exact same.put r
    | added target c => exact same.addCommand target c

theorem foldl_record_eventsOf (g : RuleSet) (a : Act) :
    ((g.eventsOf a).foldl record g).SameRules (g.act a) := by
  cases a with
  | edit e => cases e <;> exact .refl _
  | infer =>
    rw [eventsOf, List.foldl_map]
    exact foldl_put_inferredRules g

theorem foldl_record_eventsFrom (g : RuleSet) (history : List Act) :
    ((g.eventsFrom history).foldl record g).SameRules (history.foldl act g) := by
  induction history generalizing g with
  | nil => exact .refl g
  | cons a history ih =>
    rw [eventsFrom, List.foldl_append, List.foldl_cons]
    exact ((foldl_record_eventsOf g a).foldl_record _).trans (ih (g.act a))

theorem find?_replay (history : List Act) (target : Text) :
    (replay history).find? target = ((events history).foldl record empty).find? target :=
  ((foldl_record_eventsFrom empty history).rule target).symm

/-! ## Queries after a history -/

theorem has_replay_iff {history : List Act} :
    (replay history).has target ↔ target ∈ (events history).filterMap Event.target? := by
  rw [has, find?_replay]
  rcases find?_foldl_record (events history) target with
    ⟨hnone, hfind⟩ | ⟨before, e, after, r, hlog, hr, rfl, -, hfind⟩
  · simp [hfind, hnone]
  · have hmem : r.target ∈ (events history).filterMap Event.target? := by
      apply List.mem_filterMap.mpr
      exact ⟨e, by simp [hlog], by simp [Event.target?, hr]⟩
    simp [hfind, hmem]

theorem perm_targets_replay (history : List Act) :
    (replay history).targets.Perm ((events history).filterMap Event.target?).dedup := by
  apply (List.perm_ext_iff_of_nodup (nodup_targets _) (List.nodup_dedup _)).mpr
  intro name
  rw [← has_iff_mem_targets, has_replay_iff, List.mem_dedup]

namespace Act

/-- The rule that a step stores by hand. -/
def inserted? : Act → Option Rule
  | edit (.insert r) => some r
  | _ => none

end Act

/-- The first of some rules whose target has no leading dot. -/
def firstGoal? (rules : List Rule) : Option Text :=
  (rules.find? fun r ↦ r.target.head? != some '.').map Rule.target

theorem firstGoal?_append (first second : List Rule) :
    firstGoal? (first ++ second) = (firstGoal? first).or (firstGoal? second) := by
  unfold firstGoal?
  rw [List.find?_append, Option.map_or]

theorem goal_act (g : RuleSet) (a : Act) :
    (g.act a).goal = g.goal.or (firstGoal? a.inserted?.toList) := by
  have hsame : g.goal = g.goal.or (firstGoal? []) := Option.or_none.symm
  cases a with
  | edit e =>
    cases e with
    | insert r =>
      have hgoal : (if r.isDotted then none else some r.target) = firstGoal? [r] := by
        unfold firstGoal? Rule.isDotted
        cases hdot : r.target.head? == some '.' <;> simp_all [bne]
      exact congrArg g.goal.or hgoal
    | addCommand target c => exact hsame
  | infer => exact (goal_infer g).trans hsame

/-- The goal that is there stays; else it is that of the first rule that gives one. -/
theorem goal_foldl_act (g : RuleSet) (history : List Act) :
    (history.foldl act g).goal = g.goal.or (firstGoal? (history.filterMap Act.inserted?)) := by
  induction history generalizing g with
  | nil => exact Option.or_none.symm
  | cons a history ih =>
    have hinserted : (a :: history).filterMap Act.inserted? =
        a.inserted?.toList ++ history.filterMap Act.inserted? := by
      cases ha : a.inserted? <;> simp [ha]
    rw [List.foldl_cons, ih, goal_act, hinserted, firstGoal?_append, Option.or_assoc]

/-- What a rule set answers after a history.  The rule for a target is the one that was stored last,
by hand or by inference, with exactly the commands that were added to it since.  Rules stand under
their own targets, there are as many as targets were stored, and they are listed once each in
ascending order, in whatever order they are kept.  The default goal is the first target without a
leading dot that was stored by hand; it stays the same from then on, and always has a rule. -/
theorem replay_answers_from_history (history : List Act) :
    (∀ target,
      (target ∉ (events history).filterMap Event.target? ∧
        (replay history).find? target = none) ∨
      ∃ before e after r, events history = before ++ e :: after ∧ e.stored? = some r ∧
        r.target = target ∧ target ∉ after.filterMap Event.target? ∧
        (replay history).find? target =
          some (r.addCommands (after.filterMap (Event.addedTo? target)))) ∧
      (∀ target r, (replay history).find? target = some r → r.target = target) ∧
      (replay history).size = ((events history).filterMap Event.target?).dedup.length ∧
      (Ascending (replay history).rules ∧
        (∀ r, r ∈ (replay history).rules ↔ (replay history).find? r.target = some r) ∧
        ∀ listing : List Rule, listing.Perm (replay history).rules →
          Rule.sorted listing = (replay history).rules) ∧
      (replay history).goal =
        ((history.filterMap Act.inserted?).find? fun r ↦ r.target.head? != some '.').map
          Rule.target ∧
      (∀ name, (replay history).goal = some name →
        (replay history).has name ∧ ∀ more, (replay (history ++ more)).goal = some name) := by
  refine ⟨?_, fun target r ↦ target_of_find?, ?_,
    ⟨(replay history).ascending, fun r ↦ mem_rules_iff, fun listing ↦ sorted_eq_rules⟩,
    ?_, ?_⟩
  · intro target
    rw [find?_replay]
    exact find?_foldl_record (events history) target
  · rw [← length_targets]
    exact (perm_targets_replay history).length_eq
  · exact goal_foldl_act empty history
  · intro name hgoal
    refine ⟨has_goal hgoal, fun more ↦ ?_⟩
    rw [replay, List.foldl_append, goal_foldl_act]
    exact Option.or_eq_some_iff.mpr (.inl hgoal)

end RuleSet

end BuildScript
