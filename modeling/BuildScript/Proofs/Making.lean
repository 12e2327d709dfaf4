import BuildScript.Proofs.Dependency

/-!
# Making a target

What rules mean, apart from any script.  To make a target, its sources that have rules are made one
after the other; then, unless the target is up to date, the commands of its rule are run.  The first
failure ends everything.  This is a recursion that ends because no target depends on itself.
-/

namespace BuildScript

/-- What commands meet.  The status of a command, and whether a target is up to date, may depend on
the commands that have been run before. -/
structure Environment where
  status : List Text → Text → Int
  upToDate : List Text → Text → Bool

/-- The commands that have been run, in order, and the status that is returned. -/
@[ext]
structure Outcome where
  history : List Text
  status : Int
  deriving DecidableEq

namespace Outcome

/-- Goes on after a success, and leaves a failure as it is. -/
def andThen (o : Outcome) (next : List Text → Outcome) : Outcome :=
  if o.status = 0 then next o.history else o

@[simp]
theorem andThen_success (history : List Text) (next : List Text → Outcome) :
    andThen ⟨history, 0⟩ next = next history := rfl

theorem eq_success {o : Outcome} (h : o.status = 0) : o = ⟨o.history, 0⟩ :=
  Outcome.ext rfl h

theorem andThen_failure {o : Outcome} (h : o.status ≠ 0) (next : List Text → Outcome) :
    o.andThen next = o :=
  if_neg h

@[simp]
theorem andThen_stop (o : Outcome) : (o.andThen fun history ↦ ⟨history, 0⟩) = o := by
  by_cases hstatus : o.status = 0
  · rw [eq_success hstatus, andThen_success]
  · exact andThen_failure hstatus _

theorem andThen_assoc (o : Outcome) (first second : List Text → Outcome) :
    (o.andThen first).andThen second = o.andThen fun history ↦ (first history).andThen second := by
  by_cases hstatus : o.status = 0
  · rw [eq_success hstatus, andThen_success, andThen_success]
  · rw [andThen_failure hstatus, andThen_failure hstatus, andThen_failure hstatus]

end Outcome

namespace Environment

/-- Runs a command.  The failure of a tolerant one does not count. -/
def run (env : Environment) (c : Command) (history : List Text) : Outcome :=
  ⟨history ++ [c.text], if c.tolerant then 0 else env.status history c.text⟩

/-- Runs commands one after the other, up to the first failure. -/
def runAll (env : Environment) : List Command → List Text → Outcome
  | [], history => ⟨history, 0⟩
  | c :: rest, history => (env.run c history).andThen (env.runAll rest)

end Environment

/-- A command with the names of a rule put in. -/
def Rule.instantiate (r : Rule) (c : Command) : Command := ⟨r.substitute c.text, c.tolerant⟩

namespace RuleSet

variable {g : RuleSet}

/-- The commands that make the target of a rule. -/
def commandsOf (g : RuleSet) (r : Rule) : List Command := (g.recipeOf r).map r.instantiate

/-- Makes a name after the commands of a history.  For a name without a rule there is nothing to
do. -/
def make (g : RuleSet) (hacyclic : g.Acyclic) (env : Environment) (name : Text)
    (history : List Text) : Outcome :=
  match _hfind : g.find? name with
  | none => ⟨history, 0⟩
  | some r =>
    let prepared : Outcome := (r.sources.filter g.has).attach.foldl
      (fun o source ↦ o.andThen (g.make hacyclic env source.1)) ⟨history, 0⟩
    prepared.andThen fun history ↦
      if !g.isPhony name && env.upToDate history name then ⟨history, 0⟩
      else env.runAll (g.commandsOf r) history
termination_by g.height name
decreasing_by
  exact height_lt_of_depends hacyclic ⟨r, _hfind, List.mem_filter.mp source.2⟩

/-- Makes names one after the other, up to the first failure. -/
def makeAll (g : RuleSet) (hacyclic : g.Acyclic) (env : Environment) (names : List Text)
    (history : List Text) : Outcome :=
  names.foldl (fun o name ↦ o.andThen (g.make hacyclic env name)) ⟨history, 0⟩

variable {hacyclic : g.Acyclic} {env : Environment}

theorem make_of_find? {name : Text} {r : Rule} (hfind : g.find? name = some r)
    (history : List Text) :
    g.make hacyclic env name history =
      (g.makeAll hacyclic env (r.sources.filter g.has) history).andThen fun history ↦
        if !g.isPhony name && env.upToDate history name then ⟨history, 0⟩
        else env.runAll (g.commandsOf r) history := by
  rw [make]
  split
  · rename_i hnone
    rw [hfind] at hnone
    cases hnone
  · rename_i s hs
    rw [hfind, Option.some.injEq] at hs
    subst hs
    unfold makeAll
    rw [← List.foldl_attach (l := r.sources.filter g.has)]

theorem foldl_make_of_failure {names : List Text} {o : Outcome} (h : o.status ≠ 0) :
    names.foldl (fun o name ↦ o.andThen (g.make hacyclic env name)) o = o := by
  induction names with
  | nil => rfl
  | cons name names ih => rw [List.foldl_cons, Outcome.andThen_failure h, ih]

theorem makeAll_nil : g.makeAll hacyclic env [] = fun history ↦ ⟨history, 0⟩ := rfl

theorem makeAll_cons (name : Text) (names history : List Text) :
    g.makeAll hacyclic env (name :: names) history =
      (g.make hacyclic env name history).andThen (g.makeAll hacyclic env names) := by
  unfold makeAll
  rw [List.foldl_cons, Outcome.andThen_success]
  by_cases hzero : (g.make hacyclic env name history).status = 0
  · rw [Outcome.eq_success hzero, Outcome.andThen_success]
  · rw [foldl_make_of_failure hzero, Outcome.andThen_failure hzero]

end RuleSet

end BuildScript
