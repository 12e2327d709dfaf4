import BuildScript.Rule.Automatic
import BuildScript.RuleSet.Cycle
import BuildScript.RuleSet.Inference
import BuildScript.Script.Basic

/-!
# The script of a rule set

The block of a target first calls the blocks of the sources that have one, then leaves if the
target is up to date, and then runs the commands that make it.
-/

namespace BuildScript.RuleSet

/-- The step that leaves the block of a target that is up to date; a phony target has none. -/
def skipSteps (g : RuleSet) (r : Rule) : List Step :=
  if g.isPhony r.target then []
  else if r.sources.isEmpty then [.skipIfPresent r.target]
  else [.skipIfFresh r.target r.sources]

/-- The steps that run a command for a rule, in a scope of its own if that is asked for. -/
def commandSteps (isolated : Bool) (r : Rule) (c : Command) : List Step :=
  let text := r.substitute c.text
  let step := if c.tolerant then Step.attempt text else Step.run text
  if isolated then [.enterScope, step, .leaveScope] else [step]

/-- The block that makes the target of a rule. -/
def block (g : RuleSet) (isolated : Bool) (r : Rule) : Block where
  label := r.target
  steps :=
    (r.sources.filter g.has).map Step.call ++ g.skipSteps r ++
      (g.recipeOf r).flatMap (commandSteps isolated r) ++ [.succeed]

/-- The script for the rules as they are. -/
def script (g : RuleSet) (isolated : Bool) : Script where
  goal := g.goal
  blocks := g.rules.map (g.block isolated)

/-- The script for the rules and those that can be inferred, unless a target depends on itself. -/
def compile (g : RuleSet) (isolated : Bool) : Except Cycle Script :=
  match g.infer.findCycle? with
  | some cycle => .error cycle
  | none => .ok (g.infer.script isolated)

end BuildScript.RuleSet
