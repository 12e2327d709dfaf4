import BuildScript.Proofs.Inference
import BuildScript.Proofs.ReportedCycles

/-!
# Cycles and inferred rules

A rule is inferred from a name that has a rule by then.  So an added rule depends on a given one, or
on one that was added before it, and going from rule to rule along added rules only leads back in
time.  Therefore every cycle runs through a given rule.  As no given rule is changed, a cycle among
the given rules stays one.
-/

namespace BuildScript.RuleSet

variable {g : RuleSet} {first : Text} {rest : List Text}

/-! ## The time at which a rule is added -/

/-- Rules beyond those of `g` were added at certain times: what such a rule is made from has a rule
too, and got it before. -/
def AddedInOrder (g grown : RuleSet) (time : Text → Nat) : Prop :=
  ∀ r ∈ grown.rules, r ∈ g.rules ∨
    ∀ source ∈ r.sources, grown.has source ∧ time source < time r.target

/-- A rule that is added for a new name comes after the rule for its source. -/
theorem AddedInOrder.put {grown : RuleSet} {time : Text → Nat} {name source : Text}
    (h : g.AddedInOrder grown time) (hnew : grown.has name = false) (hsource : grown.has source) :
    g.AddedInOrder (grown.put ⟨name, [source], []⟩)
      (Function.update time name (time source + 1)) := by
  have hold {other : Text} (hother : grown.has other) : other ≠ name := by
    rintro rfl
    exact Bool.false_ne_true (hnew.symm.trans hother)
  intro r hr
  rcases mem_rules_put hr with rfl | hr
  · refine .inr fun other hother ↦ ?_
    obtain rfl := List.mem_singleton.mp hother
    refine ⟨has_put.mpr (.inr hsource), ?_⟩
    rw [Function.update_of_ne (hold hsource), Function.update_self]
    exact Nat.lt_succ_self _
  · refine (h r hr).imp_right fun hsources other hother ↦ ?_
    obtain ⟨hhas, hbefore⟩ := hsources other hother
    have htarget : grown.has r.target := has_iff_mem_targets.mpr (List.mem_map_of_mem hr)
    refine ⟨has_put.mpr (.inr hhas), ?_⟩
    rwa [Function.update_of_ne (hold hhas), Function.update_of_ne (hold htarget)]

theorem exists_addedInOrder_infer (g : RuleSet) : ∃ time, g.AddedInOrder g.infer time := by
  refine infer_induction (P := fun grown ↦ ∃ time, g.AddedInOrder grown time)
    ⟨fun _ ↦ 0, fun _ ↦ .inl⟩ ?_
  rintro grown name source ⟨time, htime⟩ - hnew hcandidate
  exact ⟨_, htime.put hnew (has_of_candidate? hcandidate)⟩

/-! ## Rounds -/

/-- Names of which each depends on the next one and the last on the first.  A name may come more
than once. -/
def IsRound (g : RuleSet) (first : Text) (rest : List Text) : Prop :=
  (first :: (rest ++ [first])).IsChain g.Depends

theorem exists_given_of_isRound (h : g.infer.IsRound first rest) :
    ∃ r ∈ g.rules, r.target ∈ first :: rest := by
  by_contra hnone
  obtain ⟨time, htime⟩ := exists_addedInOrder_infer g
  -- Without a given rule, every step of the round leads back in time.
  have hback : (first :: (rest ++ [first])).IsChain fun target source ↦
      time target > time source := by
    refine h.imp_of_mem_imp ?_
    rintro target source htarget - ⟨r, hfind, hsource, -⟩
    obtain rfl := target_of_find? hfind
    rcases htime r (mem_of_find? hfind) with hgiven | hsources
    · exact absurd ⟨r, hgiven, by simpa [or_comm] using htarget⟩ hnone
    · exact (hsources source hsource).2
  have hself : time first > time first :=
    ((List.isChain_map time).mpr hback).rel_cons (List.mem_map_of_mem (by simp))
  exact Nat.lt_irrefl _ hself

theorem depends_infer {target source : Text} (h : g.Depends target source) :
    g.infer.Depends target source := by
  obtain ⟨r, hfind, hsource, hhas⟩ := h
  obtain ⟨s, hs⟩ := has_iff_exists_find?.mp hhas
  exact ⟨r, find?_infer hfind, hsource, has_iff_exists_find?.mpr ⟨s, find?_infer hs⟩⟩

theorem exists_compile_eq_error (h : g.IsRound first rest) (isolated : Bool) :
    ∃ cycle, g.compile isolated = .error cycle := by
  cases hcompile : g.compile isolated with
  | error cycle => exact ⟨cycle, rfl⟩
  | ok script =>
    have hround : g.infer.IsRound first rest := h.imp fun _ _ ↦ depends_infer
    obtain ⟨hacyclic, -⟩ := compile_eq_ok_iff.mp hcompile
    exact absurd (Cycle.transGen_of_isChain hround) (hacyclic first)

/-- Inference alone makes no cycle.  Wherever one comes back to a name along dependencies of the
given and the inferred rules, one has been at a given rule, which is still the same.  So a cycle
that keeps a script from being made names the target of a given rule; and if the given rules have a
cycle, no script is made. -/
theorem cycle_runs_through_given_rule (g : RuleSet) :
    (∀ first rest, g.infer.IsRound first rest →
      ∃ r ∈ g.rules, r.target ∈ first :: rest ∧ g.infer.find? r.target = some r) ∧
      (∀ isolated cycle, g.compile isolated = .error cycle →
        ∃ r ∈ g.rules, r.target ∈ cycle.names) ∧
      ∀ first rest, g.IsRound first rest → ∀ isolated, ∃ cycle,
        g.compile isolated = .error cycle := by
  refine ⟨fun first rest hround ↦ ?_, fun isolated cycle hcompile ↦ ?_, fun first rest hround ↦ ?_⟩
  · obtain ⟨r, hr, hmem⟩ := exists_given_of_isRound hround
    exact ⟨r, hr, hmem, find?_infer (find?_target hr)⟩
  · obtain ⟨first, others, rfl, hloop, -⟩ :=
      exists_isLoop_of_findCycle? (compile_eq_error_iff.mp hcompile)
    obtain ⟨r, hr, hmem⟩ := exists_given_of_isRound hloop.chain
    exact ⟨r, hr, List.mem_append_left [first] hmem⟩
  · exact exists_compile_eq_error hround

/-- A cycle that an inferred rule closes, and a target that depends on itself. -/
def closedRules : RuleSet :=
  [⟨".c.obj".toList, [], [⟨"cl $<".toList, false⟩]⟩, ⟨"prog.c".toList, ["prog.obj".toList], []⟩,
    ⟨"zip".toList, ["zip".toList], []⟩].foldl insert empty

theorem cycle_runs_through_given_rule_closedRules :
    (closedRules.infer.IsRound "prog.obj".toList ["prog.c".toList] ∧
      ∃ r ∈ closedRules.rules, r.target ∈ ["prog.obj".toList, "prog.c".toList]) ∧
      (closedRules.compile true =
          .error ⟨["prog.c".toList, "prog.obj".toList, "prog.c".toList]⟩ ∧
        ∃ r ∈ closedRules.rules,
          r.target ∈ ["prog.c".toList, "prog.obj".toList, "prog.c".toList]) ∧
      closedRules.IsRound "zip".toList [] ∧
      ∃ cycle, closedRules.compile false = .error cycle := by
  obtain ⟨hrounds, hreported, hfails⟩ := cycle_runs_through_given_rule closedRules
  have hobject : closedRules.infer.Depends "prog.obj".toList "prog.c".toList :=
    ⟨⟨"prog.obj".toList, ["prog.c".toList], []⟩, by decide +kernel, by decide +kernel,
      by decide +kernel⟩
  have hsource : closedRules.infer.Depends "prog.c".toList "prog.obj".toList :=
    ⟨⟨"prog.c".toList, ["prog.obj".toList], []⟩, by decide +kernel, by decide +kernel,
      by decide +kernel⟩
  have hself : closedRules.Depends "zip".toList "zip".toList :=
    ⟨⟨"zip".toList, ["zip".toList], []⟩, by decide +kernel, by decide +kernel, by decide +kernel⟩
  have hround : closedRules.infer.IsRound "prog.obj".toList ["prog.c".toList] :=
    .cons_cons hobject (.cons_cons hsource (.singleton _))
  have hzip : closedRules.IsRound "zip".toList [] := .cons_cons hself (.singleton _)
  have hcompile : closedRules.compile true =
      .error ⟨["prog.c".toList, "prog.obj".toList, "prog.c".toList]⟩ := by decide +kernel
  obtain ⟨r, hr, hmem, -⟩ := hrounds _ _ hround
  exact ⟨⟨hround, r, hr, hmem⟩, ⟨hcompile, hreported true _ hcompile⟩, hzip,
    hfails _ _ hzip false⟩

end BuildScript.RuleSet
