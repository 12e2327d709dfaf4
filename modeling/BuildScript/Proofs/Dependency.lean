import BuildScript.Proofs.RuleLookup
import BuildScript.Script.OfRules
import Mathlib.Data.List.Chain
import Mathlib.Logic.Relation

/-!
# Dependency between targets

A target depends on those sources of its rule that have a rule themselves.  The search for a cycle
keeps a path along which each name depends on the next, and when it comes back to a name on the path
it has found a loop.  So it succeeds exactly if some target depends on itself, directly or through
others.  If none does, the targets can be numbered so that every call in a script goes to a smaller
number.
-/

namespace BuildScript

open Relation (TransGen)

/-! ## Loops -/

namespace Cycle

/-- Different names, each related to the next one and the last to the first. -/
structure IsLoop (R : Text → Text → Prop) (first : Text) (rest : List Text) : Prop where
  nodup : (first :: rest).Nodup
  chain : (first :: (rest ++ [first])).IsChain R

/-- Names that lead back to the first one relate it to itself. -/
theorem transGen_of_isChain {R : Text → Text → Prop} {first : Text} {rest : List Text}
    (hchain : (first :: (rest ++ [first])).IsChain R) : TransGen R first first := by
  obtain ⟨next, more, hnext⟩ := List.exists_cons_of_ne_nil (List.concat_ne_nil first rest)
  rw [hnext] at hchain
  obtain ⟨hstep, hmore⟩ := List.isChain_cons_cons.mp hchain
  have hlast : (next :: more).getLast (List.cons_ne_nil next more) = first := by
    simp only [← hnext, List.getLast_concat]
  exact .head' hstep (List.relationReflTransGen_of_exists_isChain_cons more hmore hlast)

theorem IsLoop.transGen {R : Text → Text → Prop} {first : Text} {rest : List Text}
    (h : IsLoop R first rest) : TransGen R first first :=
  transGen_of_isChain h.chain

/-- What is left of some names when those before one of them are dropped begins with it. -/
theorem exists_dropWhile_eq_cons {start : Text} {names : List Text} (h : start ∈ names) :
    ∃ back, names.dropWhile (· != start) = start :: back := by
  induction names with
  | nil => simp at h
  | cons name names ih =>
    by_cases hname : name = start
    · exact ⟨names, by simp [hname]⟩
    · obtain ⟨back, hback⟩ := ih ((List.mem_cons.mp h).resolve_left (Ne.symm hname))
      exact ⟨back, by simp [hname, hback]⟩

end Cycle

namespace RuleSet

variable {g : RuleSet}

/-- The rule for `target` lists `source`, which has a rule. -/
def Depends (g : RuleSet) (target source : Text) : Prop :=
  ∃ r, g.find? target = some r ∧ source ∈ r.sources ∧ g.has source

/-- No target depends on itself, be it through any number of others. -/
def Acyclic (g : RuleSet) : Prop := ∀ target, ¬TransGen g.Depends target target

/-! ## Names that no endless chain starts from -/

/-- Every chain of dependencies from the name comes to an end. -/
def Grounded (g : RuleSet) (name : Text) : Prop :=
  Acc (fun source target ↦ g.Depends target source) name

theorem grounded_of_sources {name : Text} {r : Rule} (hfind : g.find? name = some r)
    (h : ∀ source ∈ r.sources, g.Grounded source) : g.Grounded name := by
  refine Acc.intro name ?_
  rintro source ⟨s, hs, hmem, -⟩
  rw [hfind, Option.some.injEq] at hs
  exact h source (hs ▸ hmem)

theorem grounded_of_find?_eq_none {name : Text} (hfind : g.find? name = none) :
    g.Grounded name := by
  refine Acc.intro name ?_
  rintro source ⟨s, hs, -⟩
  rw [hfind] at hs
  cases hs

theorem Grounded.not_transGen_self {name : Text} (h : g.Grounded name) :
    ¬TransGen g.Depends name name := by
  induction h with
  | intro name _ ih =>
    intro hcycle
    obtain ⟨source, hstep, hback⟩ := TransGen.head'_iff.mp hcycle
    exact ih source hstep (TransGen.tail' hback hstep)

/-- What a search leaves clear is grounded, and so is everything it has been through. -/
theorem grounded_of_search {path clear names clear' : List Text}
    (h : g.search path clear names = .ok clear') (hclear : ∀ name ∈ clear, g.Grounded name) :
    (∀ name ∈ clear', g.Grounded name) ∧ ∀ name ∈ names, g.Grounded name := by
  fun_induction search g path clear names generalizing clear' with
  | case1 path clear =>
    cases h
    exact ⟨hclear, by simp⟩
  | case2 path clear name rest hmem ih =>
    obtain ⟨hfinal, hrest⟩ := ih h hclear
    exact ⟨hfinal, List.forall_mem_cons.mpr ⟨hclear name (List.contains_iff_mem.mp hmem), hrest⟩⟩
  | case3 => cases h
  | case4 path clear name rest _ _ hfind ih =>
    obtain ⟨hfinal, hrest⟩ := ih h hclear
    exact ⟨hfinal, List.forall_mem_cons.mpr ⟨grounded_of_find?_eq_none hfind, hrest⟩⟩
  | case5 => cases h
  | case6 path clear name rest _ _ r hfind cleared hsources ihsources ih =>
    obtain ⟨hcleared, hall⟩ := ihsources hsources hclear
    have hname : g.Grounded name := grounded_of_sources hfind hall
    obtain ⟨hfinal, hrest⟩ := ih h (List.forall_mem_cons.mpr ⟨hname, hcleared⟩)
    exact ⟨hfinal, List.forall_mem_cons.mpr ⟨hname, hrest⟩⟩

/-! ## The path of the search -/

/-- What the search keeps: the names on the path differ and have rules, each depends on the one
before it, and the first depends on those names to be searched from that have rules. -/
structure SearchPath (g : RuleSet) (path names : List Text) : Prop where
  nodup : path.Nodup
  chain : path.IsChain fun source target ↦ g.Depends target source
  hasRule : ∀ target ∈ path, g.has target
  sources : ∀ target ∈ path.head?, ∀ source ∈ names, g.has source → g.Depends target source

namespace SearchPath

variable {path rest : List Text} {name : Text}

theorem nil (g : RuleSet) (names : List Text) : g.SearchPath [] names :=
  ⟨List.nodup_nil, .nil, by simp, by simp⟩

theorem of_cons (h : g.SearchPath path (name :: rest)) : g.SearchPath path rest :=
  { h with sources := fun target htarget source hsource ↦
      h.sources target htarget source (List.mem_cons_of_mem _ hsource) }

theorem chain_cons (h : g.SearchPath path (name :: rest)) (hhas : g.has name) :
    (name :: path).IsChain fun source target ↦ g.Depends target source :=
  h.chain.cons fun target htarget ↦ h.sources target htarget name List.mem_cons_self hhas

theorem push {r : Rule} (h : g.SearchPath path (name :: rest)) (hpath : ¬path.contains name)
    (hfind : g.find? name = some r) : g.SearchPath (name :: path) r.sources := by
  have hhas : g.has name := has_iff_exists_find?.mpr ⟨r, hfind⟩
  have hnew : name ∉ path := by simpa using hpath
  refine ⟨List.nodup_cons.mpr ⟨hnew, h.nodup⟩, h.chain_cons hhas,
    List.forall_mem_cons.mpr ⟨hhas, h.hasRule⟩, ?_⟩
  rintro _ ⟨⟩ source hsource hrule
  exact ⟨r, hfind, hsource, hrule⟩

/-- A name that the search meets again begins a loop, which runs through the names that came onto
the path after it. -/
theorem isLoop (h : g.SearchPath path (name :: rest)) (hname : name ∈ path) :
    Cycle.IsLoop g.Depends name (path.takeWhile (· != name)).reverse := by
  obtain ⟨earlier, hdrop⟩ := Cycle.exists_dropWhile_eq_cons hname
  have hsplit := List.takeWhile_append_dropWhile (p := (· != name)) (l := path)
  rw [hdrop] at hsplit
  have hchain := h.chain_cons (h.hasRule name hname)
  have hnodup := h.nodup
  rw [← hsplit] at hchain hnodup
  generalize path.takeWhile (· != name) = later at hchain hnodup ⊢
  -- The path has the last name first, so both parts are read backwards.
  constructor
  · have hlater : (later ++ [name]).Nodup :=
      hnodup.sublist ((List.singleton_sublist.mpr List.mem_cons_self).append_left later)
    simpa using List.nodup_reverse.mpr hlater
  · have hback : (name :: (later ++ [name])).IsChain fun source target ↦ g.Depends target source :=
      (List.isChain_cons_split.mp hchain).1
    simpa using List.isChain_reverse.mpr hback

end SearchPath

/-- A search that fails has found a loop of dependencies. -/
theorem exists_isLoop_of_search {path clear names : List Text} {cycle : Cycle}
    (h : g.search path clear names = .error cycle) (hpath : g.SearchPath path names) :
    ∃ first others, cycle = Cycle.ofLoop (first :: others) ∧
      Cycle.IsLoop g.Depends first others := by
  fun_induction search g path clear names with
  | case1 => cases h
  | case2 path clear name rest _ ih => exact ih h hpath.of_cons
  | case3 path clear name rest _ hmem =>
    cases h
    exact ⟨_, _, rfl, hpath.isLoop (List.contains_iff_mem.mp hmem)⟩
  | case4 path clear name rest _ _ _ ih => exact ih h hpath.of_cons
  | case5 path clear name rest _ hnew r hfind found hsources ih =>
    exact ih (hsources.trans h) (hpath.push hnew hfind)
  | case6 path clear name rest _ _ r hfind cleared _ _ ih => exact ih h hpath.of_cons

theorem findCycle?_eq_none_iff : g.findCycle? = none ↔ g.Acyclic := by
  unfold findCycle?
  cases hsearch : g.search [] [] g.targets with
  | ok clear =>
    obtain ⟨-, htargets⟩ := grounded_of_search hsearch (by simp)
    refine iff_of_true rfl fun target hcycle ↦ ?_
    obtain ⟨source, ⟨r, hfind, -⟩, -⟩ := TransGen.head'_iff.mp hcycle
    have hmem : target ∈ g.targets :=
      has_iff_mem_targets.mp (has_iff_exists_find?.mpr ⟨r, hfind⟩)
    exact (htargets target hmem).not_transGen_self hcycle
  | error cycle =>
    obtain ⟨target, others, -, hloop⟩ := exists_isLoop_of_search hsearch (.nil g g.targets)
    exact iff_of_false (by simp) fun hacyclic ↦ hacyclic target hloop.transGen

/-! ## Numbering the targets -/

open Classical in
/-- How many targets can be reached from a name by one dependency or more. -/
noncomputable def height (g : RuleSet) (name : Text) : Nat :=
  g.rules.countP fun r ↦ decide (TransGen g.Depends name r.target)

theorem height_lt_of_depends (hacyclic : g.Acyclic) {target source : Text}
    (h : g.Depends target source) : g.height source < g.height target := by
  obtain ⟨-, -, -, hhas⟩ := id h
  obtain ⟨s, hfind⟩ := has_iff_exists_find?.mp hhas
  have htarget : s.target = source := target_of_find? hfind
  refine countP_lt_of_mem (fun r hr ↦ ?_) (mem_of_find? hfind) ?_ ?_
  · simp only [decide_eq_true_eq] at hr ⊢
    exact .head h hr
  · simpa [htarget] using hacyclic source
  · simpa [htarget] using TransGen.single h

/-! ## Scripts -/

theorem compile_eq_ok_iff {isolated : Bool} {script : Script} :
    g.compile isolated = .ok script ↔ g.infer.Acyclic ∧ script = g.infer.script isolated := by
  rw [← findCycle?_eq_none_iff]
  unfold compile
  cases g.infer.findCycle? with
  | none => simp [eq_comm]
  | some cycle => simp

theorem compile_eq_error_iff {isolated : Bool} {cycle : Cycle} :
    g.compile isolated = .error cycle ↔ g.infer.findCycle? = some cycle := by
  unfold compile
  cases g.infer.findCycle? with
  | none => simp
  | some found => simp

theorem call_mem_steps_block {isolated : Bool} {r : Rule} {callee : Text} :
    Step.call callee ∈ (g.block isolated r).steps ↔ callee ∈ r.sources ∧ g.has callee := by
  have hskip : Step.call callee ∉ g.skipSteps r := by
    unfold skipSteps
    grind
  have hcommands : Step.call callee ∉ (g.recipeOf r).flatMap (commandSteps isolated r) := by
    simp only [List.mem_flatMap, not_exists, not_and]
    intro c _
    unfold commandSteps
    grind
  simp [block, hskip, hcommands]

/-- The calls of a block go to what its target depends on. -/
theorem depends_of_call_mem {isolated : Bool} {b : Block} {callee : Text}
    (hblock : b ∈ (g.script isolated).blocks) (hcall : Step.call callee ∈ b.steps) :
    g.Depends b.label callee := by
  obtain ⟨r, hr, rfl⟩ := List.mem_map.mp hblock
  obtain ⟨hsource, hhas⟩ := call_mem_steps_block.mp hcall
  exact ⟨r, find?_target hr, hsource, hhas⟩

/-- The cycle check is exact.  A script is made exactly if the rules, with those that are inferred,
are free of cycles, and its targets can then be numbered so that every call goes to a smaller
number. -/
theorem cycle_check_exact (g : RuleSet) (isolated : Bool) :
    (g.findCycle? = none ↔ ∀ target, ¬TransGen g.Depends target target) ∧
      ((∃ script, g.compile isolated = .ok script) ↔
        ∀ target, ¬TransGen g.infer.Depends target target) ∧
      ∀ script, g.compile isolated = .ok script →
        ∃ number : Text → Nat, ∀ b ∈ script.blocks, ∀ callee, Step.call callee ∈ b.steps →
          callee ∈ g.infer.targets ∧ number callee < number b.label := by
  refine ⟨findCycle?_eq_none_iff, ?_, ?_⟩
  · constructor
    · rintro ⟨script, hscript⟩
      exact (compile_eq_ok_iff.mp hscript).1
    · intro hacyclic
      exact ⟨_, compile_eq_ok_iff.mpr ⟨hacyclic, rfl⟩⟩
  · intro script hscript
    obtain ⟨hacyclic, rfl⟩ := compile_eq_ok_iff.mp hscript
    refine ⟨g.infer.height, fun b hb callee hcall ↦ ?_⟩
    have hdepends := depends_of_call_mem hb hcall
    obtain ⟨-, -, -, hhas⟩ := id hdepends
    exact ⟨has_iff_mem_targets.mp hhas, height_lt_of_depends hacyclic hdepends⟩

end RuleSet

end BuildScript
