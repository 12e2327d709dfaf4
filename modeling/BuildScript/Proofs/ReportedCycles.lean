import BuildScript.Proofs.Dependency

/-!
# Cycles that are reported

The search finds a loop of different names, of which each depends on the next one and the last on
the first.  It is reported from its smallest name on.  Where a loop is begun makes no difference to
the dependencies along it, so the reported names depend on each other as the found ones do.
-/

namespace BuildScript

open Relation (TransGen)

namespace Cycle

/-! ## Loops -/

variable {R : Text → Text → Prop} {first start : Text} {names : List Text}

namespace IsLoop

/-- A loop may be begun at any of its names: the two parts of the chain change places. -/
theorem rotate {front back : List Text} (h : IsLoop R first names)
    (hsplit : first :: names = front ++ start :: back) : IsLoop R start (back ++ front) := by
  cases front with
  | nil =>
    obtain ⟨rfl, rfl⟩ := List.cons.inj hsplit
    rwa [List.append_nil]
  | cons _ front =>
    rw [List.cons_append] at hsplit
    obtain ⟨rfl, rfl⟩ := List.cons.inj hsplit
    constructor
    · have hperm : (first :: front ++ start :: back).Perm (start :: back ++ first :: front) :=
        List.perm_append_comm
      exact hperm.nodup h.nodup
    · have hchain := h.chain
      rw [List.append_assoc, List.cons_append, List.isChain_cons_split] at hchain
      rw [List.append_assoc, List.cons_append, List.isChain_cons_split]
      exact hchain.symm

theorem exists_related (h : IsLoop R first names) :
    ∀ name ∈ first :: names, ∃ next, R name next := by
  intro name hname
  obtain ⟨front, back, hsplit⟩ := List.append_of_mem hname
  obtain ⟨next, hstep, -⟩ := TransGen.head'_iff.mp (h.rotate hsplit).transGen
  exact ⟨next, hstep⟩

end IsLoop

/-! ## The smallest name -/

theorem least_mem (first : Text) (names : List Text) : least first names ∈ first :: names := by
  induction names generalizing first with
  | nil => exact List.mem_cons_self
  | cons name names ih =>
    rcases List.mem_cons.mp (ih (if name < first then name else first)) with heq | hmem
    · rw [least, heq]
      split <;> simp
    · exact List.mem_cons_of_mem _ (List.mem_cons_of_mem _ hmem)

theorem not_lt_least (first : Text) (names : List Text) :
    ∀ name ∈ first :: names, ¬name < least first names := by
  induction names generalizing first with
  | nil => simp [least]
  | cons other names ih =>
    -- The smaller of the two goes on, and the other one is no smaller than that.
    have hfirst : ¬first < if other < first then other else first := by
      split
      · exact List.lt_asymm ‹_›
      · exact List.lt_irrefl first
    have hother : ¬other < if other < first then other else first := by
      split
      · exact List.lt_irrefl other
      · assumption
    obtain ⟨hsmaller, hnames⟩ :=
      List.forall_mem_cons.mp (ih (if other < first then other else first))
    have hbound {name : Text} (hname : ¬name < if other < first then other else first) :
        ¬name < least first (other :: names) := by
      rw [List.not_lt] at hname hsmaller ⊢
      exact List.le_trans hsmaller hname
    exact List.forall_mem_cons.mpr ⟨hbound hfirst, List.forall_mem_cons.mpr ⟨hbound hother, hnames⟩⟩

/-- The cycle of a loop is the loop begun at its smallest name, and closed. -/
theorem IsLoop.ofLoop (h : IsLoop R first names) :
    ∃ start others, Cycle.ofLoop (first :: names) = ⟨start :: (others ++ [start])⟩ ∧
      IsLoop R start others ∧ ∀ name ∈ others, start < name := by
  obtain ⟨back, hback⟩ := exists_dropWhile_eq_cons (least_mem first names)
  have hsplit :=
    List.takeWhile_append_dropWhile (p := (· != least first names)) (l := first :: names)
  rw [hback] at hsplit
  generalize hfront : (first :: names).takeWhile (· != least first names) = front at hsplit
  have hloop : IsLoop R (least first names) (back ++ front) := h.rotate hsplit.symm
  refine ⟨least first names, back ++ front, ?_, hloop, fun name hname ↦ ?_⟩
  · rw [Cycle.ofLoop, hback, hfront]
    simp
  · have hne : least first names ≠ name := by
      rintro rfl
      exact (List.nodup_cons.mp hloop.nodup).1 hname
    have hmem : name ∈ first :: names := by
      rw [← hsplit, List.mem_append, List.mem_cons]
      exact (List.mem_append.mp hname).elim (fun hmem ↦ .inr (.inr hmem)) .inl
    by_contra hnot
    have hle := not_lt_least first names name hmem
    exact hne (List.le_antisymm (List.not_lt.mp hle) (List.not_lt.mp hnot))

end Cycle

namespace RuleSet

variable {g : RuleSet}

theorem exists_isLoop_of_findCycle? {cycle : Cycle} (h : g.findCycle? = some cycle) :
    ∃ first others, cycle = ⟨first :: (others ++ [first])⟩ ∧
      Cycle.IsLoop g.Depends first others ∧ ∀ name ∈ others, first < name := by
  unfold findCycle? at h
  cases hsearch : g.search [] [] g.targets with
  | ok clear => simp [hsearch] at h
  | error found =>
    obtain rfl : found = cycle := by simpa [hsearch] using h
    obtain ⟨first, others, rfl, hloop⟩ := exists_isLoop_of_search hsearch (.nil g g.targets)
    exact hloop.ofLoop

/-- A reported cycle is genuine: it names at least two targets, of which the last is the first
again, and each lists the next one among its sources.  It is simple: no other name comes twice.  And
it is begun at its smallest name. -/
theorem reported_cycle_genuine (g : RuleSet) (cycle : Cycle) (h : g.findCycle? = some cycle) :
    2 ≤ cycle.names.length ∧ cycle.names.head? = cycle.names.getLast? ∧
      (∀ name ∈ cycle.names, name ∈ g.targets) ∧
      (cycle.names.IsChain fun target source ↦
        ∃ r, g.find? target = some r ∧ source ∈ r.sources) ∧
      cycle.names.dropLast.Nodup ∧
      ∃ first ∈ cycle.names.head?, ∀ name ∈ cycle.names, name = first ∨ first < name := by
  obtain ⟨first, others, rfl, hloop, hleast⟩ := exists_isLoop_of_findCycle? h
  have hall (name : Text) (hname : name ∈ first :: (others ++ [first])) :
      name ∈ first :: others := by
    simpa [or_comm] using hname
  refine ⟨by simp, ?_, fun name hname ↦ ?_, ?_, ?_, first, rfl, fun name hname ↦ ?_⟩
  · rw [← List.cons_append, List.getLast?_concat]
    rfl
  · obtain ⟨next, r, hfind, -⟩ := hloop.exists_related name (hall name hname)
    exact has_iff_mem_targets.mp (has_iff_exists_find?.mpr ⟨r, hfind⟩)
  · refine hloop.chain.imp ?_
    rintro target source ⟨r, hfind, hsource, -⟩
    exact ⟨r, hfind, hsource⟩
  · rw [← List.cons_append, List.dropLast_concat]
    exact hloop.nodup
  · exact (List.mem_cons.mp (hall name hname)).imp_right (hleast name)

/-- Two targets outside a loop of three, and one of the loop that also lists a file and itself. -/
def knottedRules : RuleSet :=
  [⟨"d".toList, ["c.h".toList, "b".toList, "d".toList], []⟩,
    ⟨"a".toList, ["c".toList], []⟩, ⟨"c".toList, ["d".toList], []⟩,
    ⟨"b".toList, ["e".toList, "c".toList], []⟩, ⟨"e".toList, [], []⟩].foldl insert empty

theorem reported_cycle_genuine_knottedRules :
    knottedRules.findCycle? = some ⟨["b".toList, "c".toList, "d".toList, "b".toList]⟩ ∧
      ∃ r, knottedRules.find? "d".toList = some r ∧ "b".toList ∈ r.sources := by
  have hfound : knottedRules.findCycle? =
      some ⟨["b".toList, "c".toList, "d".toList, "b".toList]⟩ := by decide +kernel
  obtain ⟨-, -, -, hchain, -⟩ := reported_cycle_genuine knottedRules _ hfound
  exact ⟨hfound, hchain.tail.tail.rel⟩

end RuleSet

end BuildScript
