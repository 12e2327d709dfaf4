import BuildScript.Proofs.LinePlaces
import Mathlib.Data.List.SplitBy

/-!
# Lines that go on

The physical lines that are neither blank nor comments fall into groups, each of which ends with the
first line that has no backslash at its end.  A group makes up one logical line.  Joining looks for
the backslash in the text that was joined so far, which may hold others at its end; but a visible
line always adds something to this text, so only its own last character counts.
-/

namespace BuildScript

namespace LogicalLine

/-! ## Taking lines one by one -/

/-- Takes physical lines, the first of which has the number `number`, and their end.  Gives the line
that goes on after that, and the lines that are handed on. -/
def pushAll (b : Bindings) (pending : Option LogicalLine) (number : Nat) :
    List Text → Option LogicalLine × List LogicalLine
  | [] =>
    let (pending, ended) := flush b pending
    (pending, ended.toList)
  | physical :: more =>
    let (pending, ended) := push b pending number physical
    let (last, lines) := pushAll b pending (number + 1) more
    (last, ended.toList ++ lines)

/-! ## Groups of lines -/

/-- The lines that are neither blank nor comments, without carriage returns at their ends and with
their numbers. -/
def visibleLines (number : Nat) (physical : List Text) : List (Text × Nat) :=
  ((physical.map (Text.dropAtEnd '\r')).zipIdx number).filter fun line ↦ !isInvisible line.1

/-- The groups of some lines: a cut is made after every line that does not go on. -/
def groups (lines : List (Text × Nat)) : List (List (Text × Nat)) :=
  lines.splitBy fun line _ ↦ continues line.1

/-- The logical line that a group makes up: its lines without the backslashes at their ends, and
without the blanks before all but the first. -/
def ofGroup? : List (Text × Nat) → Option LogicalLine
  | [] => none
  | (first, number) :: later =>
    some ⟨number, withoutMark first ++
      later.flatMap fun line ↦ withoutMark (Text.trimStart line.1)⟩

theorem ofGroup?_append_singleton (group : List (Text × Nat)) (line : Text) (number : Nat) :
    ofGroup? (group ++ [(line, number)]) = some (extend (ofGroup? group) number line) := by
  cases group with
  | nil => simp [ofGroup?, extend]
  | cons first later => simp [ofGroup?, extend]

/-! ## Joining by groups -/

/-- A line goes on after an invisible one if it went on before, and after a visible one if that one
ends in a backslash. -/
theorem isSome_fst_join (pending : Option LogicalLine) (number : Nat) (line : Text) :
    (join pending number line).1.isSome =
      if isInvisible line then pending.isSome else continues (Text.dropAtEnd '\r' line) := by
  cases hline : isInvisible line with
  | true =>
    rw [join_of_isInvisible _ _ hline]
    rfl
  | false =>
    rw [join_of_visible _ _ hline]
    cases continues (Text.dropAtEnd '\r' line) <;> rfl

/-- The lines that are joined, before they are completed. -/
def joins (pending : Option LogicalLine) (number : Nat) : List Text → List LogicalLine
  | [] => pending.toList
  | physical :: more =>
    let (pending, ended) := join pending number physical
    ended.toList ++ joins pending (number + 1) more

theorem joins_cons (pending : Option LogicalLine) (number : Nat) (physical : Text)
    (more : List Text) :
    joins pending number (physical :: more) = (join pending number physical).2.toList ++
      joins (join pending number physical).1 (number + 1) more := rfl

theorem toList_bind_complete? (b : Bindings) (ended : Option LogicalLine) :
    (ended.bind (complete? b)).toList = ended.toList.filterMap (complete? b) := by
  cases ended with
  | none => rfl
  | some line => cases hline : complete? b line <;> simp [hline]

theorem pushAll_eq_joins (b : Bindings) (pending : Option LogicalLine) (number : Nat)
    (physical : List Text) :
    pushAll b pending number physical =
      (none, (joins pending number physical).filterMap (complete? b)) := by
  induction physical generalizing pending number with
  | nil => rw [joins, ← toList_bind_complete?, pushAll, flush]
  | cons line more ih =>
    rw [joins_cons, List.filterMap_append, ← toList_bind_complete?, pushAll, push]
    simp only [ih]

theorem visibleLines_cons_of_invisible {line : Text} (number : Nat) (more : List Text)
    (h : isInvisible line) :
    visibleLines number (line :: more) = visibleLines (number + 1) more := by
  simp [visibleLines, isInvisible_dropAtEnd, h]

theorem visibleLines_cons_of_visible {line : Text} (number : Nat) (more : List Text)
    (h : isInvisible line = false) :
    visibleLines number (line :: more) =
      (Text.dropAtEnd '\r' line, number) :: visibleLines (number + 1) more := by
  simp [visibleLines, isInvisible_dropAtEnd, h]

/-- Lines of which all but the last go on are one group. -/
theorem groups_eq_singleton {group : List (Text × Nat)} (hne : group ≠ [])
    (h : ∀ line ∈ group.dropLast, continues line.1) : groups group = [group] := by
  apply List.splitBy_of_isChain hne
  induction group with
  | nil => exact .nil
  | cons first later ih =>
    cases later with
    | nil => exact .singleton first
    | cons second later =>
      obtain ⟨hfirst, hlater⟩ := List.forall_mem_cons.mp h
      exact (ih (List.cons_ne_nil second later) hlater).cons_cons hfirst

theorem groups_append {opened : List (Text × Nat)} {last : Text × Nat} (rest : List (Text × Nat))
    (h : ∀ line ∈ opened, continues line.1) (hlast : continues last.1 = false) :
    groups (opened ++ [last] ++ rest) = (opened ++ [last]) :: groups rest :=
  calc
    groups (opened ++ [last] ++ rest) = groups (opened ++ [last]) ++ groups rest := by
      apply List.splitBy_append
      simp [hlast]
    _ = [opened ++ [last]] ++ groups rest := by
      rw [groups_eq_singleton (by simp) (by simpa using h)]
    _ = (opened ++ [last]) :: groups rest := List.singleton_append

/-- Lines that all go on are an unfinished group.  What is joined from it and the lines after it is
made up by the groups of them all. -/
theorem joins_eq_groups {opened : List (Text × Nat)} (h : ∀ line ∈ opened, continues line.1)
    (number : Nat) (physical : List Text) :
    joins (ofGroup? opened) number physical =
      (groups (opened ++ visibleLines number physical)).filterMap ofGroup? := by
  induction physical generalizing opened number with
  | nil =>
    have hnone : visibleLines number [] = [] := rfl
    rw [hnone, List.append_nil]
    cases opened with
    | nil => rfl
    | cons first later =>
      rw [groups_eq_singleton (List.cons_ne_nil first later) fun line hline ↦
        h line (List.dropLast_subset _ hline)]
      rfl
  | cons line more ih =>
    rw [joins_cons]
    cases hline : isInvisible line with
    | true =>
      rw [join_of_isInvisible _ _ hline, visibleLines_cons_of_invisible _ _ hline]
      exact ih h (number + 1)
    | false =>
      rw [join_of_visible _ _ hline, visibleLines_cons_of_visible _ _ hline, List.append_cons]
      cases hgoes : continues (Text.dropAtEnd '\r' line) with
      | true =>
        rw [if_pos rfl, ← ofGroup?_append_singleton]
        refine ih (fun other hother ↦ ?_) (number + 1)
        rcases List.mem_append.mp hother with hother | hother
        · exact h other hother
        · rw [List.mem_singleton.mp hother, hgoes]
      | false =>
        rw [if_neg Bool.false_ne_true, groups_append _ h hgoes,
          List.filterMap_cons_some (ofGroup?_append_singleton opened _ number)]
        exact congrArg _ (@ih [] (by simp) (number + 1))

-- The backslash that is left of the first line does not make the line with the number 4 go on.
example : joins none 1 ["a\\\\".toList, "# b \\".toList, "  \\".toList, " c".toList, "d \\".toList] =
    [⟨1, "a\\c".toList⟩, ⟨5, "d ".toList⟩] := by
  decide +kernel

/-! ## Numbers -/

theorem pairwise_visibleLines (number : Nat) (physical : List Text) :
    (visibleLines number physical).Pairwise fun line other ↦ line.2 < other.2 := by
  refine List.Pairwise.filter _ (List.pairwise_map.mp ?_)
  rw [List.zipIdx_map_snd]
  exact List.pairwise_lt_range'

theorem exists_mem_of_ofGroup? {group : List (Text × Nat)} {line : LogicalLine}
    (h : ofGroup? group = some line) : ∃ first ∈ group, first.2 = line.number := by
  cases group with
  | nil => cases h
  | cons first later =>
    obtain rfl := Option.some.inj h
    exact ⟨first, List.mem_cons_self, rfl⟩

/-- Groups keep the order of the lines, so what they make up has ascending numbers. -/
theorem pairwise_filterMap_groups {lines : List (Text × Nat)}
    (h : lines.Pairwise fun line other ↦ line.2 < other.2) :
    ((groups lines).filterMap ofGroup?).Pairwise fun line other ↦ line.number < other.number := by
  rw [← List.flatten_splitBy (fun line _ ↦ continues line.1) lines, List.pairwise_flatten] at h
  refine List.pairwise_filterMap.mpr (h.2.imp ?_)
  intro group later hbefore line hline other hother
  obtain ⟨first, hfirst, hnumber⟩ := exists_mem_of_ofGroup? hline
  obtain ⟨second, hsecond, hlater⟩ := exists_mem_of_ofGroup? hother
  rw [← hnumber, ← hlater]
  exact hbefore first hfirst second hsecond

theorem pairwise_number_filterMap_complete? (b : Bindings) {lines : List LogicalLine}
    (h : lines.Pairwise fun line other ↦ line.number < other.number) :
    ((lines.filterMap (complete? b)).map LogicalLine.number).Pairwise (· < ·) := by
  rw [List.pairwise_map, List.pairwise_filterMap]
  refine h.imp ?_
  intro line later hbefore ended hended other hother
  rw [number_of_complete? hended, number_of_complete? hother]
  exact hbefore

end LogicalLine

namespace RuleFile

open LogicalLine (complete? groups isInvisible ofGroup? push pushAll visibleLines)

/-- Bindings play no part in how lines are joined. -/
theorem map_line_joinedLines (b : Bindings) (pending : Option LogicalLine) (number : Nat)
    (physical : List Text) :
    (joinedLines b pending number physical).map JoinedLine.line =
      LogicalLine.joins pending number physical := by
  induction physical generalizing b pending number with
  | nil => simp [joinedLines, LogicalLine.joins, Function.comp_def]
  | cons line more ih =>
    rw [LogicalLine.joins_cons, joinedLines]
    simp only []
    cases (LogicalLine.join pending number line).2 with
    | none => exact ih b _ _
    | some ended => exact congrArg (ended :: ·) (ih _ _ _)

/-- Joining goes by groups.  When physical lines are taken one by one and then their end, the lines
handed on are those that the groups of the visible lines make up, with the number of the first line
of the group, so their numbers ascend, and no line goes on after the end.  Whether a line goes on
after a visible one depends on that one alone.  And in a rule file, in which definitions take effect
for the lines after them, the same groups are joined. -/
theorem lines_joined_by_groups (b : Bindings) (physical : List Text) :
    pushAll b none 1 physical =
        (none, (groups (visibleLines 1 physical)).filterMap fun group ↦
          (ofGroup? group).bind (complete? b)) ∧
      ((pushAll b none 1 physical).2.map LogicalLine.number).Pairwise (· < ·) ∧
      (∀ pending number line, (push b pending number line).1.isSome =
        if isInvisible line then pending.isSome
        else (Text.dropAtEnd '\r' line).getLast? == some '\\') ∧
      ∀ text, (rawLines b text).map JoinedLine.line =
        (groups (visibleLines 1 text.lines)).filterMap ofGroup? := by
  have hjoins (physical : List Text) : LogicalLine.joins none 1 physical =
      (groups (visibleLines 1 physical)).filterMap ofGroup? :=
    @LogicalLine.joins_eq_groups [] (by simp) 1 physical
  have hnumbers := LogicalLine.pairwise_filterMap_groups
    (LogicalLine.pairwise_visibleLines 1 physical)
  refine ⟨?_, ?_, ?_, fun text ↦ ?_⟩
  · rw [LogicalLine.pushAll_eq_joins, hjoins, List.filterMap_filterMap]
  · rw [LogicalLine.pushAll_eq_joins, hjoins]
    exact LogicalLine.pairwise_number_filterMap_complete? b hnumbers
  · exact LogicalLine.isSome_fst_join
  · rw [rawLines, map_line_joinedLines, hjoins]

end RuleFile

end BuildScript
