import BuildScript.RuleFile.Reader
import Mathlib.Data.List.Basic
import Mathlib.Data.List.TakeWhile

/-!
# The logical lines of a rule file

A definition takes effect for the lines after it, so the logical lines of a rule file depend on the
definitions among them, but on nothing else that is read.  They are given here by a recursion that
keeps the bindings only and goes on after a line that is at fault.  To read a rule file is to accept
these lines one after another.
-/

namespace BuildScript

namespace LogicalLine

def statement? (line : LogicalLine) : Option Statement := Statement.ofLine? line.text

end LogicalLine

namespace Bindings

/-- The bindings for what comes after a logical line. -/
def after (b : Bindings) (line : LogicalLine) : Bindings :=
  match line.statement? with
  | some (.definition d) => b.assign d
  | _ => b

end Bindings

namespace RuleFile

/-- The logical lines that end in physical lines, the first of which has the number `number`, or
after them. -/
def handedLines (b : Bindings) (pending : Option LogicalLine) (number : Nat) :
    List Text → List LogicalLine
  | [] => (LogicalLine.flush b pending).2.toList
  | physical :: more =>
    let (pending, handed) := LogicalLine.push b pending number physical
    match handed with
    | none => handedLines b pending (number + 1) more
    | some line => line :: handedLines (b.after line) pending (number + 1) more

theorem handedLines_nil (b : Bindings) (pending : Option LogicalLine) (number : Nat) :
    handedLines b pending number [] = (pending.bind (LogicalLine.complete? b)).toList := rfl

theorem handedLines_cons_of_none {b : Bindings} {pending : Option LogicalLine} {number : Nat}
    {line : Text} (more : List Text)
    (h : (LogicalLine.join pending number line).2.bind (LogicalLine.complete? b) = none) :
    handedLines b pending number (line :: more) =
      handedLines b (LogicalLine.join pending number line).1 (number + 1) more := by
  have hpush : LogicalLine.push b pending number line =
      ((LogicalLine.join pending number line).1, none) := Prod.ext rfl h
  simp only [handedLines, hpush]

theorem handedLines_cons_of_some {b : Bindings} {pending : Option LogicalLine} {number : Nat}
    {line : Text} {ended : LogicalLine} (more : List Text)
    (h : (LogicalLine.join pending number line).2.bind (LogicalLine.complete? b) = some ended) :
    handedLines b pending number (line :: more) = ended ::
      handedLines (b.after ended) (LogicalLine.join pending number line).1 (number + 1) more := by
  have hpush : LogicalLine.push b pending number line =
      ((LogicalLine.join pending number line).1, some ended) := Prod.ext rfl h
  simp only [handedLines, hpush]

/-- The logical lines of a rule file, with the references in them expanded. -/
def logicalLines (b : Bindings) (text : Text) : List LogicalLine := handedLines b none 1 text.lines

end RuleFile

/-! ## Lines before expansion -/

/-- A logical line as it is joined, and the bindings that its references are expanded with. -/
structure JoinedLine where
  bindings : Bindings
  line : LogicalLine
  deriving DecidableEq

namespace JoinedLine

/-- The line as it is handed on, if it is not dropped. -/
def handed? (joined : JoinedLine) : Option LogicalLine :=
  LogicalLine.complete? joined.bindings joined.line

/-- The bindings for what comes after the line. -/
def after (joined : JoinedLine) : Bindings :=
  joined.handed?.elim joined.bindings joined.bindings.after

end JoinedLine

namespace RuleFile

/-- The logical lines as they are joined from physical lines, the first of which has the number
`number`; lines that will be dropped are among them. -/
def joinedLines (b : Bindings) (pending : Option LogicalLine) (number : Nat) :
    List Text → List JoinedLine
  | [] => pending.toList.map (JoinedLine.mk b)
  | physical :: more =>
    let (pending, ended) := LogicalLine.join pending number physical
    match ended with
    | none => joinedLines b pending (number + 1) more
    | some line => ⟨b, line⟩ :: joinedLines (JoinedLine.after ⟨b, line⟩) pending (number + 1) more

/-- The logical lines of a rule file as they are written. -/
def rawLines (b : Bindings) (text : Text) : List JoinedLine := joinedLines b none 1 text.lines

theorem handedLines_eq_filterMap (b : Bindings) (pending : Option LogicalLine) (number : Nat)
    (physical : List Text) :
    handedLines b pending number physical =
      (joinedLines b pending number physical).filterMap JoinedLine.handed? := by
  induction physical generalizing b pending number with
  | nil =>
    cases pending with
    | none => rfl
    | some line =>
      have hline : (JoinedLine.mk b line).handed? = LogicalLine.complete? b line := rfl
      rw [handedLines_nil, joinedLines, Option.bind_some, Option.toList_some, List.map_singleton,
        List.filterMap_cons, hline]
      cases LogicalLine.complete? b line <;> rfl
  | cons line more ih =>
    unfold handedLines joinedLines LogicalLine.push
    simp only []
    cases (LogicalLine.join pending number line).2 with
    | none => exact ih _ _ _
    | some ended =>
      rw [Option.bind_some, List.filterMap_cons]
      cases hhanded : LogicalLine.complete? b ended with
      | none =>
        simp only [JoinedLine.handed?, JoinedLine.after, hhanded]
        exact ih _ _ _
      | some handed =>
        simp only [JoinedLine.handed?, JoinedLine.after, hhanded]
        exact congrArg _ (ih _ _ _)

/-- What is handed on is what was joined, expanded, less the lines that are dropped. -/
theorem logicalLines_eq_filterMap (b : Bindings) (text : Text) :
    logicalLines b text = (rawLines b text).filterMap JoinedLine.handed? :=
  handedLines_eq_filterMap b none 1 text.lines

end RuleFile

/-! ## Lines after others -/

namespace Text

theorem exists_append_dropAtEnd (mark : Char) (text : Text) :
    ∃ marks, text = dropAtEnd mark text ++ marks ∧ ∀ c ∈ marks, c = mark := by
  refine ⟨(text.reverse.takeWhile (· == mark)).reverse, ?_, fun c hc ↦ ?_⟩
  · rw [dropAtEnd, ← List.reverse_append, List.takeWhile_append_dropWhile, List.reverse_reverse]
  · exact beq_iff_eq.mp (List.all_eq_true.mp List.all_takeWhile c (List.mem_reverse.mp hc))

theorem getLast?_trimStart {text : Text} (h : allBlank text = false) :
    trimStart text ≠ [] ∧ (trimStart text).getLast? = text.getLast? := by
  have hne : trimStart text ≠ [] := by
    intro hnil
    rw [allBlank, List.all_eq_true.mpr (List.dropWhile_eq_nil_iff.mp hnil)] at h
    cases h
  have htext : text.takeWhile isBlank ++ trimStart text = text := List.takeWhile_append_dropWhile
  refine ⟨hne, ?_⟩
  calc
    (trimStart text).getLast? = (text.takeWhile isBlank ++ trimStart text).getLast? :=
      (List.getLast?_append_of_ne_nil _ hne).symm
    _ = text.getLast? := by rw [htext]

end Text

namespace LogicalLine

variable {pending : Option LogicalLine} {line : Text} {physical : List Text}

theorem isInvisible_dropAtEnd (line : Text) :
    isInvisible (Text.dropAtEnd '\r' line) = isInvisible line := by
  obtain ⟨marks, hline, hmarks⟩ := Text.exists_append_dropAtEnd '\r' line
  have hblank : marks.all Text.isBlank := by
    rw [List.all_eq_true]
    intro c hc
    rw [hmarks c hc]
    decide
  generalize Text.dropAtEnd '\r' line = front at hline ⊢
  subst hline
  cases front with
  | nil => simp [isInvisible, Text.allBlank, hblank]
  | cons c front => simp [isInvisible, Text.allBlank, hblank]

theorem join_of_isInvisible (pending : Option LogicalLine) (number : Nat) (h : isInvisible line) :
    join pending number line = (pending, none) := by
  unfold join
  simp only []
  rw [isInvisible_dropAtEnd, if_pos h]

/-- Whether a line goes on in the next one. -/
def continues (line : Text) : Bool := line.getLast? == some '\\'

/-- A line without the backslash at its end, if it has one. -/
def withoutMark (line : Text) : Text := (Text.dropLast? '\\' line).getD line

/-- What goes on, with a line added to it. -/
def extend (pending : Option LogicalLine) (number : Nat) (line : Text) : LogicalLine :=
  match pending with
  | none => ⟨number, withoutMark line⟩
  | some start => ⟨start.number, start.text ++ withoutMark (Text.trimStart line)⟩

theorem dropLast?_of_continues {text : Text} (h : continues text) :
    Text.dropLast? '\\' text = some (withoutMark text) := by
  have hlast : text.getLast? = some '\\' := beq_iff_eq.mp h
  simp [withoutMark, Text.dropLast?, hlast]

theorem dropLast?_of_not_continues {text : Text} (h : continues text = false) :
    Text.dropLast? '\\' text = none := by
  have hlast : text.getLast? ≠ some '\\' := beq_eq_false_iff_ne.mp h
  simp [Text.dropLast?, hlast]

theorem withoutMark_of_not_continues {text : Text} (h : continues text = false) :
    withoutMark text = text := by
  rw [withoutMark, dropLast?_of_not_continues h, Option.getD_none]

/-- A text goes on if its end does, and its end loses the mark. -/
theorem continues_append (front : Text) {rest : Text} (h : rest ≠ []) :
    continues (front ++ rest) = continues rest := by
  rw [continues, continues, List.getLast?_append_of_ne_nil _ h]

theorem withoutMark_append (front : Text) {rest : Text} (h : rest ≠ []) :
    withoutMark (front ++ rest) = front ++ withoutMark rest := by
  unfold withoutMark Text.dropLast?
  rw [List.getLast?_append_of_ne_nil _ h, List.dropLast_append_of_ne_nil h]
  split <;> rfl

/-- Whether a visible line ends what goes on is seen at this line alone. -/
theorem join_of_visible (pending : Option LogicalLine) (number : Nat)
    (hvisible : isInvisible line = false) :
    join pending number line =
      if continues (Text.dropAtEnd '\r' line) then
        (some (extend pending number (Text.dropAtEnd '\r' line)), none)
      else (none, some (extend pending number (Text.dropAtEnd '\r' line))) := by
  rw [← isInvisible_dropAtEnd] at hvisible
  unfold join
  simp only []
  generalize Text.dropAtEnd '\r' line = line at hvisible ⊢
  obtain ⟨hne, htrim⟩ := Text.getLast?_trimStart (Bool.or_eq_false_iff.mp hvisible).1
  rw [if_neg (by simp [hvisible])]
  cases pending with
  | none =>
    cases hline : continues line with
    | true => simp [extend, dropLast?_of_continues hline]
    | false => simp [extend, dropLast?_of_not_continues hline, withoutMark_of_not_continues hline]
  | some start =>
    -- What is added is not empty, so the joined text ends as the line does.
    have hend : continues (start.text ++ Text.trimStart line) = continues line :=
      calc
        continues (start.text ++ Text.trimStart line) = continues (Text.trimStart line) :=
          continues_append _ hne
        _ = continues line := by rw [continues, continues, htrim]
    have hmark := withoutMark_append start.text hne
    cases hline : continues line with
    | true => simp [extend, dropLast?_of_continues (hend.trans hline), hmark]
    | false =>
      rw [withoutMark_of_not_continues (hend.trans hline)] at hmark
      simp [extend, dropLast?_of_not_continues (hend.trans hline), ← hmark]

theorem fst_join_eq_none (pending : Option LogicalLine) (number : Nat)
    (hvisible : isInvisible line = false)
    (hlast : (Text.dropAtEnd '\r' line).getLast? ≠ some '\\') :
    (join pending number line).1 = none := by
  have hends : ¬continues (Text.dropAtEnd '\r' line) := by simpa [continues] using hlast
  rw [join_of_visible pending number hvisible, if_neg hends]

/-- The physical lines that are neither blank nor comments. -/
def visible (physical : List Text) : List Text := physical.filter fun line ↦ !isInvisible line

/-- No line goes on after physical lines: the last visible one does not end in a backslash, and if
there is none, then no line went on before. -/
structure Closes (pending : Option LogicalLine) (physical : List Text) : Prop where
  last : ∀ line ∈ (visible physical).getLast?, (Text.dropAtEnd '\r' line).getLast? ≠ some '\\'
  pending : visible physical = [] → pending = none

theorem Closes.of_cons (number : Nat) (h : Closes pending (line :: physical)) :
    Closes (join pending number line).1 physical := by
  cases hline : isInvisible line with
  | true =>
    have hvisible : visible (line :: physical) = visible physical := by simp [visible, hline]
    rw [join_of_isInvisible pending number hline]
    exact ⟨hvisible ▸ h.last, hvisible ▸ h.pending⟩
  | false =>
    have hvisible : visible (line :: physical) = line :: visible physical := by
      simp [visible, hline]
    have hlast := h.last
    rw [hvisible, List.getLast?_cons] at hlast
    constructor
    · intro last hmem
      exact hlast last (by simp [Option.mem_def.mp hmem])
    · intro hnil
      exact fst_join_eq_none pending number hline (hlast line (by simp [hnil]))

end LogicalLine

namespace RuleFile

/-- Physical lines are read after others with the bindings that those leave. -/
theorem handedLines_append {pending : Option LogicalLine} {first : List Text} (b : Bindings)
    (number : Nat) (second : List Text) (h : LogicalLine.Closes pending first) :
    handedLines b pending number (first ++ second) = handedLines b pending number first ++
      handedLines ((handedLines b pending number first).foldl Bindings.after b) none
        (number + first.length) second := by
  induction first generalizing b pending number with
  | nil =>
    obtain rfl : pending = none := h.pending rfl
    rfl
  | cons line first ih =>
    have hnumber : number + (line :: first).length = number + 1 + first.length := by
      rw [List.length_cons]
      omega
    rw [hnumber, List.cons_append]
    cases hended : (LogicalLine.join pending number line).2.bind (LogicalLine.complete? b) with
    | none =>
      rw [handedLines_cons_of_none _ hended, handedLines_cons_of_none _ hended]
      exact ih b (number + 1) (h.of_cons number)
    | some ended =>
      rw [handedLines_cons_of_some _ hended, handedLines_cons_of_some _ hended]
      exact congrArg _ (ih (b.after ended) (number + 1) (h.of_cons number))

end RuleFile

/-! ## Reading -/

namespace Reader

/-- The same reader before another line that goes on. -/
def withPending (reader : Reader) (pending : Option LogicalLine) : Reader :=
  { reader with pending := pending }

/-- The line that goes on plays no part when another one is accepted. -/
theorem accept_withPending (reader : Reader) (pending : Option LogicalLine) (line : LogicalLine) :
    (reader.withPending pending).accept line =
      (reader.accept line).map (·.withPending pending) := by
  unfold accept
  cases hstatement : Statement.ofLine? line.text with
  | none => rfl
  | some statement =>
    cases statement with
    | command body =>
      simp only [execute, withPending]
      cases reader.current <;> rfl
    | definition d => rfl
    | header h =>
      simp only [execute, openRule, withPending]
      split <;> rfl

/-- What an accepted line does to a reader. -/
inductive Accepts (reader : Reader) (line : LogicalLine) : Reader → Prop
  | command {body target : Text} (hline : line.statement? = some (.command body))
      (hcurrent : reader.current = some target) :
      Accepts reader line
        { reader with rules := reader.rules.addCommand target (Command.ofText body) }
  | definition {d : Definition} (hline : line.statement? = some (.definition d)) :
      Accepts reader line { reader with bindings := reader.bindings.assign d, current := none }
  | header {h : Header} {target : Text} (hline : line.statement? = some (.header h))
      (htargets : h.targets = [target]) :
      Accepts reader line
        { reader with
          rules := reader.rules.insert (h.rule target)
          current := some (Text.undoubleDollars target) }

/-- What is wrong with a line that a reader does not accept. -/
inductive Rejects (reader : Reader) (line : LogicalLine) : Fault → Prop
  | unrecognised (hline : line.statement? = none) : Rejects reader line .unrecognised
  | targetCount {h : Header} (hline : line.statement? = some (.header h))
      (htargets : h.targets.length ≠ 1) : Rejects reader line (.targetCount h.targets.length)
  | orphanCommand {body : Text} (hline : line.statement? = some (.command body))
      (hcurrent : reader.current = none) : Rejects reader line .orphanCommand

/-- A line is accepted or rejected, and nothing else can happen. -/
theorem accept_cases (reader : Reader) (line : LogicalLine) :
    (∃ reader', reader.accept line = .ok reader' ∧ reader.Accepts line reader') ∨
      ∃ fault, reader.accept line = .error ⟨fault, line⟩ ∧ reader.Rejects line fault := by
  unfold accept
  cases hline : Statement.ofLine? line.text with
  | none => exact .inr ⟨_, rfl, .unrecognised hline⟩
  | some statement =>
    cases statement with
    | command body =>
      cases hcurrent : reader.current with
      | none =>
        refine .inr ⟨_, ?_, .orphanCommand hline hcurrent⟩
        simp only [execute, hcurrent]
        rfl
      | some target =>
        refine .inl ⟨_, ?_, .command hline hcurrent⟩
        simp only [execute, hcurrent]
        rfl
    | definition d => exact .inl ⟨_, rfl, .definition hline⟩
    | header h =>
      by_cases htargets : h.targets.length = 1
      · obtain ⟨target, htarget⟩ := List.length_eq_one_iff.mp htargets
        refine .inl ⟨_, ?_, .header hline htarget⟩
        simp only [execute, openRule, htarget]
        rfl
      · refine .inr ⟨_, ?_, .targetCount hline htargets⟩
        simp only [execute, openRule]
        split
        · rename_i target htarget
          simp [htarget] at htargets
        · rfl

theorem accepts_of_accept {reader reader' : Reader} {line : LogicalLine}
    (h : reader.accept line = .ok reader') : reader.Accepts line reader' := by
  rcases reader.accept_cases line with ⟨_, hok, haccepts⟩ | ⟨_, herror, _⟩
  · rw [hok, Except.ok.injEq] at h
    exact h ▸ haccepts
  · simp [herror] at h

/-- An accepted line changes the bindings only if it is a definition. -/
theorem Accepts.bindings_eq {reader reader' : Reader} {line : LogicalLine}
    (h : reader.Accepts line reader') : reader'.bindings = reader.bindings.after line := by
  cases h with
  | command hline => simp [Bindings.after, hline]
  | definition hline => simp [Bindings.after, hline]
  | header hline => simp [Bindings.after, hline]

theorem take_of_none {reader : Reader} {taken : Option LogicalLine × Option LogicalLine}
    (h : taken.2 = none) : reader.take taken = .ok (reader.withPending taken.1) := by
  obtain ⟨pending, handed⟩ := taken
  obtain rfl : handed = none := h
  rfl

theorem take_of_some {reader : Reader} {taken : Option LogicalLine × Option LogicalLine}
    {line : LogicalLine} (h : taken.2 = some line) :
    reader.take taken = (reader.withPending taken.1).accept line := by
  obtain ⟨pending, handed⟩ := taken
  obtain rfl : handed = some line := h
  rfl

/-- To read physical lines is to accept the logical lines that they make up. -/
theorem feedAll_eq_foldlM (reader : Reader) (number : Nat) (physical : List Text) :
    reader.feedAll number physical =
      (RuleFile.handedLines reader.bindings reader.pending number physical).foldlM accept
        (reader.withPending none) := by
  induction physical generalizing reader number with
  | nil =>
    unfold feedAll
    cases hended : reader.pending.bind (LogicalLine.complete? reader.bindings) with
    | none =>
      have hnone : RuleFile.handedLines reader.bindings reader.pending number [] = [] :=
        congrArg Option.toList hended
      rw [take_of_none hended, hnone]
      rfl
    | some line =>
      have hsome : RuleFile.handedLines reader.bindings reader.pending number [] = [line] :=
        congrArg Option.toList hended
      rw [take_of_some hended, hsome, List.foldlM_cons]
      simp [LogicalLine.flush]
  | cons line more ih =>
    rw [feedAll_cons, feed]
    cases hended : (LogicalLine.join reader.pending number line).2.bind
        (LogicalLine.complete? reader.bindings) with
    | none =>
      rw [RuleFile.handedLines_cons_of_none more hended, take_of_none hended]
      exact ih _ _
    | some ended =>
      rw [RuleFile.handedLines_cons_of_some more hended, take_of_some hended,
        List.foldlM_cons, accept_withPending, accept_withPending]
      cases haccept : reader.accept ended with
      | error rejection => rfl
      | ok reader' =>
        -- The reader goes on with the bindings after the line, as the recursion on lines does.
        have hbindings : reader'.bindings = reader.bindings.after ended :=
          (accepts_of_accept haccept).bindings_eq
        rw [← hbindings]
        exact ih _ _

end Reader

namespace RuleFile

theorem parse_eq (b : Bindings) (text : Text) :
    parse b text =
      match (logicalLines b text).foldlM Reader.accept (Reader.start b) with
      | .error rejection =>
        .error ⟨rejection.fault, rejection.line, Span.ofLine text rejection.line.number⟩
      | .ok reader => .ok reader.rules := by
  unfold parse
  rw [Reader.feedAll_eq_foldlM]
  rfl

end RuleFile

end BuildScript
