import BuildScript.Proofs.OneLine
import BuildScript.Proofs.Ownership

/-!
# Places of lines

A logical line has the number of its first physical line, and this number is all by which its place
in the text enters the reading.  So if two texts have the same logical lines up to their numbers,
the same rules are read from both, or the same line is at fault and only its place is another.
-/

namespace BuildScript

/-! ## Lines of a text -/

namespace Text

theorem byteLength_append (first second : Text) :
    byteLength (first ++ second) = byteLength first + byteLength second := by
  induction first with
  | nil => exact (Nat.zero_add _).symm
  | cons c first ih =>
    rw [List.cons_append, byteLength, byteLength, ih]
    omega

theorem endsLine_append_newline (line : Text) : EndsLine (line ++ ['\n']) := by
  simp [EndsLine]

theorem EndsLine.append {first second : Text} (hfirst : EndsLine first)
    (hsecond : EndsLine second) : EndsLine (first ++ second) := by
  rcases hsecond with rfl | hsecond
  · rwa [List.append_nil]
  · exact .inr (by rw [List.getLast?_append, hsecond, Option.some_or])

theorem EndsLine.of_append {first second : Text} (h : EndsLine (first ++ second)) :
    EndsLine second := by
  induction first with
  | nil => exact h
  | cons c first ih => exact ih h.of_cons

theorem EndsLine.exists_lines_eq_cons {c : Char} {rest : Text} (h : EndsLine (c :: rest))
    (hc : c ≠ '\n') : ∃ line more, lines rest = line :: more := by
  apply List.exists_cons_of_ne_nil
  apply lines_ne_nil
  rintro rfl
  simp [EndsLine, hc] at h

/-- A text that ends with a line is made up of its lines. -/
theorem EndsLine.flatMap_lines {text : Text} (h : EndsLine text) :
    (lines text).flatMap (· ++ ['\n']) = text := by
  induction text with
  | nil => rfl
  | cons c rest ih =>
    have hrest := ih h.of_cons
    by_cases hc : c = '\n'
    · rw [lines, if_pos hc, List.flatMap_cons, hrest, hc]
      rfl
    · obtain ⟨line, more, hlines⟩ := h.exists_lines_eq_cons hc
      rw [hlines] at hrest
      rw [lines, if_neg hc, hlines, ← hrest]
      rfl

theorem length_lines_cons {c : Char} (hc : c ≠ '\n') (rest : Text) :
    (lines (c :: rest)).length = max 1 (lines rest).length := by
  rw [lines, if_neg hc]
  cases lines rest with
  | nil => rfl
  | cons line more => simp

/-- A text can be cut before each of its lines. -/
theorem exists_lines_before {text : Text} {count : Nat} (h : count < (lines text).length) :
    ∃ front rest : Text, text = front ++ rest ∧ EndsLine front ∧ (lines front).length = count ∧
      rest ≠ [] := by
  induction text generalizing count with
  | nil => simp [lines] at h
  | cons c text ih =>
    cases count with
    | zero => exact ⟨[], c :: text, rfl, .inl rfl, rfl, List.cons_ne_nil c text⟩
    | succ count =>
      by_cases hc : c = '\n'
      · subst hc
        have hless : count < (lines text).length := by simpa [lines] using h
        obtain ⟨front, rest, rfl, hfront, hcount, hrest⟩ := ih hless
        have hends : EndsLine ('\n' :: front) := (endsLine_append_newline []).append hfront
        exact ⟨'\n' :: front, rest, rfl, hends, by simp [lines, hcount], hrest⟩
      · -- The line that the character stands on ends within the front.
        rw [length_lines_cons hc] at h
        have hless : count + 1 < (lines text).length := by omega
        obtain ⟨front, rest, rfl, hfront, hcount, hrest⟩ := ih hless
        have hne : front ≠ [] := by
          rintro rfl
          simp [lines] at hcount
        have hends : EndsLine (c :: front) := by
          rw [EndsLine, List.getLast?_cons_of_ne_nil hne]
          exact .inr (hfront.resolve_left hne)
        refine ⟨c :: front, rest, rfl, hends, ?_, hrest⟩
        rw [length_lines_cons hc]
        omega

end Text

namespace Span

theorem ofLines?_append (offset : Nat) (first second : List Text) :
    ofLines? offset first.length (first ++ second) =
      ofLines? (offset + Text.byteLength (first.flatMap (· ++ ['\n']))) 0 second := by
  induction first generalizing offset with
  | nil => rfl
  | cons line first ih =>
    have hfeed : Text.byteLength ['\n'] = 1 := rfl
    rw [List.length_cons, List.cons_append, ofLines?, ih, List.flatMap_cons,
      Text.byteLength_append, Text.byteLength_append, hfeed, ← Nat.add_assoc, ← Nat.add_assoc]

/-- The extent of a line begins after the lines before it. -/
theorem ofLines?_lines_append {front rest line : Text} {more : List Text} (hfront : front.EndsLine)
    (hrest : rest.lines = line :: more) :
    ofLines? 0 front.lines.length (front ++ rest).lines =
      some ⟨front.byteLength, (Text.dropAtEnd '\r' line).byteLength⟩ := by
  rw [Text.lines_append hfront, ofLines?_append, hfront.flatMap_lines, hrest, Nat.zero_add]
  rfl

theorem ofLine_append {front rest line : Text} {more : List Text} (hfront : front.EndsLine)
    (hrest : rest.lines = line :: more) :
    ofLine (front ++ rest) (front.lines.length + 1) =
      ⟨front.byteLength, (Text.dropAtEnd '\r' line).byteLength⟩ := by
  rw [ofLine, Nat.add_sub_cancel, ofLines?_lines_append hfront hrest, Option.getD_some]

end Span

/-! ## Numbers of logical lines -/

namespace LogicalLine

variable {pending : Option LogicalLine} {number : Nat}

/-- The same line with another number. -/
def renumber (f : Nat → Nat) (line : LogicalLine) : LogicalLine := ⟨f line.number, line.text⟩

theorem renumber_of_eq {f : Nat → Nat} {line : LogicalLine} (h : f line.number = line.number) :
    line.renumber f = line := by
  rw [renumber, h]

/-- The lines that are joined have numbers in a range that reaches up to the physical line. -/
theorem number_of_mem_join {low : Nat} (physical : Text) (hlow : low ≤ number)
    (hpending : ∀ start ∈ pending, low ≤ start.number ∧ start.number < number) :
    (∀ line ∈ (join pending number physical).1, low ≤ line.number ∧ line.number < number + 1) ∧
      ∀ line ∈ (join pending number physical).2, low ≤ line.number ∧ line.number < number + 1 := by
  unfold join
  grind

theorem join_renumber (f : Nat → Nat) (pending : Option LogicalLine) (number : Nat)
    (physical : Text) :
    join (pending.map (renumber f)) (f number) physical =
      ((join pending number physical).1.map (renumber f),
        (join pending number physical).2.map (renumber f)) := by
  unfold join renumber
  grind

theorem complete?_renumber (b : Bindings) (f : Nat → Nat) (line : LogicalLine) :
    complete? b (line.renumber f) = (complete? b line).map (renumber f) := by
  unfold complete?
  rw [Option.map_map]
  rfl

theorem number_of_complete? {b : Bindings} {line ended : LogicalLine}
    (h : complete? b line = some ended) : ended.number = line.number := by
  obtain ⟨body, -, rfl⟩ := Option.map_eq_some_iff.mp h
  rfl

end LogicalLine

namespace RuleFile

open LogicalLine (renumber)

theorem number_of_mem_handedLines {b : Bindings} {pending : Option LogicalLine} {low number : Nat}
    {physical : List Text} (hlow : low ≤ number)
    (hpending : ∀ start ∈ pending, low ≤ start.number ∧ start.number < number) :
    ∀ line ∈ handedLines b pending number physical,
      low ≤ line.number ∧ line.number < number + physical.length := by
  induction physical generalizing b pending number with
  | nil =>
    intro line hline
    obtain ⟨start, hstart, hended⟩ := Option.bind_eq_some_iff.mp (Option.mem_toList.mp hline)
    rw [LogicalLine.number_of_complete? hended]
    exact hpending start hstart
  | cons first more ih =>
    have hjoin := LogicalLine.number_of_mem_join first hlow hpending
    have hmore (c : Bindings) := ih (b := c) (by omega : low ≤ number + 1) hjoin.1
    have hlength : number + (first :: more).length = number + 1 + more.length := by
      rw [List.length_cons]
      omega
    rw [hlength]
    cases hended : (LogicalLine.join pending number first).2.bind (LogicalLine.complete? b) with
    | none =>
      rw [handedLines_cons_of_none more hended]
      exact hmore b
    | some line =>
      obtain ⟨ended, hmem, hcomplete⟩ := Option.bind_eq_some_iff.mp hended
      have hbounds := hjoin.2 ended hmem
      rw [← LogicalLine.number_of_complete? hcomplete] at hbounds
      rw [handedLines_cons_of_some more hended, List.forall_mem_cons]
      exact ⟨by omega, hmore (b.after line)⟩

/-- The number of a logical line is that of a line of the text. -/
theorem number_of_mem_logicalLines {b : Bindings} {text : Text} {line : LogicalLine}
    (h : line ∈ logicalLines b text) : 1 ≤ line.number ∧ line.number ≤ text.lines.length := by
  have hbounds := number_of_mem_handedLines (Nat.le_refl 1) (by simp) line h
  omega

/-- If physical lines get other numbers that still go up by one, so do the logical lines. -/
theorem handedLines_renumber {f : Nat → Nat} {number : Nat} (hf : ∀ n ≥ number, f (n + 1) = f n + 1)
    (b : Bindings) (pending : Option LogicalLine) (physical : List Text) :
    handedLines b (pending.map (renumber f)) (f number) physical =
      (handedLines b pending number physical).map (renumber f) := by
  induction physical generalizing b pending number with
  | nil =>
    rw [handedLines_nil, handedLines_nil]
    cases pending with
    | none => rfl
    | some start =>
      rw [Option.map_some, Option.bind_some, Option.bind_some, LogicalLine.complete?_renumber]
      cases LogicalLine.complete? b start <;> rfl
  | cons first more ih =>
    have hstep (c : Bindings) := ih (fun n (hn : n ≥ number + 1) ↦ hf n (by omega)) c
      (LogicalLine.join pending number first).1
    rw [hf number (Nat.le_refl number)] at hstep
    have hended' : (LogicalLine.join (pending.map (renumber f)) (f number) first).2.bind
        (LogicalLine.complete? b) = ((LogicalLine.join pending number first).2.bind
          (LogicalLine.complete? b)).map (renumber f) := by
      rw [LogicalLine.join_renumber]
      cases (LogicalLine.join pending number first).2 with
      | none => rfl
      | some line => exact LogicalLine.complete?_renumber b f line
    cases hended : (LogicalLine.join pending number first).2.bind (LogicalLine.complete? b) with
    | none =>
      rw [hended, Option.map_none] at hended'
      rw [handedLines_cons_of_none more hended, handedLines_cons_of_none more hended',
        LogicalLine.join_renumber]
      exact hstep b
    | some ended =>
      rw [hended, Option.map_some] at hended'
      rw [handedLines_cons_of_some more hended, handedLines_cons_of_some more hended',
        LogicalLine.join_renumber, List.map_cons]
      exact congrArg _ (hstep (b.after ended))

end RuleFile

/-! ## Reading -/

open LogicalLine (renumber)

namespace Rejection

def renumber (f : Nat → Nat) (rejection : Rejection) : Rejection :=
  ⟨rejection.fault, rejection.line.renumber f⟩

end Rejection

namespace Reader

/-- The number of a line plays no part when it is accepted. -/
theorem accept_renumber (reader : Reader) (f : Nat → Nat) (line : LogicalLine) :
    reader.accept (line.renumber f) = (reader.accept line).mapError (·.renumber f) := by
  unfold accept renumber
  cases Statement.ofLine? line.text with
  | none => rfl
  | some statement =>
    dsimp only
    cases reader.execute statement <;> rfl

theorem foldlM_accept_renumber (reader : Reader) (f : Nat → Nat) (lines : List LogicalLine) :
    (lines.map (renumber f)).foldlM accept reader =
      (lines.foldlM accept reader).mapError (·.renumber f) := by
  induction lines generalizing reader with
  | nil => rfl
  | cons line lines ih =>
    rw [List.map_cons, List.foldlM_cons, List.foldlM_cons, accept_renumber]
    cases reader.accept line with
    | error rejection => rfl
    | ok reader' => exact ih reader'

end Reader

/-- Where a line of a text stands: its number and its extent. -/
structure Place where
  number : Nat
  span : Span
  deriving DecidableEq

namespace Place

def ofLine (text : Text) (number : Nat) : Place := ⟨number, Span.ofLine text number⟩

end Place

namespace ParseError

def place (e : ParseError) : Place := ⟨e.line.number, e.span⟩

end ParseError

namespace RuleFile

/-- Outcomes of reading two texts that are the same up to the place of the line that is at fault,
which has moved in a certain way. -/
inductive ReadAlike (Moved : Place → Place → Prop) :
    Except ParseError RuleSet → Except ParseError RuleSet → Prop
  | rules (g : RuleSet) : ReadAlike Moved (.ok g) (.ok g)
  | error {e f : ParseError} (hfault : f.fault = e.fault) (htext : f.line.text = e.line.text)
      (hplace : Moved e.place f.place) : ReadAlike Moved (.error e) (.error f)

/-- Two texts with the same logical lines up to their numbers are read alike. -/
theorem readAlike_of_renumber {b : Bindings} {first second : Text} {Moved : Place → Place → Prop}
    (f : Nat → Nat) (hlines : logicalLines b second = (logicalLines b first).map (renumber f))
    (hmoved : ∀ number, 1 ≤ number → number ≤ first.lines.length →
      Moved (.ofLine first number) (.ofLine second (f number))) :
    ReadAlike Moved (parse b first) (parse b second) := by
  have hfirst := parse_eq b first
  have hsecond := parse_eq b second
  rw [hlines, Reader.foldlM_accept_renumber] at hsecond
  cases hread : (logicalLines b first).foldlM Reader.accept (Reader.start b) with
  | ok reader =>
    rw [hread] at hfirst hsecond
    rw [hfirst, hsecond]
    exact .rules reader.rules
  | error rejection =>
    rw [hread] at hfirst hsecond
    obtain ⟨before, after, hsplit, -⟩ := exists_offends_of_parse hfirst
    have hmem : rejection.line ∈ logicalLines b first := by simp [hsplit]
    obtain ⟨hlow, hhigh⟩ := number_of_mem_logicalLines hmem
    rw [hfirst, hsecond]
    exact .error rfl rfl (hmoved rejection.line.number hlow hhigh)

end RuleFile

end BuildScript
