import BuildScript.Proofs.LinePlaces

/-!
# Blank lines and comment lines

A blank line or a comment line may be put anywhere into a rule file, even in the midst of a line
that goes on over several physical lines, and even if it ends in a backslash itself.  What is read
stays the same, and only the lines after it are found one line later.
-/

namespace BuildScript

open LogicalLine (isInvisible renumber)
open Text (OneLine)

namespace RuleFile

/-- The number of a line after one more line has been put behind the first `count` lines. -/
def shiftAfter (count number : Nat) : Nat := if count < number then number + 1 else number

theorem shiftAfter_of_lt {count number : Nat} (h : count < number) :
    shiftAfter count number = number + 1 :=
  if_pos h

theorem shiftAfter_of_le {count number : Nat} (h : number ≤ count) :
    shiftAfter count number = number :=
  if_neg (Nat.not_lt.mpr h)

variable {line : Text} {pending : Option LogicalLine} {count : Nat}

/-- An invisible line does not end the line that goes on before it, and it moves the numbers of the
lines after it. -/
theorem handedLines_cons_invisible (hline : isInvisible line) (b : Bindings)
    (hpending : ∀ start ∈ pending, start.number < count + 1) (rest : List Text) :
    handedLines b pending (count + 1) (line :: rest) =
      (handedLines b pending (count + 1) rest).map (renumber (shiftAfter count)) := by
  have hjoin := LogicalLine.join_of_isInvisible pending (count + 1) hline
  have hfixed : pending.map (renumber (shiftAfter count)) = pending := by
    cases pending with
    | none => rfl
    | some start =>
      have hstart := hpending start rfl
      rw [Option.map_some, LogicalLine.renumber_of_eq (shiftAfter_of_le (by omega))]
  have hshift : ∀ n ≥ count + 1, shiftAfter count (n + 1) = shiftAfter count n + 1 := by
    intro n hn
    rw [shiftAfter_of_lt (by omega), shiftAfter_of_lt (by omega)]
  calc
    handedLines b pending (count + 1) (line :: rest) = handedLines b pending (count + 2) rest := by
      rw [handedLines_cons_of_none rest (by rw [hjoin]; rfl), hjoin]
    _ = handedLines b (pending.map (renumber (shiftAfter count)))
        (shiftAfter count (count + 1)) rest := by
      rw [hfixed, shiftAfter_of_lt (Nat.lt_succ_self count)]
    _ = (handedLines b pending (count + 1) rest).map (renumber (shiftAfter count)) :=
      handedLines_renumber hshift b pending rest

theorem handedLines_append_invisible (hline : isInvisible line) (b : Bindings) {number : Nat}
    (hpending : ∀ start ∈ pending, start.number < number) {front : List Text} (rest : List Text)
    (hcount : number + front.length = count + 1) :
    handedLines b pending number (front ++ line :: rest) =
      (handedLines b pending number (front ++ rest)).map (renumber (shiftAfter count)) := by
  induction front generalizing b pending number with
  | nil =>
    obtain rfl : number = count + 1 := hcount
    exact handedLines_cons_invisible hline b hpending rest
  | cons first front ih =>
    rw [List.length_cons] at hcount
    obtain ⟨hnext, hends⟩ := LogicalLine.number_of_mem_join first (Nat.zero_le number)
      fun start hstart ↦ ⟨Nat.zero_le _, hpending start hstart⟩
    have hmore (c : Bindings) := ih c (fun start hstart ↦ (hnext start hstart).2) (by omega)
    rw [List.cons_append, List.cons_append]
    cases hended : (LogicalLine.join pending number first).2.bind (LogicalLine.complete? b) with
    | none =>
      rw [handedLines_cons_of_none _ hended, handedLines_cons_of_none _ hended]
      exact hmore b
    | some ended =>
      -- A line that ends within the front keeps its number.
      have hfixed : ended.renumber (shiftAfter count) = ended := by
        obtain ⟨joined, hjoined, hcomplete⟩ := Option.bind_eq_some_iff.mp hended
        have hnumber := (hends joined hjoined).2
        rw [← LogicalLine.number_of_complete? hcomplete] at hnumber
        exact LogicalLine.renumber_of_eq (shiftAfter_of_le (by omega))
      rw [handedLines_cons_of_some _ hended, handedLines_cons_of_some _ hended, List.map_cons,
        hfixed]
      exact congrArg _ (hmore (b.after ended))

/-! ## Extents of lines -/

variable {front : Text}

theorem lines_insert (hfront : front.EndsLine) (hline : OneLine line) (rest : Text) :
    Text.lines (front ++ line ++ '\n' :: rest) = front.lines ++ line :: rest.lines := by
  rw [List.append_assoc, Text.lines_append hfront, Text.lines_append_newline hline]

/-- A line that stands before the new one keeps its extent. -/
theorem ofLine_insert_of_le (hfront : front.EndsLine) (rest : Text) {number : Nat}
    (hlow : 1 ≤ number) (hhigh : number ≤ front.lines.length) :
    Span.ofLine (front ++ rest) number = Span.ofLine front number := by
  obtain ⟨before, after, rfl, hbefore, hcount, hafter⟩ :=
    Text.exists_lines_before (by omega : number - 1 < front.lines.length)
  obtain rfl : number = before.lines.length + 1 := by omega
  obtain ⟨first, more, hlines⟩ := List.exists_cons_of_ne_nil (Text.lines_ne_nil hafter)
  have hlines' : Text.lines (after ++ rest) = first :: (more ++ rest.lines) := by
    rw [Text.lines_append hfront.of_append, hlines, List.cons_append]
  rw [List.append_assoc, Span.ofLine_append hbefore hlines', Span.ofLine_append hbefore hlines]

/-- A line that stands after the new one begins later by the bytes of that line. -/
theorem ofLine_insert_of_lt (hfront : front.EndsLine) (hline : OneLine line) {rest : Text}
    {number : Nat} (hlow : front.lines.length < number)
    (hhigh : number ≤ (Text.lines (front ++ rest)).length) :
    ∃ offset length, Span.ofLine (front ++ rest) number = ⟨offset, length⟩ ∧
      Span.ofLine (front ++ line ++ '\n' :: rest) (number + 1) =
        ⟨offset + line.byteLength + 1, length⟩ := by
  rw [Text.lines_append hfront, List.length_append] at hhigh
  obtain ⟨before, after, rfl, hbefore, hcount, hafter⟩ :=
    Text.exists_lines_before (by omega : number - front.lines.length - 1 < rest.lines.length)
  obtain ⟨first, more, hlines⟩ := List.exists_cons_of_ne_nil (Text.lines_ne_nil hafter)
  have hnumber : number = (Text.lines (front ++ before)).length + 1 := by
    rw [Text.lines_append hfront, List.length_append]
    omega
  have hnumber' : number + 1 = (Text.lines (front ++ line ++ '\n' :: before)).length + 1 := by
    rw [lines_insert hfront hline, List.length_append, List.length_cons]
    omega
  have hends : Text.EndsLine (front ++ line ++ '\n' :: before) := by
    rw [List.append_cons, List.append_assoc front]
    exact (hfront.append (Text.endsLine_append_newline line)).append hbefore
  have hbytes : Text.byteLength (front ++ line ++ '\n' :: before) =
      Text.byteLength (front ++ before) + line.byteLength + 1 := by
    have hfeed : Char.utf8Size '\n' = 1 := rfl
    simp only [Text.byteLength_append, Text.byteLength, hfeed]
    omega
  refine ⟨Text.byteLength (front ++ before), (Text.dropAtEnd '\r' first).byteLength, ?_, ?_⟩
  · rw [← List.append_assoc, hnumber, Span.ofLine_append (hfront.append hbefore) hlines]
  · rw [← List.cons_append, ← List.append_assoc, hnumber', Span.ofLine_append hends hlines, hbytes]

/-! ## Rule files -/

/-- A blank line or a comment line is not seen, wherever it stands.  If the line that is at fault
stands after it, this one is found one line and as many bytes later as the new line has with its
line feed; else its place is the same. -/
theorem parse_insert_invisible (b : Bindings) (hfront : front.EndsLine) (hline : OneLine line)
    (hinvisible : Text.allBlank line ∨ line.head? = some '#') (rest : Text) :
    ReadAlike
      (fun before after ↦ after.span.length = before.span.length ∧
        if front.lines.length < before.number then
          after.number = before.number + 1 ∧
            after.span.offset = before.span.offset + line.byteLength + 1
        else after.number = before.number ∧ after.span.offset = before.span.offset)
      (parse b (front ++ rest)) (parse b (front ++ line ++ '\n' :: rest)) := by
  have hinvisible : isInvisible line := by simpa [isInvisible] using hinvisible
  apply readAlike_of_renumber (shiftAfter front.lines.length)
  · rw [logicalLines, logicalLines, lines_insert hfront hline, Text.lines_append hfront]
    exact handedLines_append_invisible hinvisible b (by simp) rest.lines (Nat.add_comm _ _)
  · intro number hlow hhigh
    by_cases hnumber : front.lines.length < number
    · obtain ⟨offset, length, hbefore, hafter⟩ := ofLine_insert_of_lt hfront hline hnumber hhigh
      simp only [Place.ofLine, shiftAfter_of_lt hnumber, if_pos hnumber, hbefore, hafter, and_self]
    · have hle : number ≤ front.lines.length := Nat.not_lt.mp hnumber
      have hafter := ofLine_insert_of_le hfront (line ++ '\n' :: rest) hlow hle
      rw [← List.append_assoc] at hafter
      simp only [Place.ofLine, shiftAfter_of_le hle, if_neg hnumber,
        ofLine_insert_of_le hfront rest hlow hle, hafter, and_self]

/-- A header that goes on, so that a line put after it stands within a logical line. -/
def openHeader : Text := "all: é.c \\\n".toList

/-- The rest of the header, and a line that is at fault. -/
def restOfHeader : Text := "  b.c\n\tcl é\nx y: z\n".toList

def note : Text := "# é \\".toList

theorem parse_insert_invisible_openHeader :
    (openHeader.EndsLine ∧ OneLine note ∧ note.head? = some '#') ∧
      parse ⟨[], []⟩ (openHeader ++ restOfHeader) =
        .error ⟨.targetCount 2, ⟨4, "x y: z".toList⟩, ⟨25, 6⟩⟩ ∧
      parse ⟨[], []⟩ (openHeader ++ note ++ '\n' :: restOfHeader) =
        .error ⟨.targetCount 2, ⟨5, "x y: z".toList⟩, ⟨32, 6⟩⟩ := by
  have hfront : openHeader.EndsLine := by decide
  have hline : OneLine note := by decide
  have hmark : note.head? = some '#' := by decide
  have hbefore : parse ⟨[], []⟩ (openHeader ++ restOfHeader) =
      .error ⟨.targetCount 2, ⟨4, "x y: z".toList⟩, ⟨25, 6⟩⟩ := by decide +kernel
  have halike := parse_insert_invisible ⟨[], []⟩ hfront hline (.inr hmark) restOfHeader
  refine ⟨⟨hfront, hline, hmark⟩, hbefore, ?_⟩
  rw [hbefore] at halike
  generalize parse ⟨[], []⟩ (openHeader ++ note ++ '\n' :: restOfHeader) = outcome at halike ⊢
  cases halike with
  | @error _ e hfault htext hplace =>
    obtain ⟨fault, ⟨number, text⟩, offset, length⟩ := e
    have hcount : openHeader.lines.length < 4 := by decide
    have hbytes : note.byteLength = 6 := by decide
    simp_all [ParseError.place]

end RuleFile

end BuildScript
