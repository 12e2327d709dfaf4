import BuildScript.Newline
import BuildScript.Proofs.LinePlaces
import Mathlib.Data.List.DropRight

/-!
# Line ends of a rule file

Carriage returns at the end of a physical line are no part of it, however many there are.  So a
rule file says the same after its line ends have been completed, whatever carriage returns it had
before.  A line that is at fault keeps its number and its length, and it begins later by one byte
for each carriage return that was added before it.
-/

namespace BuildScript

open Text (dropAtEnd lines EndsLine byteLength)

/-! ## Carriage returns at the end of a line -/

namespace Text

theorem dropAtEnd_cons (mark c : Char) (text : Text) :
    dropAtEnd mark (c :: text) =
      if dropAtEnd mark text = [] ∧ c = mark then [] else c :: dropAtEnd mark text := by
  unfold dropAtEnd
  rw [List.reverse_cons, List.dropWhile_append]
  cases hdrop : text.reverse.dropWhile (· == mark) with
  | nil => by_cases hc : c = mark <;> simp [hc]
  | cons d rest => simp

theorem byteLength_perm {first second : Text} (h : first.Perm second) :
    byteLength first = byteLength second := by
  induction h with
  | nil => rfl
  | cons c _ ih => rw [byteLength, byteLength, ih]
  | swap c d text =>
    simp only [byteLength]
    omega
  | trans _ _ hfirst hsecond => exact hfirst.trans hsecond

theorem byteLength_replicate (count : Nat) (c : Char) :
    byteLength (List.replicate count c) = count * c.utf8Size := by
  induction count with
  | zero => exact (Nat.zero_mul _).symm
  | succ count ih =>
    rw [List.replicate_succ, byteLength, ih, Nat.succ_mul, Nat.add_comm]

/-- What a character is put before matters only without the marks at its end. -/
theorem map_dropAtEnd_lines_cons {mark : Char} {first second : Text} (c : Char)
    (h : (lines first).map (dropAtEnd mark) = (lines second).map (dropAtEnd mark)) :
    (lines (c :: first)).map (dropAtEnd mark) = (lines (c :: second)).map (dropAtEnd mark) := by
  by_cases hc : c = '\n'
  · simp [lines, hc, h]
  · simp only [lines, if_neg hc]
    cases hfirst : lines first with
    | nil =>
      rw [hfirst, List.map_nil, eq_comm, List.map_eq_nil_iff] at h
      rw [h]
    | cons line more =>
      obtain ⟨line', more', hsecond⟩ : ∃ line' more', lines second = line' :: more' := by
        apply List.exists_cons_of_ne_nil
        intro hnil
        simp [hfirst, hnil] at h
      rw [hfirst, hsecond, List.map_cons, List.map_cons, List.cons.injEq] at h
      simp only [hsecond, List.map_cons, dropAtEnd_cons, h]

end Text

namespace RuleFile

/-- The logical lines do not depend on carriage returns at the end of physical lines. -/
theorem handedLines_map_dropAtEnd (b : Bindings) (pending : Option LogicalLine) (number : Nat)
    (physical : List Text) :
    handedLines b pending number (physical.map (dropAtEnd '\r')) =
      handedLines b pending number physical := by
  have hjoin (pending : Option LogicalLine) (number : Nat) (line : Text) :
      LogicalLine.join pending number (dropAtEnd '\r' line) =
        LogicalLine.join pending number line := by
    unfold LogicalLine.join
    rw [show dropAtEnd '\r' (dropAtEnd '\r' line) = dropAtEnd '\r' line from
      List.rdropWhile_idempotent _ line]
  induction physical generalizing b pending number with
  | nil => rfl
  | cons line more ih => simp only [List.map_cons, handedLines, LogicalLine.push, hjoin, ih]

end RuleFile

/-! ## Complete line ends -/

namespace Newline

variable {front : Text}

theorem getLast?_complete (returned : Bool) (text : Text) :
    (complete returned text).getLast? = text.getLast? := by
  fun_induction complete returned text with
  | case1 => rfl
  | case2 returned c rest h ih => simp_all [List.getLast?_cons]
  | case3 returned c rest h ih => rw [List.getLast?_cons, List.getLast?_cons, ih]

theorem endsLine_complete (h : EndsLine front) : EndsLine (complete false front) := by
  rcases h with rfl | hlast
  · exact .inl rfl
  · exact .inr ((getLast?_complete false front).trans hlast)

theorem complete_append_of_getLast? (returned : Bool) (hlast : front.getLast? = some '\n')
    (rest : Text) :
    complete returned (front ++ rest) = complete returned front ++ complete false rest := by
  induction front generalizing returned with
  | nil => cases hlast
  | cons c front ih =>
    by_cases hfront : front = []
    · subst hfront
      obtain rfl : c = '\n' := by simpa using hlast
      cases returned <;> rfl
    · rw [List.getLast?_cons_of_ne_nil hfront] at hlast
      simp only [List.cons_append, complete, ih _ hlast]
      split <;> rfl

/-- After a line end, completion starts anew. -/
theorem complete_append (h : EndsLine front) (rest : Text) :
    complete false (front ++ rest) = complete false front ++ complete false rest := by
  rcases h with rfl | hlast
  · rfl
  · exact complete_append_of_getLast? false hlast rest

/-- Complete line ends differ from others in carriage returns at the end of lines only. -/
theorem map_dropAtEnd_lines_complete (returned : Bool) (text : Text) :
    (lines (complete returned text)).map (dropAtEnd '\r') = (lines text).map (dropAtEnd '\r') := by
  fun_induction complete returned text with
  | case1 => rfl
  | case2 returned c rest h ih =>
    have hreturn : dropAtEnd '\r' ['\r'] = dropAtEnd '\r' [] := rfl
    obtain rfl : c = '\n' := by simp_all
    simp [lines, ih, hreturn]
  | case3 returned c rest h ih => exact Text.map_dropAtEnd_lines_cons c ih

theorem length_lines_complete (text : Text) :
    (lines (complete false text)).length = (lines text).length := by
  simpa using congrArg List.length (map_dropAtEnd_lines_complete false text)

/-- The characters of a text, each with the one before it. -/
def withPrevious (text : Text) : List (Option Char × Char) := (none :: text.map some).zip text

/-- The number of line feeds that have no carriage return before them. -/
def bareFeeds (text : Text) : Nat :=
  (withPrevious text).countP fun (previous, c) ↦ c == '\n' && previous != some '\r'

/-- The number of line feeds that have no carriage return before them, in a text that stands after
`previous`. -/
def bareFeedsAfter (previous : Option Char) (text : Text) : Nat :=
  ((previous :: text.map some).zip text).countP fun (previous, c) ↦
    c == '\n' && previous != some '\r'

section Steps

variable {previous : Option Char} {c : Char}

theorem complete_cons_of_bare (h : previous ≠ some '\r') (rest : Text) :
    complete (previous == some '\r') ('\n' :: rest) =
      '\r' :: '\n' :: complete (some '\n' == some '\r') rest := by
  rw [complete, if_pos (by simpa using h)]
  rfl

theorem complete_cons_of_not_bare (h : ¬(c = '\n' ∧ previous ≠ some '\r')) (rest : Text) :
    complete (previous == some '\r') (c :: rest) = c :: complete (some c == some '\r') rest := by
  rw [complete, if_neg (by simpa using h)]
  rfl

theorem bareFeedsAfter_cons_of_bare (h : previous ≠ some '\r') (rest : Text) :
    bareFeedsAfter previous ('\n' :: rest) = bareFeedsAfter (some '\n') rest + 1 := by
  simp [bareFeedsAfter, h]

theorem bareFeedsAfter_cons_of_not_bare (h : ¬(c = '\n' ∧ previous ≠ some '\r')) (rest : Text) :
    bareFeedsAfter previous (c :: rest) = bareFeedsAfter (some c) rest := by
  unfold bareFeedsAfter
  rw [List.map_cons, List.zip_cons_cons, List.countP_cons_of_neg (by simpa using h)]

end Steps

/-- Completion adds one carriage return for each line feed that has none before it, and nothing
else. -/
theorem perm_complete_of_previous (previous : Option Char) (text : Text) :
    (complete (previous == some '\r') text).Perm
      (List.replicate (bareFeedsAfter previous text) '\r' ++ text) := by
  induction text generalizing previous with
  | nil => exact .nil
  | cons c rest ih =>
    by_cases hbare : c = '\n' ∧ previous ≠ some '\r'
    · obtain ⟨rfl, hprevious⟩ := hbare
      rw [complete_cons_of_bare hprevious, bareFeedsAfter_cons_of_bare hprevious,
        List.replicate_succ, List.cons_append]
      exact (((ih (some '\n')).cons '\n').trans List.perm_middle.symm).cons '\r'
    · rw [complete_cons_of_not_bare hbare, bareFeedsAfter_cons_of_not_bare hbare]
      exact ((ih (some c)).cons c).trans List.perm_middle.symm

theorem perm_complete (text : Text) :
    (complete false text).Perm (List.replicate (bareFeeds text) '\r' ++ text) :=
  perm_complete_of_previous none text

/-- Completion adds one byte for each line feed that has no carriage return before it. -/
theorem byteLength_complete (text : Text) :
    byteLength (complete false text) = byteLength text + bareFeeds text := by
  have hreturn : Char.utf8Size '\r' = 1 := rfl
  calc
    byteLength (complete false text) =
        byteLength (List.replicate (bareFeeds text) '\r' ++ text) :=
      Text.byteLength_perm (perm_complete text)
    _ = bareFeeds text * Char.utf8Size '\r' + byteLength text := by
      rw [Text.byteLength_append, Text.byteLength_replicate]
    _ = byteLength text + bareFeeds text := by rw [hreturn, Nat.mul_one, Nat.add_comm]

end Newline

/-! ## Rule files -/

namespace RuleFile

theorem logicalLines_apply (b : Bindings) (text : Text) :
    logicalLines b (Newline.crlf.apply text) = logicalLines b text := by
  have hlines : (lines (Newline.crlf.apply text)).map (dropAtEnd '\r') =
      (lines text).map (dropAtEnd '\r') := Newline.map_dropAtEnd_lines_complete false text
  rw [logicalLines, logicalLines, ← handedLines_map_dropAtEnd, hlines, handedLines_map_dropAtEnd]

/-- The extent of a line in a text with complete line ends. -/
theorem ofLine_apply {front rest : Text} (hfront : front.EndsLine) (hrest : rest ≠ []) :
    ∃ length, Span.ofLine (front ++ rest) (front.lines.length + 1) = ⟨front.byteLength, length⟩ ∧
      Span.ofLine (Newline.crlf.apply (front ++ rest)) (front.lines.length + 1) =
        ⟨front.byteLength + Newline.bareFeeds front, length⟩ := by
  obtain ⟨line, more, hlines⟩ := List.exists_cons_of_ne_nil (Text.lines_ne_nil hrest)
  have hmap := Newline.map_dropAtEnd_lines_complete false rest
  obtain ⟨line', more', hlines'⟩ : ∃ line' more',
      lines (Newline.complete false rest) = line' :: more' := by
    apply List.exists_cons_of_ne_nil
    intro hnil
    simp [hnil, hlines] at hmap
  have hline : dropAtEnd '\r' line' = dropAtEnd '\r' line := by
    rw [hlines, hlines', List.map_cons, List.map_cons, List.cons.injEq] at hmap
    exact hmap.1
  refine ⟨(dropAtEnd '\r' line).byteLength, Span.ofLine_append hfront hlines, ?_⟩
  calc
    Span.ofLine (Newline.crlf.apply (front ++ rest)) (front.lines.length + 1) =
        Span.ofLine (Newline.complete false front ++ Newline.complete false rest)
          ((lines (Newline.complete false front)).length + 1) := by
      rw [Newline.apply, Newline.complete_append hfront, Newline.length_lines_complete]
    _ = ⟨byteLength (Newline.complete false front), byteLength (dropAtEnd '\r' line')⟩ :=
      Span.ofLine_append (Newline.endsLine_complete hfront) hlines'
    _ = ⟨front.byteLength + Newline.bareFeeds front, (dropAtEnd '\r' line).byteLength⟩ := by
      rw [Newline.byteLength_complete, hline]

/-- A rule file says the same with complete line ends.  The line that is at fault is the same and as
long, and its extent begins later by the number of line feeds without a carriage return in the lines
before it. -/
theorem parse_apply_crlf (b : Bindings) (text : Text) :
    ReadAlike
      (fun before after ↦ after.number = before.number ∧
        after.span.length = before.span.length ∧
        ∃ front rest : Text, text = front ++ rest ∧ front.EndsLine ∧
          front.lines.length + 1 = before.number ∧
          after.span.offset = before.span.offset + Newline.bareFeeds front)
      (parse b text) (parse b (Newline.crlf.apply text)) := by
  apply readAlike_of_renumber id
  · rw [logicalLines_apply]
    exact (List.map_id _).symm
  · intro number hlow hhigh
    obtain ⟨front, rest, rfl, hfront, hcount, hrest⟩ :=
      Text.exists_lines_before (by omega : number - 1 < text.lines.length)
    obtain rfl : number = front.lines.length + 1 := by omega
    obtain ⟨length, hbefore, hafter⟩ := ofLine_apply hfront hrest
    simp only [Place.ofLine, id_eq, hbefore, hafter, true_and]
    exact ⟨front, rest, rfl, hfront, rfl, rfl⟩

end RuleFile

end BuildScript
