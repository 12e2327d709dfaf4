import BuildScript.Proofs.ContinuedLines
import Mathlib.Data.List.DropRight

/-!
# Places of errors

An error carries the number of the first physical line of the logical line that is at fault, and an
extent that is computed from this number alone.  The number comes from the division of the text into
lines and from the way in which lines are joined; the extent is looked up in the bytes of the text.
Both lead to the same line, and this line is neither blank nor a comment, so the extent is never
empty and never stands for the end of the text.
-/

namespace BuildScript

/-! ## Lines and bytes of a text -/

namespace Text

variable {text line : Text}

theorem encode_append (first second : Text) :
    encode (first ++ second) = encode first ++ encode second :=
  List.flatMap_append

theorem length_encode (text : Text) : (encode text).length = byteLength text := by
  induction text with
  | nil => rfl
  | cons c text ih =>
    rw [encode, List.flatMap_cons, List.length_append, String.length_utf8EncodeChar, byteLength,
      ← ih, encode]

theorem byteLength_pos (h : text ≠ []) : 0 < byteLength text := by
  obtain ⟨c, rest, rfl⟩ := List.exists_cons_of_ne_nil h
  have hc := c.utf8Size_pos
  rw [byteLength]
  omega

theorem EndsLine.length_lines (h : EndsLine text) : (lines text).length = text.count '\n' := by
  induction text with
  | nil => rfl
  | cons c rest ih =>
    by_cases hc : c = '\n'
    · simp [lines, hc, ih h.of_cons]
    · obtain ⟨line, more, hlines⟩ := h.exists_lines_eq_cons hc
      rw [List.count_cons_of_ne hc, ← ih h.of_cons, lines, if_neg hc, hlines]
      rfl

/-- The first line of a text runs up to the first line feed, or to the end. -/
theorem exists_append_of_lines_eq_cons {more : List Text} (h : lines text = line :: more) :
    OneLine line ∧ ∃ rest, text = line ++ rest ∧ (rest = [] ∨ rest.head? = some '\n') := by
  induction text generalizing line more with
  | nil => cases h
  | cons c text ih =>
    by_cases hc : c = '\n'
    · obtain ⟨rfl, -⟩ : [] = line ∧ lines text = more := by simpa [lines, hc] using h
      exact ⟨oneLine_nil, c :: text, rfl, .inr (by rw [hc]; rfl)⟩
    · rw [lines, if_neg hc] at h
      cases htext : lines text with
      | nil =>
        obtain rfl : text = [] := by
          by_contra hne
          exact lines_ne_nil hne htext
        obtain ⟨rfl, -⟩ : [c] = line ∧ [] = more := by simpa [htext] using h
        exact ⟨by simp [Ne.symm hc], [], rfl, .inl rfl⟩
      | cons first others =>
        obtain ⟨rfl, -⟩ : c :: first = line ∧ others = more := by simpa [htext] using h
        obtain ⟨hfirst, rest, rfl, hrest⟩ := ih htext
        exact ⟨by simp [Ne.symm hc, hfirst], rest, rfl, hrest⟩

theorem getLast?_dropAtEnd (mark : Char) (text : Text) :
    (dropAtEnd mark text).getLast? ≠ some mark := by
  intro h
  obtain ⟨front, hfront⟩ := List.getLast?_eq_some_iff.mp h
  have hdrop : text.rdropWhile (· == mark) = front ++ [mark] := hfront
  have hlast := List.rdropWhile_last_not (· == mark) text (by simp [hdrop])
  simp [hdrop] at hlast

/-- `line` is the physical line of a text with the number `number`, without the carriage returns and
the line feed at its end, and it begins after `front`. -/
structure HasLineAt (text : Text) (number : Nat) (front line : Text) : Prop where
  number_eq : number = front.count '\n' + 1
  starts : front.EndsLine
  oneLine : line.OneLine
  ends : line.getLast? ≠ some '\r'
  split : ∃ returns rest, text = front ++ (line ++ (returns ++ rest)) ∧ (∀ c ∈ returns, c = '\r') ∧
    (rest = [] ∨ rest.head? = some '\n')

end Text

namespace Span

/-- The bytes of a text that a span takes in. -/
def bytes (span : Span) (text : Text) : List UInt8 :=
  (text.encode.drop span.offset).take span.length

variable {text front line : Text} {number : Nat}

theorem bytes_of_hasLineAt (h : text.HasLineAt number front line) :
    bytes ⟨front.byteLength, line.byteLength⟩ text = line.encode ∧
      front.byteLength + line.byteLength ≤ text.encode.length := by
  obtain ⟨returns, rest, rfl, -, -⟩ := h.split
  constructor
  · rw [bytes, Text.encode_append, Text.encode_append, ← Text.length_encode, ← Text.length_encode,
      List.drop_left, List.take_left]
  · rw [Text.length_encode, Text.byteLength_append, Text.byteLength_append]
    omega

/-- The extent of a line is that of the line in the text, up to its line end. -/
theorem exists_hasLineAt {raw : Text} {index : Nat} (h : text.lines[index]? = some raw) :
    ∃ front, text.HasLineAt (index + 1) front (Text.dropAtEnd '\r' raw) ∧
      ofLines? 0 index text.lines =
        some ⟨front.byteLength, (Text.dropAtEnd '\r' raw).byteLength⟩ := by
  obtain ⟨hindex, -⟩ := List.getElem?_eq_some_iff.mp h
  obtain ⟨front, rest, rfl, hfront, rfl, hrest⟩ := Text.exists_lines_before hindex
  obtain ⟨line, more, hlines⟩ := List.exists_cons_of_ne_nil (Text.lines_ne_nil hrest)
  obtain rfl : line = raw := by simpa [Text.lines_append hfront, hlines] using h
  obtain ⟨hline, tail, rfl, htail⟩ := Text.exists_append_of_lines_eq_cons hlines
  obtain ⟨returns, hreturns, hmarks⟩ := Text.exists_append_dropAtEnd '\r' line
  refine ⟨front, ⟨?_, hfront, ?_, Text.getLast?_dropAtEnd '\r' line, returns, tail, ?_, hmarks,
    htail⟩, ofLines?_lines_append hfront hlines⟩
  · rw [hfront.length_lines]
  · rw [hreturns, Text.oneLine_append] at hline
    exact hline.1
  · rw [← List.append_assoc (Text.dropAtEnd '\r' line), ← hreturns]

end Span

/-! ## The first line of a group -/

namespace LogicalLine

variable {line : Text} {number : Nat} {physical : List Text}

theorem mem_visibleLines_iff :
    (line, number) ∈ visibleLines 1 physical ↔ isInvisible line = false ∧ 1 ≤ number ∧
      ∃ raw, physical[number - 1]? = some raw ∧ Text.dropAtEnd '\r' raw = line := by
  simp [visibleLines, List.mk_mem_zipIdx_iff_le_and_getElem?_sub, and_comm]

/-- A group makes up a line with the number of its first line, which is a visible one. -/
theorem exists_first_of_ofGroup? {group : List (Text × Nat)} {joined : LogicalLine}
    (hgroup : group ∈ groups (visibleLines 1 physical)) (h : ofGroup? group = some joined) :
    ∃ line later, group = (line, joined.number) :: later ∧
      (line, joined.number) ∈ visibleLines 1 physical := by
  cases group with
  | nil => cases h
  | cons first later =>
    obtain rfl := Option.some.inj h
    refine ⟨first.1, later, rfl, ?_⟩
    rw [← List.flatten_splitBy (fun line _ ↦ continues line.1) (visibleLines 1 physical)]
    exact List.mem_flatten.mpr ⟨first :: later, hgroup, List.mem_cons_self⟩

end LogicalLine

namespace RuleFile

open LogicalLine (content? groups isInvisible ofGroup? visibleLines)

variable {b : Bindings} {text : Text}

theorem map_line_rawLines (b : Bindings) (text : Text) :
    (rawLines b text).map JoinedLine.line =
      (groups (visibleLines 1 text.lines)).filterMap ofGroup? := by
  rw [rawLines, map_line_joinedLines]
  exact @LogicalLine.joins_eq_groups [] (by simp) 1 text.lines

/-- A logical line is what a group of visible lines makes up, expanded. -/
theorem exists_group_of_mem_logicalLines {handed : LogicalLine} (h : handed ∈ logicalLines b text) :
    ∃ line later joined body,
      (line, handed.number) ∈ visibleLines 1 text.lines ∧
      (line, handed.number) :: later ∈ groups (visibleLines 1 text.lines) ∧
      joined ∈ rawLines b text ∧ ofGroup? ((line, handed.number) :: later) = some joined.line ∧
      content? joined.line.text = some body ∧ handed.text = joined.bindings.expand body := by
  rw [logicalLines_eq_filterMap] at h
  obtain ⟨joined, hjoined, hhanded⟩ := List.mem_filterMap.mp h
  obtain ⟨body, hbody, rfl⟩ := Option.map_eq_some_iff.mp hhanded
  have hmem : joined.line ∈ (groups (visibleLines 1 text.lines)).filterMap ofGroup? := by
    rw [← map_line_rawLines b]
    exact List.mem_map_of_mem hjoined
  obtain ⟨group, hgroup, hline⟩ := List.mem_filterMap.mp hmem
  obtain ⟨line, later, rfl, hfirst⟩ := LogicalLine.exists_first_of_ofGroup? hgroup hline
  exact ⟨line, later, joined, body, hfirst, hgroup, hjoined, hline, hbody, rfl⟩

theorem span_of_parse {e : ParseError} (h : parse b text = .error e) :
    e.span = Span.ofLine text e.line.number := by
  unfold parse at h
  split at h
  · obtain rfl := Except.error.inj h
    rfl
  · cases h

/-- The place of an error is exact.  Its number is that of a physical line, which is neither blank
nor a comment, and its extent takes in the bytes of this line, without the line end, and is not
empty; so the line is found, and the extent does not stand for the end of the text.  This is the
first line of a group that makes up a logical line, and the error carries what this line says, with
its references expanded. -/
theorem parse_error_place_exact (b : Bindings) (text : Text) (e : ParseError)
    (h : parse b text = .error e) :
    (1 ≤ e.line.number ∧ e.line.number ≤ text.lines.length) ∧
      ∃ front line, text.HasLineAt e.line.number front line ∧
        (Text.allBlank line = false ∧ line.head? ≠ some '#') ∧
        (e.span.offset = front.encode.length ∧ 0 < e.span.length ∧
          e.span.offset + e.span.length ≤ text.encode.length ∧ e.span.bytes text = line.encode) ∧
        Span.ofLines? 0 (e.line.number - 1) text.lines = some e.span ∧
        ∃ later joined body,
          (line, e.line.number) :: later ∈ groups (visibleLines 1 text.lines) ∧
          joined ∈ rawLines b text ∧ ofGroup? ((line, e.line.number) :: later) = some joined.line ∧
          content? joined.line.text = some body ∧ e.line.text = joined.bindings.expand body := by
  obtain ⟨before, after, hlines, -⟩ := exists_offends_of_parse h
  have hmem : e.line ∈ logicalLines b text := by simp [hlines]
  obtain ⟨line, later, joined, body, hfirst, hrest⟩ := exists_group_of_mem_logicalLines hmem
  obtain ⟨hvisible, hlow, raw, hraw, rfl⟩ := LogicalLine.mem_visibleLines_iff.mp hfirst
  obtain ⟨front, hline, hfound⟩ := Span.exists_hasLineAt hraw
  have hspan : e.span = ⟨front.byteLength, (Text.dropAtEnd '\r' raw).byteLength⟩ := by
    rw [span_of_parse h, Span.ofLine, hfound, Option.getD_some]
  rw [Nat.sub_add_cancel hlow] at hline
  obtain ⟨hbytes, hinside⟩ := Span.bytes_of_hasLineAt hline
  have hne : Text.dropAtEnd '\r' raw ≠ [] := by
    intro hnil
    rw [hnil] at hvisible
    cases hvisible
  refine ⟨number_of_mem_logicalLines hmem, front, _, hline, by simpa [isInvisible] using hvisible,
    ?_, hspan ▸ hfound, later, joined, body, hrest⟩
  rw [hspan]
  exact ⟨(Text.length_encode front).symm, Text.byteLength_pos hne, hinside, hbytes⟩

/-- Two good lines, and a line that goes on up to the end of the text, past a comment. -/
def unfinishedText : Text := "é:\r\n\techo é\r\nx $(Y) \\\r\n# note\r\n".toList

theorem parse_error_place_exact_unfinishedText :
    parse ⟨[], []⟩ unfinishedText = .error ⟨.unrecognised, ⟨3, "x %Y% ".toList⟩, ⟨15, 8⟩⟩ ∧
      ∃ front line, unfinishedText.HasLineAt 3 front line ∧
        15 + 8 ≤ unfinishedText.encode.length ∧
        Span.bytes ⟨15, 8⟩ unfinishedText = line.encode := by
  have hparse : parse ⟨[], []⟩ unfinishedText =
      .error ⟨.unrecognised, ⟨3, "x %Y% ".toList⟩, ⟨15, 8⟩⟩ := by decide +kernel
  obtain ⟨-, front, line, hline, -, ⟨-, -, hinside, hbytes⟩, -⟩ :=
    parse_error_place_exact ⟨[], []⟩ unfinishedText _ hparse
  exact ⟨hparse, front, line, hline, hinside, hbytes⟩

end RuleFile

end BuildScript
