import BuildScript.Proofs.ReadTexts

/-!
# Indentation and expansion

A line is a command if it starts with a tab or a space, and this is looked at after expansion.
Indentation that is written stays.  A line without it can come to be indented only through
references at its start, by what their values start with or because they are empty.  So a header
that is written after an empty reference and a blank is taken for a command.
-/

namespace BuildScript

open LogicalLine (isIndented isCommand withoutComment beforeComment)
open Text (reference?)

namespace LogicalLine

variable {line : Text}

theorem isIndented_of_prefix {front : Text} (h : front <+: line) (hfront : isIndented front) :
    isIndented line := by
  obtain ⟨rest, rfl⟩ := h
  cases front with
  | nil => cases hfront
  | cons c front => exact hfront

theorem isIndented_of_beforeComment (h : isIndented (beforeComment line)) : isIndented line := by
  fun_cases beforeComment line with
  | case1 => exact h
  | case2 rest => simp [isIndented] at h
  | case3 rest => simp [isIndented] at h
  | case4 c rest hescape hc =>
    rw [beforeComment, if_neg hc] at h
    · exact h
    · exact hescape

/-- A comment that is removed leaves no indentation that was not there. -/
theorem isIndented_of_withoutComment (h : isIndented (withoutComment line)) : isIndented line := by
  unfold withoutComment at h
  split at h
  · apply isIndented_of_beforeComment
    exact isIndented_of_prefix (List.rdropWhile_prefix Text.isBlank _) h
  · exact h

/-- A line that is handed on is a command exactly if it is indented by then. -/
theorem isCommand_iff_isIndented {line : LogicalLine} : line.isCommand ↔ isIndented line.text := by
  unfold isCommand command? statement? Statement.ofLine?
  cases isIndented line.text with
  | true => simp
  | false =>
    simp only [Bool.false_eq_true, if_false, iff_false]
    cases Definition.ofLine? line.text with
    | some d => simp
    | none => cases Header.ofLine? line.text <;> simp

end LogicalLine

namespace Bindings

/-- A reference at the start of a text makes place for a tab or a space: its value starts with one,
or its value is empty and what follows starts with one, be it through further references. -/
inductive IndentsAtReference (b : Bindings) : Text → Prop
  | value {rest name tail : Text} (href : reference? rest = some (name, tail))
      (hvalue : isIndented (b.value name)) : IndentsAtReference b ('$' :: rest)
  | blank {rest name tail : Text} (href : reference? rest = some (name, tail))
      (hvalue : b.value name = []) (htail : isIndented tail) : IndentsAtReference b ('$' :: rest)
  | further {rest name tail : Text} (href : reference? rest = some (name, tail))
      (hvalue : b.value name = []) (htail : IndentsAtReference b tail) :
      IndentsAtReference b ('$' :: rest)

variable {b : Bindings}

theorem indentsAtReference_iff {rest name tail : Text} (h : reference? rest = some (name, tail)) :
    b.IndentsAtReference ('$' :: rest) ↔ isIndented (b.value name) ∨
      b.value name = [] ∧ (isIndented tail ∨ b.IndentsAtReference tail) := by
  constructor
  · intro hindents
    cases hindents with
    | value href hvalue => simp_all
    | blank href hvalue htail => simp_all
    | further href hvalue htail => simp_all
  · rintro (hvalue | ⟨hvalue, htail | htail⟩)
    · exact .value h hvalue
    · exact .blank h hvalue htail
    · exact .further h hvalue htail

theorem not_indentsAtReference {text : Text}
    (h : ∀ rest, text = '$' :: rest → reference? rest = none) : ¬b.IndentsAtReference text := by
  intro hindents
  cases hindents with
  | value href => simp [h _ rfl] at href
  | blank href => simp [h _ rfl] at href
  | further href => simp [h _ rfl] at href

/-- Expansion gives an indented text if the text was indented, or through references. -/
theorem isIndented_expand_iff (b : Bindings) (text : Text) :
    isIndented (b.expand text) ↔ isIndented text ∨ b.IndentsAtReference text := by
  fun_induction Bindings.expand b text with
  | case1 =>
    have hnone : ¬b.IndentsAtReference [] := not_indentsAtReference (by simp)
    simp [hnone, isIndented]
  | case2 rest ih =>
    have hnone : ¬b.IndentsAtReference ('$' :: '$' :: rest) := by
      apply not_indentsAtReference
      rintro _ ⟨⟩
      rfl
    simp [hnone, isIndented]
  | case3 rest name tail href _ ih =>
    rw [indentsAtReference_iff href, ← ih]
    cases hvalue : b.value name with
    | nil => simp [isIndented]
    | cons c value => simp [isIndented]
  | case4 rest href _ ih =>
    have hnone : ¬b.IndentsAtReference ('$' :: rest) := by
      apply not_indentsAtReference
      rintro _ ⟨⟩
      exact href
    simp [hnone, isIndented]
  | case5 c rest _ hc ih =>
    have hnone : ¬b.IndentsAtReference (c :: rest) :=
      not_indentsAtReference fun _ heq ↦ absurd (List.cons.inj heq).1 hc
    simp [hnone, isIndented]

end Bindings

namespace JoinedLine

variable {joined : JoinedLine} {line : LogicalLine}

/-- An indented line is never dropped, and stays indented. -/
theorem exists_handed?_of_isIndented (h : isIndented joined.line.text) :
    ∃ line, joined.handed? = some line ∧ line.isCommand := by
  refine ⟨⟨joined.line.number, joined.bindings.expand joined.line.text⟩, ?_, ?_⟩
  · simp [handed?, LogicalLine.complete?, LogicalLine.content?, h]
  · rw [LogicalLine.isCommand_iff_isIndented, Bindings.isIndented_expand_iff]
    exact .inl h

theorem isCommand_iff (h : joined.handed? = some line) :
    line.isCommand ↔ isIndented joined.line.text ∨
      joined.bindings.IndentsAtReference (withoutComment joined.line.text) := by
  cases hindented : isIndented joined.line.text with
  | true =>
    obtain ⟨_, hhanded, hcommand⟩ := exists_handed?_of_isIndented hindented
    rw [h, Option.some.injEq] at hhanded
    simp [hhanded, hcommand]
  | false =>
    obtain ⟨body, hbody, rfl⟩ := Option.map_eq_some_iff.mp h
    -- The line was handed on, so what it says is the line without its comment.
    obtain rfl : withoutComment joined.line.text = body := by
      simp only [LogicalLine.content?, hindented] at hbody
      split at hbody
      · simp_all
      · split at hbody
        · cases hbody
        · exact Option.some.inj hbody
    have hnot : isIndented (withoutComment joined.line.text) = false := by
      rw [Bool.eq_false_iff]
      intro hcomment
      rw [LogicalLine.isIndented_of_withoutComment hcomment] at hindented
      cases hindented
    rw [LogicalLine.isCommand_iff_isIndented, Bindings.isIndented_expand_iff, hnot]

end JoinedLine

namespace RuleFile

/-- A logical line is handed on as a command exactly if it is written with a tab or a space at its
start, or if references at its start make place for one. -/
theorem command_iff_indented_or_indents_at_reference (b : Bindings) (text : Text) :
    logicalLines b text = (rawLines b text).filterMap JoinedLine.handed? ∧
      ∀ joined ∈ rawLines b text, ∀ line, joined.handed? = some line →
        (line.isCommand ↔ isIndented joined.line.text ∨
          joined.bindings.IndentsAtReference (withoutComment joined.line.text)) :=
  ⟨logicalLines_eq_filterMap b text, fun _ _ _ ↦ JoinedLine.isCommand_iff⟩

/-- A header after an empty reference and a blank. -/
def blankedHeader : Text := "E=\na: x\n$(E) b: c # note\n".toList

def blankedLine : JoinedLine where
  bindings := (Bindings.ofOverrides []).define "E".toList []
  line := ⟨3, "$(E) b: c # note".toList⟩

theorem command_iff_indented_or_indents_at_reference_blankedLine :
    blankedLine ∈ rawLines (.ofOverrides []) blankedHeader ∧
      blankedLine.handed? = some ⟨3, " b: c".toList⟩ ∧
      blankedLine.bindings.IndentsAtReference (withoutComment blankedLine.line.text) := by
  have hmem : blankedLine ∈ rawLines (.ofOverrides []) blankedHeader := by decide +kernel
  have hhanded : blankedLine.handed? = some ⟨3, " b: c".toList⟩ := by decide +kernel
  have hiff := (command_iff_indented_or_indents_at_reference _ _).2 _ hmem _ hhanded
  have hcommand : LogicalLine.isCommand ⟨3, " b: c".toList⟩ := by decide +kernel
  exact ⟨hmem, hhanded, (hiff.mp hcommand).resolve_left (by decide)⟩

/-- The header is not indented, and its comment is removed as from no command, but it is added to
the recipe of the rule before it. -/
theorem header_taken_for_command :
    ∃ joined ∈ rawLines (.ofOverrides []) blankedHeader, ∃ line, joined.handed? = some line ∧
      joined.line = ⟨3, "$(E) b: c # note".toList⟩ ∧ isIndented joined.line.text = false ∧
      line.isCommand ∧
      parse (.ofOverrides []) blankedHeader =
        .ok (RuleSet.empty.insert ⟨"a".toList, ["x".toList], [⟨"b: c".toList, false⟩]⟩) := by
  refine ⟨blankedLine, ?_, ⟨3, " b: c".toList⟩, ?_, rfl, ?_, ?_, ?_⟩
  all_goals decide +kernel

end RuleFile

end BuildScript
