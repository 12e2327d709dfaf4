import BuildScript.Proofs.DefinitionLines
import BuildScript.Proofs.ReadTexts
import BuildScript.Proofs.Writing

/-!
# Definitions of a name that is overridden

A value that a rule file defines for a name with an override is kept, but nothing that is read
depends on it.  No reference is expanded to it, no later definition carries it to another name, and
so the lines after the definition are handed on in the same form, whatever the value is.
-/

namespace BuildScript

open Text (OneLine)

/-! ## Bindings that differ in a hidden value -/

namespace Bindings

/-- Bindings that have an override for `name`, and differ at most in the value defined for it. -/
structure AgreeBut (name : Text) (b c : Bindings) : Prop where
  overridden : (b.overrides.lookup name).isSome
  overrides_eq : b.overrides = c.overrides
  defined_eq : ∀ other ≠ name, b.defined.lookup other = c.defined.lookup other

namespace AgreeBut

variable {name : Text} {b c : Bindings}

theorem refl (h : (b.overrides.lookup name).isSome) : AgreeBut name b b := ⟨h, rfl, fun _ _ ↦ rfl⟩

theorem lookup_eq (h : AgreeBut name b c) (other : Text) : b.lookup other = c.lookup other := by
  unfold lookup
  by_cases hother : other = name
  · subst hother
    obtain ⟨value, hvalue⟩ := Option.isSome_iff_exists.mp h.overridden
    rw [← h.overrides_eq, hvalue, Option.some_or, Option.some_or]
  · rw [h.overrides_eq, h.defined_eq other hother]

theorem expand_eq (h : AgreeBut name b c) (text : Text) : b.expand text = c.expand text := by
  apply expand_congr
  intro other
  rw [value, value, h.lookup_eq]

theorem symm (h : AgreeBut name b c) : AgreeBut name c b :=
  ⟨h.overrides_eq ▸ h.overridden, h.overrides_eq.symm, fun other hother ↦
    (h.defined_eq other hother).symm⟩

theorem define (h : AgreeBut name b c) (other value : Text) :
    AgreeBut name (b.define other value) (c.define other value) where
  overridden := h.overridden
  overrides_eq := h.overrides_eq
  defined_eq := by
    intro wanted hwanted
    simp only [Bindings.define, List.lookup_cons]
    split
    · rfl
    · exact h.defined_eq wanted hwanted

theorem define_name (h : AgreeBut name b c) (value : Text) :
    AgreeBut name (b.define name value) c where
  overridden := h.overridden
  overrides_eq := h.overrides_eq
  defined_eq := by
    intro wanted hwanted
    have hne : (wanted == name) = false := beq_eq_false_iff_ne.mpr hwanted
    rw [Bindings.define, List.lookup_cons, hne]
    exact h.defined_eq wanted hwanted

/-- A definition of the hidden name may be made on one side only. -/
theorem assign_name (h : AgreeBut name b c) {d : Definition} (hd : d.name = name) :
    AgreeBut name (b.assign d) c := by
  rcases b.assign_cases d with heq | ⟨value, heq⟩
  · rwa [heq]
  · rw [heq, hd]
    exact h.define_name value

theorem assign_names (h : AgreeBut name b c) {d e : Definition} (hd : d.name = name)
    (he : e.name = name) : AgreeBut name (b.assign d) (c.assign e) :=
  ((h.assign_name hd).symm.assign_name he).symm

/-- No definition carries the hidden value to another name. -/
theorem assign (h : AgreeBut name b c) (d : Definition) :
    AgreeBut name (b.assign d) (c.assign d) := by
  by_cases hd : d.name = name
  · exact h.assign_names hd hd
  · unfold Bindings.assign
    rw [← h.lookup_eq, ← h.defined_eq d.name hd]
    cases d.operator with
    | recursive => exact h.define d.name d.value
    | simple => exact h.define d.name d.value
    | conditional =>
      simp only []
      split
      · exact h
      · exact h.define d.name d.value
    | append => exact h.define d.name _

theorem after (h : AgreeBut name b c) (line : LogicalLine) :
    AgreeBut name (b.after line) (c.after line) := by
  unfold Bindings.after
  split
  · exact h.assign _
  · exact h

theorem foldl_after (h : AgreeBut name b c) (lines : List LogicalLine) :
    AgreeBut name (lines.foldl Bindings.after b) (lines.foldl Bindings.after c) := by
  induction lines generalizing b c with
  | nil => exact h
  | cons line lines ih => exact ih (h.after line)

theorem complete?_eq (h : AgreeBut name b c) :
    LogicalLine.complete? b = LogicalLine.complete? c := by
  funext line
  unfold LogicalLine.complete?
  simp only [h.expand_eq]

/-- The lines that are handed on do not depend on the hidden value. -/
theorem handedLines_eq (h : AgreeBut name b c) (pending : Option LogicalLine) (number : Nat)
    (physical : List Text) :
    RuleFile.handedLines b pending number physical =
      RuleFile.handedLines c pending number physical := by
  induction physical generalizing b c pending number with
  | nil => rw [RuleFile.handedLines_nil, RuleFile.handedLines_nil, h.complete?_eq]
  | cons line more ih =>
    cases hended : (LogicalLine.join pending number line).2.bind (LogicalLine.complete? b) with
    | none =>
      rw [RuleFile.handedLines_cons_of_none more hended,
        RuleFile.handedLines_cons_of_none more (h.complete?_eq ▸ hended)]
      exact ih h _ _
    | some ended =>
      rw [RuleFile.handedLines_cons_of_some more hended,
        RuleFile.handedLines_cons_of_some more (h.complete?_eq ▸ hended)]
      exact congrArg _ (ih (h.after ended) _ _)

end AgreeBut

end Bindings

/-! ## Readers that differ in the bindings -/

namespace Reader

/-- The same reader with other bindings. -/
def withBindings (reader : Reader) (c : Bindings) : Reader := { reader with bindings := c }

/-- The bindings play no part when a line is accepted, apart from what the line does to them. -/
theorem accept_withBindings (reader : Reader) (c : Bindings) (line : LogicalLine) :
    (reader.withBindings c).accept line =
      (reader.accept line).map (·.withBindings (c.after line)) := by
  unfold accept Bindings.after LogicalLine.statement?
  cases Statement.ofLine? line.text with
  | none => rfl
  | some statement =>
    cases statement with
    | command body =>
      simp only [execute, withBindings]
      cases reader.current <;> rfl
    | definition d => rfl
    | header h =>
      simp only [execute, openRule, withBindings]
      split <;> rfl

theorem foldlM_accept_withBindings (reader : Reader) (c : Bindings) (lines : List LogicalLine) :
    lines.foldlM accept (reader.withBindings c) =
      (lines.foldlM accept reader).map (·.withBindings (lines.foldl Bindings.after c)) := by
  induction lines generalizing reader c with
  | nil => rfl
  | cons line lines ih =>
    rw [List.foldlM_cons, List.foldlM_cons, accept_withBindings]
    cases reader.accept line with
    | error rejection => rfl
    | ok reader' => exact ih reader' (c.after line)

/-- The rules that are there after lines have been accepted. -/
def rulesAfter (reader : Reader) (lines : List LogicalLine) : Except Rejection RuleSet :=
  (lines.foldlM accept reader).map Reader.rules

theorem rulesAfter_withBindings (reader : Reader) (c : Bindings) (lines : List LogicalLine) :
    (reader.withBindings c).rulesAfter lines = reader.rulesAfter lines := by
  unfold rulesAfter
  rw [foldlM_accept_withBindings]
  cases lines.foldlM accept reader <;> rfl

theorem rulesAfter_cons (reader : Reader) (line : LogicalLine) (more : List LogicalLine) :
    reader.rulesAfter (line :: more) = (reader.accept line).bind (·.rulesAfter more) := by
  unfold rulesAfter
  rw [List.foldlM_cons]
  cases reader.accept line <;> rfl

theorem rulesAfter_append (reader : Reader) (first second : List LogicalLine) :
    reader.rulesAfter (first ++ second) =
      (first.foldlM accept reader).bind (·.rulesAfter second) := by
  unfold rulesAfter
  rw [List.foldlM_append]
  cases first.foldlM accept reader <;> rfl

/-- Of a definition only that it closes the open rule matters for the rules. -/
theorem rulesAfter_definition (reader : Reader) {line : LogicalLine} {d : Definition}
    (h : line.statement? = some (.definition d)) (more : List LogicalLine) :
    reader.rulesAfter (line :: more) = { reader with current := none }.rulesAfter more := by
  have haccept : reader.accept line =
      .ok ({ reader with current := none }.withBindings (reader.bindings.assign d)) := by
    unfold accept
    rw [show Statement.ofLine? line.text = some (.definition d) from h]
    rfl
  rw [rulesAfter_cons, haccept]
  exact rulesAfter_withBindings _ _ more

end Reader

/-! ## Two rule files -/

namespace LogicalLine

/-- A physical line that defines a name, has no comment and does not go on in the next line. -/
structure DefinesAlone (name line : Text) : Prop where
  oneLine : OneLine line
  noComment : '#' ∉ line
  ending : line.getLast? ≠ some '\\' ∧ line.getLast? ≠ some '\r'
  definition : ∃ operator value, Definition.ofLine? line = some ⟨name, operator, value⟩

/-- Such a line is handed on by itself, and is still a definition of the name. -/
theorem DefinesAlone.exists_handed {name line : Text} (h : DefinesAlone name line) (b : Bindings)
    (number : Nat) :
    ∃ ended d, join none number line = (none, some ⟨number, line⟩) ∧
      complete? b ⟨number, line⟩ = some ended ∧ ended.statement? = some (.definition d) ∧
      d.name = name := by
  obtain ⟨operator, value, hline⟩ := h.definition
  obtain ⟨expanded, hexpanded⟩ := Definition.exists_ofLine?_expand b hline
  refine ⟨⟨number, b.expand line⟩, ⟨name, operator, expanded⟩, ?_, ?_, ?_, rfl⟩
  · exact join_none number (isInvisible_of_definition hline) h.ending
  · rw [complete?, content?_of_definition hline h.noComment, Option.map_some]
  · unfold statement? Statement.ofLine?
    simp [isIndented_of_definition hexpanded, hexpanded]

end LogicalLine

open LogicalLine (DefinesAlone)

namespace RuleFile

variable {b : Bindings} {front : Text}

/-- A beginning of a rule file that ends with a line, and with a logical line: its last line that is
neither blank nor a comment has no backslash at its end. -/
structure ClosedFront (front : Text) : Prop where
  endsLine : front.EndsLine
  last : ∀ line ∈ (LogicalLine.visible front.lines).getLast?,
    (Text.dropAtEnd '\r' line).getLast? ≠ some '\\'

/-- The logical lines of a rule file with a definition in it. -/
theorem ClosedFront.exists_logicalLines_eq (hfront : ClosedFront front) (b : Bindings)
    {name line : Text} (hline : DefinesAlone name line) (rest : Text) :
    ∃ ended d, ended.statement? = some (.definition d) ∧ d.name = name ∧
      logicalLines b (front ++ line ++ '\n' :: rest) = logicalLines b front ++ ended ::
        handedLines (((logicalLines b front).foldl Bindings.after b).assign d) none
          (1 + front.lines.length + 1) rest.lines := by
  set c := (logicalLines b front).foldl Bindings.after b
  obtain ⟨ended, d, hjoin, hended, hstatement, hname⟩ :=
    hline.exists_handed c (1 + front.lines.length)
  refine ⟨ended, d, hstatement, hname, ?_⟩
  have hlines : Text.lines (front ++ line ++ '\n' :: rest) =
      front.lines ++ line :: rest.lines := by
    rw [List.append_assoc, Text.lines_append hfront.endsLine,
      Text.lines_append_newline hline.oneLine]
  have hassign : c.after ended = c.assign d := by
    rw [Bindings.after, hstatement]
  calc
    logicalLines b (front ++ line ++ '\n' :: rest) =
        handedLines b none 1 (front.lines ++ line :: rest.lines) := by
      rw [logicalLines, hlines]
    _ = logicalLines b front ++ handedLines c none (1 + front.lines.length) (line :: rest.lines) :=
      handedLines_append b 1 (line :: rest.lines) ⟨hfront.last, fun _ ↦ rfl⟩
    _ = _ := by
      have hsome : (LogicalLine.join none (1 + front.lines.length) line).2.bind
          (LogicalLine.complete? c) = some ended := by
        rw [hjoin]
        exact hended
      rw [handedLines_cons_of_some rest.lines hsome, hjoin, hassign]

/-- Outcomes of reading that are the same up to the extent of the line that is at fault. -/
inductive SameReading : Except ParseError RuleSet → Except ParseError RuleSet → Prop
  | rules (g : RuleSet) : SameReading (.ok g) (.ok g)
  | error {e f : ParseError} (hfault : e.fault = f.fault) (hline : e.line = f.line) :
      SameReading (.error e) (.error f)

theorem parse_eq_mapError (b : Bindings) (text : Text) :
    parse b text = ((Reader.start b).rulesAfter (logicalLines b text)).mapError fun rejection ↦
      ⟨rejection.fault, rejection.line, Span.ofLine text rejection.line.number⟩ := by
  rw [parse_eq, Reader.rulesAfter]
  cases (logicalLines b text).foldlM Reader.accept (Reader.start b) <;> rfl

theorem sameReading_of_rulesAfter_eq {first second : Text}
    (h : (Reader.start b).rulesAfter (logicalLines b first) =
      (Reader.start b).rulesAfter (logicalLines b second)) :
    SameReading (parse b first) (parse b second) := by
  rw [parse_eq_mapError, parse_eq_mapError, h]
  cases (Reader.start b).rulesAfter (logicalLines b second) with
  | error rejection => exact .error rfl rfl
  | ok g => exact .rules g

/-- What is read from a rule file does not depend on how it defines a name that is overridden. -/
theorem parse_ignores_overridden_definition {name first second : Text}
    (hoverride : (b.overrides.lookup name).isSome) (hfront : ClosedFront front)
    (hfirst : DefinesAlone name first) (hsecond : DefinesAlone name second) (rest : Text) :
    SameReading (parse b (front ++ first ++ '\n' :: rest))
      (parse b (front ++ second ++ '\n' :: rest)) := by
  apply sameReading_of_rulesAfter_eq
  obtain ⟨ended, d, hended, hd, hlines⟩ := hfront.exists_logicalLines_eq b hfirst rest
  obtain ⟨ended', d', hended', hd', hlines'⟩ := hfront.exists_logicalLines_eq b hsecond rest
  -- The lines before are the same, and those after are read with bindings that agree.
  have hagree := (Bindings.AgreeBut.refl hoverride).foldl_after (logicalLines b front)
  have hafter := hagree.assign_names hd hd'
  rw [hlines, hlines', hafter.handedLines_eq, Reader.rulesAfter_append, Reader.rulesAfter_append]
  simp only [Reader.rulesAfter_definition _ hended, Reader.rulesAfter_definition _ hended']

def overriddenName : Bindings := .ofOverrides [("N".toList, " over".toList)]

def frontLines : Text := "V = v\nall: \\\n out\n# note \\\n\n".toList

def restLines : Text := "M += $(N)\nN += $(V)\nL ?= $(N)\nout: $(M)\n\techo $(N) $(L)\n".toList

/-- Two definitions of an overridden name, of which one appends and the other does not replace. -/
theorem parse_ignores_overridden_definition_restLines :
    ((overriddenName.overrides.lookup "N".toList).isSome ∧ ClosedFront frontLines ∧
        DefinesAlone "N".toList "N ?= one".toList ∧
        DefinesAlone "N".toList "N\t+=$(V) two".toList) ∧
      SameReading (parse overriddenName (frontLines ++ "N ?= one".toList ++ '\n' :: restLines))
        (parse overriddenName (frontLines ++ "N\t+=$(V) two".toList ++ '\n' :: restLines)) := by
  have hoverride : (overriddenName.overrides.lookup "N".toList).isSome := by decide
  have hfront : ClosedFront frontLines := ⟨by decide, by decide⟩
  have hfirst : DefinesAlone "N".toList "N ?= one".toList :=
    ⟨by decide, by decide, by decide, .conditional, "one".toList, by decide⟩
  have hsecond : DefinesAlone "N".toList "N\t+=$(V) two".toList :=
    ⟨by decide, by decide, by decide, .append, "$(V) two".toList, by decide⟩
  exact ⟨⟨hoverride, hfront, hfirst, hsecond⟩,
    parse_ignores_overridden_definition hoverride hfront hfirst hsecond restLines⟩

end RuleFile

end BuildScript
