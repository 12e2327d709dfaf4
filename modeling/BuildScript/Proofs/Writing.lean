import BuildScript.Proofs.HeaderNames
import BuildScript.Proofs.OneLine
import BuildScript.RuleFile.Reader
import Mathlib.Data.List.DropRight
import Mathlib.Tactic.MkIffOfInductiveProp

/-!
# Writing rule files

Rules can be written down as a rule file, with the dollar signs of names doubled.  If nothing in
their names and commands is taken for something else, each line that is written is a logical line by
itself, and reading gives back the rules that were written, the later one of two for a target.
-/

namespace BuildScript

open Text (Unbroken doubleDollars)

namespace Command

/-- A command with a minus sign before it if it is tolerant. -/
def body (c : Command) : Text := if c.tolerant then '-' :: c.text else c.text

def line (c : Command) : Text := '\t' :: c.body

end Command

namespace Rule

/-- The sources of a rule as they follow its colon. -/
def writtenSources (r : Rule) : Text := (r.sources.map doubleDollars).flatMap (' ' :: ·)

/-- The target and the sources of a rule as a line. -/
def headerLine (r : Rule) : Text := doubleDollars r.target ++ ':' :: r.writtenSources

def lines (r : Rule) : List Text := r.headerLine :: r.recipe.map Command.line

end Rule

/-- The rules one after the other, as a rule file. -/
def RuleFile.write (rules : List Rule) : Text := (rules.flatMap Rule.lines).flatMap (· ++ ['\n'])

/-- A command that a rule file can hold as it is. -/
@[mk_iff]
structure Command.Writable (b : Bindings) (c : Command) : Prop where
  oneLine : Text.OneLine c.text
  expand_eq : b.expand c.text = c.text
  ending : c.line.getLast? ≠ some '\\' ∧ c.line.getLast? ≠ some '\r'
  beginning : c.tolerant = false → ¬c.text.StartsBlank ∧ c.text.head? ≠ some '-'

instance (b : Bindings) (c : Command) : Decidable (c.Writable b) :=
  decidable_of_iff _ (Command.writable_iff b c).symm

/-- A rule that a rule file can hold. -/
@[mk_iff]
structure Rule.Writable (b : Bindings) (r : Rule) : Prop where
  target_ne_nil : r.target ≠ []
  target_unbroken : Unbroken r.target
  target_marks : '=' ∉ r.target ∧ '#' ∉ r.target
  target_colon : ':' ∉ FileName.withoutDrive r.target
  target_beginning : ∀ word ∈ LogicalLine.directives,
    LogicalLine.startsWith word ((Text.after? ['!'] r.target).getD r.target) = false
  source_ne_nil : ∀ source ∈ r.sources, source ≠ []
  source_unbroken : ∀ source ∈ r.sources, Unbroken source
  source_marks : ∀ source ∈ r.sources, ';' ∉ source ∧ '#' ∉ source
  header_ending : r.headerLine.getLast? ≠ some '\\'
  recipe : ∀ c ∈ r.recipe, c.Writable b

instance (b : Bindings) (r : Rule) : Decidable (r.Writable b) :=
  decidable_of_iff _ (Rule.writable_iff b r).symm

/-! ## Header lines -/

namespace Rule

variable {b : Bindings} {r : Rule}

theorem startsBlank_writtenSources (r : Rule) : Text.StartsBlank r.writtenSources :=
  Text.startsBlank_flatMap _

theorem not_mem_writtenSources {c : Char} (hspace : c ≠ ' ')
    (hsources : ∀ source ∈ r.sources, c ∉ source) : c ∉ r.writtenSources := by
  simp only [writtenSources, List.mem_flatMap, List.mem_map, List.mem_cons]
  rintro ⟨_, ⟨source, hsource, rfl⟩, hblank | hmem⟩
  · exact hspace hblank
  · exact hsources source hsource (Text.mem_doubleDollars.mp hmem)

theorem not_mem_headerLine {c : Char} (hcolon : c ≠ ':') (hspace : c ≠ ' ') (htarget : c ∉ r.target)
    (hsources : ∀ source ∈ r.sources, c ∉ source) : c ∉ r.headerLine := by
  have hwritten := not_mem_writtenSources hspace hsources
  simp [headerLine, hcolon, htarget, hwritten]

theorem expand_writtenSources (b : Bindings) (r : Rule) :
    b.expand r.writtenSources = r.writtenSources := by
  unfold writtenSources
  induction r.sources with
  | nil => exact b.expand_nil
  | cons source sources ih =>
    rw [List.map_cons, List.flatMap_cons, List.cons_append, b.expand_cons_of_ne _ (by decide),
      b.expand_doubleDollars_append, ih]

theorem expand_headerLine (b : Bindings) (r : Rule) : b.expand r.headerLine = r.headerLine := by
  rw [headerLine, b.expand_doubleDollars_append, b.expand_cons_of_ne _ (by decide),
    expand_writtenSources]

namespace Writable

variable (h : r.Writable b)

include h

theorem unbroken_doubleDollars : Unbroken (doubleDollars r.target) :=
  fun c hc ↦ h.target_unbroken c (Text.mem_doubleDollars.mp hc)

theorem exists_headerLine_eq_cons :
    ∃ c rest, r.headerLine = c :: rest ∧ Text.isBlank c = false ∧ c ≠ '#' := by
  obtain ⟨c, rest, hname⟩ := List.exists_cons_of_ne_nil (Text.doubleDollars_ne_nil h.target_ne_nil)
  have hc : c ∈ r.target := Text.mem_doubleDollars.mp (hname ▸ List.mem_cons_self)
  refine ⟨c, rest ++ ':' :: r.writtenSources, ?_, h.target_unbroken c hc, ?_⟩
  · rw [headerLine, hname, List.cons_append]
  · exact ne_of_mem_of_not_mem hc h.target_marks.2

theorem definition_headerLine : Definition.ofLine? r.headerLine = none := by
  apply Definition.ofLine?_colon h.unbroken_doubleDollars _ r.startsBlank_writtenSources
  simpa using h.target_marks.1

theorem isDirective_headerLine : LogicalLine.isDirective r.headerLine = false := by
  -- The words are looked for in the target, after an exclamation mark if it starts with one.
  set name := (Text.after? ['!'] r.target).getD r.target with hname
  have hunbroken : Unbroken (doubleDollars name) := fun c hc ↦
    h.target_unbroken c (Text.getD_after?_subset _ _ (Text.mem_doubleDollars.mp hc))
  have hwords : ∀ word ∈ LogicalLine.directives, '$' ∉ word ∧ ':' ∉ word := by decide
  have hnone : (LogicalLine.directives.any fun word ↦
      LogicalLine.startsWith word (doubleDollars name ++ ':' :: r.writtenSources)) = false := by
    refine List.any_eq_false.mpr fun word hword hstarts ↦ ?_
    have hstart : LogicalLine.startsWith word name :=
      LogicalLine.startsWith_of_doubleDollars (hwords word hword).1 (hwords word hword).2 hstarts
    simp [h.target_beginning word hword, hname] at hstart
  unfold LogicalLine.isDirective
  rw [h.definition_headerLine, headerLine, LogicalLine.getD_after?_doubleDollars, ← hname,
    Text.trimStart_colon hunbroken, hnone]
  rfl

theorem isIndented_headerLine : LogicalLine.isIndented r.headerLine = false := by
  obtain ⟨c, rest, hline, hc, -⟩ := h.exists_headerLine_eq_cons
  have htab : c ≠ '\t' := Text.ne_of_isBlank hc (by decide)
  have hspace : c ≠ ' ' := Text.ne_of_isBlank hc (by decide)
  simp [hline, LogicalLine.isIndented, htab, hspace]

theorem content?_headerLine : LogicalLine.content? r.headerLine = some r.headerLine := by
  obtain ⟨c, rest, hline, hc, -⟩ := h.exists_headerLine_eq_cons
  have hcomment : LogicalLine.withoutComment r.headerLine = r.headerLine :=
    if_neg (not_mem_headerLine (by decide) (by decide) h.target_marks.2
      fun source hsource ↦ (h.source_marks source hsource).2)
  have hblank : Text.allBlank r.headerLine = false := by
    simp [hline, Text.allBlank, hc]
  simp [LogicalLine.content?, h.isIndented_headerLine, hcomment, hblank, h.isDirective_headerLine]

theorem header_headerLine :
    Header.ofLine? r.headerLine =
      some ⟨[doubleDollars r.target], r.sources.map doubleDollars, none⟩ := by
  have hsplit := Header.splitColon?_doubleDollars h.target_colon r.startsBlank_writtenSources
  have hsecond : Text.after? [':'] r.writtenSources = none := by
    refine Option.eq_none_iff_forall_not_mem.mpr fun rest hrest ↦ ?_
    have heq : r.writtenSources = ':' :: rest := Text.after?_eq_some_iff.mp hrest
    have hblank : Text.isBlank ':' := r.startsBlank_writtenSources ':' (by simp [heq])
    exact absurd hblank (by decide)
  have hcut : Text.cut? ';' r.writtenSources = none := by
    apply Text.cut?_eq_none
    exact not_mem_writtenSources (by decide) fun source hsource ↦ (h.source_marks source hsource).1
  have htarget : Text.words (doubleDollars r.target) = [doubleDollars r.target] :=
    Text.words_eq_singleton (Text.doubleDollars_ne_nil h.target_ne_nil) h.unbroken_doubleDollars
  have hsources : Text.words r.writtenSources = r.sources.map doubleDollars := by
    apply Text.words_flatMap_blank
    intro word hword
    obtain ⟨source, hsource, rfl⟩ := List.mem_map.mp hword
    refine ⟨Text.doubleDollars_ne_nil (h.source_ne_nil source hsource), fun c hc ↦ ?_⟩
    exact h.source_unbroken source hsource c (Text.mem_doubleDollars.mp hc)
  unfold Header.ofLine? headerLine
  simp [hsplit, hsecond, hcut, htarget, hsources]

/-- The only blank characters of a header are the spaces before the sources. -/
theorem blank_not_mem_headerLine {c : Char} (hblank : Text.isBlank c) (hspace : c ≠ ' ') :
    c ∉ r.headerLine := by
  have hcolon : c ≠ ':' := (Text.ne_of_isBlank (by decide) hblank).symm
  exact not_mem_headerLine hcolon hspace (h.target_unbroken.not_mem hblank)
    fun source hsource ↦ (h.source_unbroken source hsource).not_mem hblank

end Writable

end Rule

/-! ## Lines that stand by themselves -/

namespace LogicalLine

/-- A physical line that is a logical line by itself and states `statement`. -/
structure States (b : Bindings) (line : Text) (statement : Statement) : Prop where
  visible : isInvisible line = false
  ending : line.getLast? ≠ some '\\' ∧ line.getLast? ≠ some '\r'
  content : content? line = some line
  expand_eq : b.expand line = line
  statement : Statement.ofLine? line = some statement

theorem join_none {line : Text} (number : Nat) (hvisible : isInvisible line = false)
    (hending : line.getLast? ≠ some '\\' ∧ line.getLast? ≠ some '\r') :
    join none number line = (none, some ⟨number, line⟩) := by
  have hline : Text.dropAtEnd '\r' line = line := by
    refine List.rdropWhile_eq_self_iff.mpr fun hne hlast ↦ hending.2 ?_
    rw [List.getLast?_eq_some_getLast hne, beq_iff_eq.mp hlast]
  have hlast : Text.dropLast? '\\' line = none := if_neg hending.1
  simp [join, hline, hvisible, hlast]

end LogicalLine

open LogicalLine (States)

namespace Reader

/-- A line that stands by itself is carried out at once. -/
theorem feed_of_states {reader : Reader} {line : Text} {statement : Statement} (number : Nat)
    (hpending : reader.pending = none) (h : States reader.bindings line statement) :
    reader.feed number line =
      (reader.execute statement).mapError fun fault ↦ ⟨fault, ⟨number, line⟩⟩ := by
  have hreader : { reader with pending := none } = reader := by
    rw [← hpending]
  have hpush : LogicalLine.push reader.bindings none number line =
      (none, some ⟨number, line⟩) := by
    simp [LogicalLine.push, LogicalLine.join_none number h.visible h.ending,
      LogicalLine.complete?, h.content, h.expand_eq]
  unfold feed
  rw [hpending, hpush, take, hreader]
  simp [accept, h.statement]

end Reader

theorem Rule.Writable.states_headerLine {b : Bindings} {r : Rule} (h : r.Writable b) :
    States b r.headerLine
      (.header ⟨[doubleDollars r.target], r.sources.map doubleDollars, none⟩) where
  visible := by
    obtain ⟨c, rest, hline, hc, hsign⟩ := h.exists_headerLine_eq_cons
    simp [LogicalLine.isInvisible, Text.allBlank, hline, hc, hsign]
  ending := by
    refine ⟨h.header_ending, fun hlast ↦ ?_⟩
    exact h.blank_not_mem_headerLine (by decide) (by decide) (List.mem_of_getLast? hlast)
  content := h.content?_headerLine
  expand_eq := r.expand_headerLine b
  statement := by
    simp [Statement.ofLine?, h.isIndented_headerLine, h.definition_headerLine, h.header_headerLine]

namespace Command

variable {b : Bindings} {c : Command}

theorem Writable.exists_body_eq_cons (h : c.Writable b) :
    ∃ first rest, c.body = first :: rest ∧ Text.isBlank first = false := by
  cases htolerant : c.tolerant with
  | true => exact ⟨'-', c.text, by simp [body, htolerant], by decide⟩
  | false =>
    have hbody : c.body = c.text := by simp [body, htolerant]
    rw [hbody]
    exact Text.exists_cons_of_not_startsBlank (h.beginning htolerant).1

theorem Writable.ofText_body (h : c.Writable b) : ofText c.body = c := by
  obtain ⟨text, tolerant⟩ := c
  cases tolerant with
  | true => rfl
  | false =>
    have hminus : text.head? ≠ some '-' := (h.beginning rfl).2
    cases text with
    | nil => rfl
    | cons first rest =>
      have hfirst : first ≠ '-' := by simpa using hminus
      simp [body, ofText, hfirst]

theorem Writable.states_line (h : c.Writable b) : States b c.line (.command c.body) := by
  obtain ⟨first, rest, hbody, hfirst⟩ := h.exists_body_eq_cons
  have hexpand : b.expand c.body = c.body := by
    unfold body
    split
    · rw [b.expand_cons_of_ne _ (by decide), h.expand_eq]
    · exact h.expand_eq
  have htab : Text.isBlank '\t' := by decide
  exact {
    visible := by simp [LogicalLine.isInvisible, Text.allBlank, line, hbody, hfirst]
    ending := h.ending
    content := rfl
    expand_eq := by rw [line, b.expand_cons_of_ne _ (by decide), hexpand]
    statement := by
      simp [Statement.ofLine?, LogicalLine.isIndented, Text.trimStart, line, hbody, hfirst, htab] }

theorem Writable.oneLine_line (h : c.Writable b) : Text.OneLine c.line := by
  have htext := h.oneLine
  unfold line body
  split <;> simpa using htext

end Command

/-! ## Reading what was written -/

namespace Reader

/-- A reader that has read a rule, to which further commands can be added. -/
def withRule (reader : Reader) (r : Rule) : Reader :=
  { reader with rules := reader.rules.insert r, current := some r.target }

variable {reader : Reader} {r : Rule}

theorem feed_headerLine (number : Nat) (hpending : reader.pending = none)
    (h : r.Writable reader.bindings) :
    reader.feed number r.headerLine = .ok (reader.withRule ⟨r.target, r.sources, []⟩) := by
  have hrule : Header.rule ⟨[doubleDollars r.target], r.sources.map doubleDollars, none⟩
      (doubleDollars r.target) = ⟨r.target, r.sources, []⟩ := by
    simp [Header.rule, Text.undoubleDollars_doubleDollars, Function.comp_def]
  rw [feed_of_states number hpending h.states_headerLine]
  simp only [execute, openRule, hrule]
  rfl

theorem feed_line {c : Command} (number : Nat) (hpending : reader.pending = none)
    (h : c.Writable reader.bindings) :
    (reader.withRule r).feed number c.line = .ok (reader.withRule (r.addCommand c)) := by
  have hopen : (reader.withRule r).pending = none := hpending
  have hadd := RuleSet.addCommand_insert reader.rules r c
  rw [feed_of_states number hopen h.states_line]
  simp only [execute, withRule, h.ofText_body, hadd]
  rfl

theorem feedAll_recipe {recipe : List Command} (number : Nat) (more : List Text)
    (hpending : reader.pending = none) (h : ∀ c ∈ recipe, c.Writable reader.bindings) :
    (reader.withRule r).feedAll number (recipe.map Command.line ++ more) =
      (reader.withRule { r with recipe := r.recipe ++ recipe }).feedAll
        (number + recipe.length) more := by
  induction recipe generalizing r number with
  | nil => simp
  | cons c recipe ih =>
    have hc : c.Writable reader.bindings := h c List.mem_cons_self
    have hrest : ∀ d ∈ recipe, d.Writable reader.bindings := fun d hd ↦
      h d (List.mem_cons_of_mem c hd)
    calc
      _ = (reader.withRule (r.addCommand c)).feedAll (number + 1)
          (recipe.map Command.line ++ more) := by
        rw [List.map_cons, List.cons_append, feedAll_cons, feed_line number hpending hc]
        rfl
      _ = _ := by
        rw [ih (number + 1) hrest]
        simp [Rule.addCommand, Nat.add_assoc, Nat.add_comm 1]

theorem feedAll_lines (number : Nat) (more : List Text) (hpending : reader.pending = none)
    (h : r.Writable reader.bindings) :
    reader.feedAll number (r.lines ++ more) =
      (reader.withRule r).feedAll (number + r.lines.length) more := by
  calc
    _ = (reader.withRule ⟨r.target, r.sources, []⟩).feedAll (number + 1)
        (r.recipe.map Command.line ++ more) := by
      rw [Rule.lines, List.cons_append, feedAll_cons, feed_headerLine number hpending h]
      rfl
    _ = _ := by
      rw [feedAll_recipe (number + 1) more hpending h.recipe]
      simp [Rule.lines, Nat.add_assoc, Nat.add_comm 1]

theorem exists_feedAll_rules {rules : List Rule} (number : Nat) (hpending : reader.pending = none)
    (h : ∀ r ∈ rules, r.Writable reader.bindings) :
    ∃ reader', reader.feedAll number (rules.flatMap Rule.lines) = .ok reader' ∧
      reader'.rules = rules.foldl RuleSet.insert reader.rules := by
  induction rules generalizing reader number with
  | nil =>
    refine ⟨{ reader with pending := none }, ?_, rfl⟩
    simp [feedAll, take, LogicalLine.flush, hpending]
  | cons r rules ih =>
    have hr : r.Writable reader.bindings := h r List.mem_cons_self
    have hrules : ∀ s ∈ rules, s.Writable reader.bindings := fun s hs ↦
      h s (List.mem_cons_of_mem r hs)
    rw [List.flatMap_cons, feedAll_lines number _ hpending hr]
    exact ih _ hpending hrules

end Reader

namespace RuleFile

theorem lines_write {b : Bindings} {rules : List Rule} (h : ∀ r ∈ rules, r.Writable b) :
    Text.lines (write rules) = rules.flatMap Rule.lines := by
  apply Text.lines_flatMap_newline
  intro line hline
  obtain ⟨r, hr, hline⟩ := List.mem_flatMap.mp hline
  rcases List.mem_cons.mp hline with rfl | hcommand
  · exact (h r hr).blank_not_mem_headerLine (by decide) (by decide)
  · obtain ⟨c, hc, rfl⟩ := List.mem_map.mp hcommand
    exact ((h r hr).recipe c hc).oneLine_line

/-- Rules that are written one after the other are read as the set of these rules: the last one of
each target, and as the default goal the first target without a leading dot. -/
theorem parse_write (b : Bindings) (rules : List Rule) (h : ∀ r ∈ rules, r.Writable b) :
    parse b (write rules) = .ok (rules.foldl RuleSet.insert .empty) := by
  have hstart : (Reader.start b).pending = none := rfl
  obtain ⟨reader, hfeed, hrules⟩ := Reader.exists_feedAll_rules 1 hstart h
  unfold parse
  rw [lines_write h, hfeed]
  exact congrArg Except.ok hrules

/-- Names with a drive letter, dollar signs and an exclamation mark, commands with blanks and
references that are not expanded, and two rules for one target. -/
def writtenRules : List Rule :=
  [⟨".c.obj".toList, [], [⟨"cl $< $$(X)".toList, false⟩, ⟨" -del $@".toList, true⟩]⟩,
    ⟨"C:\\out$1".toList, ["a:b".toList, "$(X)=1".toList], [⟨[], true⟩]⟩,
    ⟨"!all;".toList, ["end".toList], []⟩,
    ⟨"C:\\out$1".toList, ["C:/z".toList], [⟨"if x".toList, false⟩]⟩]

theorem parse_write_writtenRules :
    (∀ r ∈ writtenRules, r.Writable ⟨[("X".toList, "1".toList)], []⟩) ∧
      parse ⟨[("X".toList, "1".toList)], []⟩
        (".c.obj:\n\tcl $< $$(X)\n\t- -del $@\nC:\\out$$1: a:b $$(X)=1\n\t-\n".toList ++
          "!all;: end\nC:\\out$$1: C:/z\n\tif x\n".toList) =
        .ok (writtenRules.foldl RuleSet.insert .empty) := by
  have hwritable : ∀ r ∈ writtenRules, r.Writable ⟨[("X".toList, "1".toList)], []⟩ := by
    decide +kernel
  refine ⟨hwritable, ?_⟩
  rw [← parse_write _ writtenRules hwritable]
  exact congrArg _ (by decide +kernel)

end RuleFile

end BuildScript
