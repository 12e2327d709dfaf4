import BuildScript.Proofs.HandedLines
import BuildScript.Proofs.RuleLookup
import Mathlib.Data.List.Dedup

/-!
# Which commands belong to which rule

The commands after a header belong to it, until the next line that is no command, and of two headers
for one target the later one counts.  Here the logical lines of a rule file say which of them can be
accepted and which rules they make up, without a reader.  Reading is shown to agree: it gives
exactly these rules, or the first line that cannot be accepted.
-/

namespace BuildScript

namespace Header

/-- The only target of a header. -/
def name? (h : Header) : Option Text :=
  match h.targets with
  | [target] => some (Text.undoubleDollars target)
  | _ => none

end Header

namespace LogicalLine

def header? (line : LogicalLine) : Option Header :=
  match line.statement? with
  | some (.header h) => some h
  | _ => none

def command? (line : LogicalLine) : Option Command :=
  match line.statement? with
  | some (.command body) => some (.ofText body)
  | _ => none

def isCommand (line : LogicalLine) : Bool := line.command?.isSome

/-- The only target of a header line. -/
def target? (line : LogicalLine) : Option Text := line.header?.bind Header.name?

theorem command?_eq_some_iff {line : LogicalLine} {c : Command} :
    line.command? = some c ↔
      ∃ body, line.statement? = some (.command body) ∧ Command.ofText body = c := by
  unfold command?
  grind

theorem target?_eq_some_iff {line : LogicalLine} {name : Text} :
    line.target? = some name ↔ ∃ h target, line.statement? = some (.header h) ∧
      h.targets = [target] ∧ Text.undoubleDollars target = name := by
  unfold target? header? Header.name?
  grind

end LogicalLine

open LogicalLine (isCommand command? target?)

namespace RuleFile

variable {lines : List LogicalLine} {line : LogicalLine}

/-- The header that a command belongs to, from the lines before it: the nearest of them that is no
command must be a header. -/
def owner? (before : List LogicalLine) : Option Header :=
  (before.reverse.find? fun line ↦ !isCommand line).bind LogicalLine.header?

/-- The commands that belong to a header, from the lines after it: those before the first line that
is no command. -/
def ownedCommands : List LogicalLine → List Command
  | [] => []
  | line :: rest =>
    match line.command? with
    | some c => c :: ownedCommands rest
    | none => []

/-- A line that can be accepted after others. -/
inductive Acceptable (before : List LogicalLine) (line : LogicalLine) : Prop
  | command {body : Text} {h : Header} (hline : line.statement? = some (.command body))
      (howner : owner? before = some h)
  | definition {d : Definition} (hline : line.statement? = some (.definition d))
  | header {h : Header} (hline : line.statement? = some (.header h))
      (htargets : h.targets.length = 1)

/-- What is wrong with a line after others. -/
inductive Offends (before : List LogicalLine) (line : LogicalLine) : Fault → Prop
  | unrecognised (hline : line.statement? = none) : Offends before line .unrecognised
  | targetCount {h : Header} (hline : line.statement? = some (.header h))
      (htargets : h.targets.length ≠ 1) : Offends before line (.targetCount h.targets.length)
  | orphanCommand {body : Text} (hline : line.statement? = some (.command body))
      (howner : owner? before = none) : Offends before line .orphanCommand

/-- Each line can be accepted after those before it. -/
def AllAcceptable (lines : List LogicalLine) : Prop :=
  ∀ before line after, lines = before ++ line :: after → Acceptable before line

/-- A header for a target that has no other header in the lines after it. -/
def LastHeader (lines : List LogicalLine) (h : Header) (target : Text)
    (after : List LogicalLine) : Prop :=
  ∃ before line, lines = before ++ line :: after ∧ line.statement? = some (.header h) ∧
    h.targets = [target] ∧ Text.undoubleDollars target ∉ after.filterMap target?

/-- The rule of a header, with the commands that belong to it in the lines after it. -/
def ownedRule (h : Header) (target : Text) (after : List LogicalLine) : Rule where
  target := Text.undoubleDollars target
  sources := h.sources.map Text.undoubleDollars
  recipe := (h.command.filter fun body ↦ !Text.allBlank body).toList.map Command.ofText ++
    ownedCommands after

theorem owner?_append_singleton :
    owner? (lines ++ [line]) = if isCommand line then owner? lines else line.header? := by
  unfold owner?
  rw [List.reverse_append, List.reverse_singleton, List.singleton_append, List.find?_cons]
  cases isCommand line <;> rfl

theorem ownedCommands_append_singleton (after : List LogicalLine) :
    ownedCommands (after ++ [line]) =
      if after.all isCommand then ownedCommands after ++ line.command?.toList
      else ownedCommands after := by
  induction after with
  | nil =>
    simp only [List.nil_append, ownedCommands, List.all_nil, if_true]
    cases line.command? <;> rfl
  | cons first rest ih =>
    cases hfirst : first.command? with
    | none => simp [ownedCommands, isCommand, hfirst]
    | some c =>
      have hcommand : isCommand first = true := by simp [isCommand, hfirst]
      simp only [List.cons_append, ownedCommands, hfirst, ih, List.all_cons, hcommand,
        Bool.true_and]
      split <;> rfl

/-- One more command belongs to a header if all the lines between them are commands. -/
theorem ownedRule_append_command {h : Header} {target : Text} {after : List LogicalLine}
    {c : Command} (hline : line.command? = some c) :
    ownedRule h target (after ++ [line]) =
      if after.all isCommand then (ownedRule h target after).addCommand c
      else ownedRule h target after := by
  unfold ownedRule
  rw [ownedCommands_append_singleton, hline]
  split <;> simp [Rule.addCommand]

theorem ownedRule_append_other {h : Header} {target : Text} {after : List LogicalLine}
    (hline : line.command? = none) :
    ownedRule h target (after ++ [line]) = ownedRule h target after := by
  unfold ownedRule
  rw [ownedCommands_append_singleton, hline]
  simp

theorem owner?_of_all {before after : List LogicalLine} (h : after.all isCommand)
    (hline : isCommand line = false) : owner? (before ++ line :: after) = line.header? := by
  have hafter : after.reverse.find? (fun line ↦ !isCommand line) = none := by
    simpa using h
  unfold owner?
  rw [List.reverse_append, List.reverse_cons, List.find?_append, List.find?_append, hafter]
  simp [hline]

/-- If not all the lines at the end are commands, the owner of what follows is one of them. -/
theorem exists_mem_of_owner? {before after : List LogicalLine} {h : Header}
    (hafter : after.all isCommand = false) (howner : owner? (before ++ after) = some h) :
    ∃ line ∈ after, line.header? = some h := by
  unfold owner? at howner
  rw [List.reverse_append, List.find?_append] at howner
  cases hfind : after.reverse.find? (fun line ↦ !isCommand line) with
  | none =>
    have hall : ∀ line ∈ after, isCommand line = true := by simpa using hfind
    rw [List.all_eq_true.mpr hall] at hafter
    exact absurd hafter (by decide)
  | some line =>
    rw [hfind] at howner
    exact ⟨line, List.mem_reverse.mp (List.mem_of_find?_eq_some hfind), howner⟩

/-- The last header for a target after one more line is that line, or it was the last one before. -/
theorem LastHeader.of_append_singleton {h : Header} {target : Text} {after : List LogicalLine}
    (hlast : LastHeader (lines ++ [line]) h target after) :
    (after = [] ∧ line.statement? = some (.header h) ∧ h.targets = [target]) ∨
      ∃ after', after = after' ++ [line] ∧ LastHeader lines h target after' ∧
        line.target? ≠ some (Text.undoubleDollars target) := by
  obtain ⟨before, header, hlines, hheader, htargets, hnone⟩ := hlast
  rcases List.eq_nil_or_concat' after with rfl | ⟨after', last, rfl⟩
  · obtain ⟨-, rfl⟩ : lines = before ∧ line = header := by simpa using hlines
    exact .inl ⟨rfl, hheader, htargets⟩
  · rw [← List.cons_append, ← List.append_assoc] at hlines
    obtain ⟨rfl, hline⟩ := List.append_inj' hlines rfl
    obtain rfl := List.singleton_inj.mp hline
    simp only [List.filterMap_append, List.mem_append, not_or] at hnone
    refine .inr ⟨after', rfl, ⟨before, header, rfl, hheader, htargets, hnone.1⟩, ?_⟩
    intro htarget
    exact hnone.2 (by simp [htarget])

theorem exists_lastHeader {name : Text} (h : name ∈ lines.filterMap target?) :
    ∃ hd target after, LastHeader lines hd target after ∧ Text.undoubleDollars target = name := by
  induction lines with
  | nil => simp at h
  | cons line rest ih =>
    by_cases hrest : name ∈ rest.filterMap target?
    · obtain ⟨hd, target, after, ⟨before, header, rfl, hlast⟩, hname⟩ := ih hrest
      exact ⟨hd, target, after, ⟨line :: before, header, rfl, hlast⟩, hname⟩
    · have hline : line.target? = some name := by
        rw [List.filterMap_cons] at h
        split at h
        · exact absurd h hrest
        · rename_i found hfound
          rcases List.mem_cons.mp h with rfl | hmem
          · exact hfound
          · exact absurd hmem hrest
      obtain ⟨hd, target, hheader, htargets, rfl⟩ := LogicalLine.target?_eq_some_iff.mp hline
      exact ⟨hd, target, rest, ⟨[], line, rfl, hheader, htargets, hrest⟩, rfl⟩

theorem AllAcceptable.append_singleton (h : AllAcceptable lines) (hline : Acceptable lines line) :
    AllAcceptable (lines ++ [line]) := by
  intro before middle after hsplit
  rcases List.eq_nil_or_concat' after with rfl | ⟨after', last, rfl⟩
  · obtain ⟨rfl, rfl⟩ : lines = before ∧ line = middle := by simpa using hsplit
    exact hline
  · rw [← List.cons_append, ← List.append_assoc] at hsplit
    exact h before middle after' (List.append_inj_left' hsplit rfl)

theorem Offends.not_acceptable {fault : Fault} (h : Offends lines line fault) :
    ¬Acceptable lines line := by
  intro hacceptable
  cases h <;> cases hacceptable <;> simp_all

theorem Offends.fault_eq {fault fault' : Fault} (h : Offends lines line fault)
    (h' : Offends lines line fault') : fault = fault' := by
  cases h <;> cases h' <;> simp_all

/-- An owner is the last line before some commands. -/
theorem exists_append_of_owner? {h : Header} (howner : owner? lines = some h) :
    ∃ before header commands, lines = before ++ header :: commands ∧
      header.statement? = some (.header h) ∧ commands.all isCommand := by
  obtain ⟨header, hfind, hheader⟩ := Option.bind_eq_some_iff.mp howner
  obtain ⟨-, commands, before, hreverse, hcommands⟩ := List.find?_eq_some_iff_append.mp hfind
  refine ⟨before.reverse, header, commands.reverse, ?_, ?_, ?_⟩
  · rw [← List.reverse_reverse lines, hreverse]
    simp
  · unfold LogicalLine.header? at hheader
    grind
  · simpa using hcommands

end RuleFile

namespace Reader

open RuleFile

/-- What a reader holds is what the lines that it has accepted say. -/
structure Reflects (reader : Reader) (lines : List LogicalLine) : Prop where
  acceptable : AllAcceptable lines
  current : (owner? lines).map Header.name? = reader.current.map some
  goal : reader.rules.goal = (lines.filterMap target?).find? fun name ↦ name.head? != some '.'
  has : ∀ name, reader.rules.has name ↔ name ∈ lines.filterMap target?
  find? : ∀ h target after, LastHeader lines h target after →
    reader.rules.find? (Text.undoubleDollars target) = some (ownedRule h target after)

variable {reader reader' : Reader} {lines : List LogicalLine} {line : LogicalLine}

theorem reflects_start (b : Bindings) : (start b).Reflects [] where
  acceptable before line after h := by simp at h
  current := rfl
  goal := rfl
  has name := by simp [start, RuleSet.has]
  find? h target after hlast := by
    obtain ⟨before, line, hlines, -⟩ := hlast
    simp at hlines

theorem Reflects.offends {fault : Fault} (h : reader.Reflects lines)
    (hrejects : reader.Rejects line fault) : Offends lines line fault := by
  cases hrejects with
  | unrecognised hline => exact .unrecognised hline
  | targetCount hline htargets => exact .targetCount hline htargets
  | orphanCommand hline hcurrent =>
    have howner := h.current
    rw [hcurrent, Option.map_none, Option.map_eq_none_iff] at howner
    exact .orphanCommand hline howner

theorem Reflects.acceptable_of_accepts (h : reader.Reflects lines)
    (haccepts : reader.Accepts line reader') : Acceptable lines line := by
  cases haccepts with
  | command hline hcurrent =>
    have howner := h.current
    rw [hcurrent, Option.map_some, Option.map_eq_some_iff] at howner
    obtain ⟨hd, howner, -⟩ := howner
    exact .command hline howner
  | definition hline => exact .definition hline
  | header hline htargets => exact .header hline (by simp [htargets])

theorem Reflects.current_of_accepts (h : reader.Reflects lines)
    (haccepts : reader.Accepts line reader') :
    (owner? (lines ++ [line])).map Header.name? = reader'.current.map some := by
  rw [owner?_append_singleton]
  cases haccepts with
  | command hline hcurrent => simpa [isCommand, command?, hline] using h.current
  | definition hline => simp [isCommand, command?, LogicalLine.header?, hline]
  | header hline htargets =>
    simp [isCommand, command?, LogicalLine.header?, hline, Header.name?, htargets]

/-- The target that a line adds to those before it. -/
theorem target?_of_accepts (haccepts : reader.Accepts line reader') :
    (line.target? = none ∧ reader'.rules.goal = reader.rules.goal ∧
        ∀ name, reader'.rules.has name = reader.rules.has name) ∨
      ∃ r, line.target? = some r.target ∧ reader'.rules = reader.rules.insert r := by
  cases haccepts with
  | @command body target hline hcurrent =>
    refine .inl ⟨by simp [target?, LogicalLine.header?, hline], rfl, ?_⟩
    intro name
    simp [RuleSet.has, RuleSet.find?_addCommand]
  | definition hline =>
    exact .inl ⟨by simp [target?, LogicalLine.header?, hline], rfl, fun _ ↦ rfl⟩
  | @header h target hline htargets =>
    refine .inr ⟨h.rule target, ?_, rfl⟩
    simp [target?, LogicalLine.header?, hline, Header.name?, htargets, Header.rule]

theorem Reflects.goal_of_accepts (h : reader.Reflects lines)
    (haccepts : reader.Accepts line reader') :
    reader'.rules.goal =
      ((lines ++ [line]).filterMap target?).find? fun name ↦ name.head? != some '.' := by
  rw [List.filterMap_append, List.find?_append, ← h.goal]
  rcases target?_of_accepts haccepts with ⟨hnone, hgoal, -⟩ | ⟨r, hsome, hrules⟩
  · simp [hnone, hgoal]
  · simp only [hrules, RuleSet.insert, Rule.isDotted, List.filterMap_cons, hsome,
      List.filterMap_nil, List.find?_singleton, bne_iff_ne]
    grind

theorem Reflects.has_of_accepts (h : reader.Reflects lines)
    (haccepts : reader.Accepts line reader') (name : Text) :
    reader'.rules.has name ↔ name ∈ (lines ++ [line]).filterMap target? := by
  rw [List.filterMap_append, List.mem_append, ← h.has name]
  rcases target?_of_accepts haccepts with ⟨hnone, -, hhas⟩ | ⟨r, hsome, hrules⟩
  · simp [hnone, hhas]
  · simp only [hrules, RuleSet.has, RuleSet.find?_insert]
    split <;> simp [*]

/-- The rule of a last header is open as long as only commands came after it. -/
theorem Reflects.current_eq_iff (h : reader.Reflects lines) {name : Text}
    (hcurrent : reader.current = some name) {hd : Header} {target : Text}
    {after : List LogicalLine} (hlast : LastHeader lines hd target after) :
    Text.undoubleDollars target = name ↔ after.all isCommand := by
  have howner := h.current
  rw [hcurrent, Option.map_some, Option.map_eq_some_iff] at howner
  obtain ⟨owner, howner, hname⟩ := howner
  obtain ⟨before, header, rfl, hheader, htargets, hnone⟩ := hlast
  -- The owner is this header, or one after it, and that has another target.
  cases hall : after.all isCommand with
  | true =>
    rw [owner?_of_all hall (by simp [isCommand, command?, hheader])] at howner
    simp only [LogicalLine.header?, hheader, Option.some.injEq] at howner
    subst howner
    simpa [Header.name?, htargets] using hname
  | false =>
    rw [List.append_cons] at howner
    obtain ⟨line, hmem, hline⟩ := exists_mem_of_owner? hall howner
    have htarget : line.target? = some name := by simp [target?, hline, hname]
    have hne : Text.undoubleDollars target ≠ name := fun heq ↦
      hnone (List.mem_filterMap.mpr ⟨line, hmem, heq ▸ htarget⟩)
    simp [hne]

theorem Reflects.find?_of_accepts (h : reader.Reflects lines)
    (haccepts : reader.Accepts line reader') {hd : Header} {target : Text}
    {after : List LogicalLine} (hlast : LastHeader (lines ++ [line]) hd target after) :
    reader'.rules.find? (Text.undoubleDollars target) = some (ownedRule hd target after) := by
  rcases hlast.of_append_singleton with ⟨rfl, hhd, htargets⟩ | ⟨before, rfl, hlast, htarget⟩
  · -- The new line is the last header, so it cannot be anything else.
    cases haccepts with
    | command hline => simp [hhd] at hline
    | definition hline => simp [hhd] at hline
    | header hline htargets' =>
      obtain rfl : _ = _ := by simpa [hhd] using hline
      obtain rfl : _ = _ := by simpa [htargets] using htargets'
      simp [RuleSet.find?_insert, Header.rule, ownedRule, ownedCommands]
  · have hfind := h.find? hd target before hlast
    cases haccepts with
    | @command body name hline hcurrent =>
      have hcommand : line.command? = some (.ofText body) := by simp [command?, hline]
      rw [ownedRule_append_command hcommand, RuleSet.find?_addCommand, hfind]
      simp only [h.current_eq_iff hcurrent hlast, Option.map_some]
    | definition hline =>
      rw [ownedRule_append_other (by simp [command?, hline])]
      exact hfind
    | @header hd' target' hline htargets =>
      rw [ownedRule_append_other (by simp [command?, hline]), RuleSet.find?_insert, if_neg]
      · exact hfind
      · intro heq
        refine htarget (LogicalLine.target?_eq_some_iff.mpr ⟨hd', target', hline, htargets, ?_⟩)
        exact heq.symm

theorem Reflects.accepts (h : reader.Reflects lines) (haccepts : reader.Accepts line reader') :
    reader'.Reflects (lines ++ [line]) where
  acceptable := h.acceptable.append_singleton (h.acceptable_of_accepts haccepts)
  current := h.current_of_accepts haccepts
  goal := h.goal_of_accepts haccepts
  has := h.has_of_accepts haccepts
  find? _ _ _ := h.find?_of_accepts haccepts

theorem Reflects.perm_targets (h : reader.Reflects lines) :
    reader.rules.targets.Perm (lines.filterMap target?).dedup := by
  apply (List.perm_ext_iff_of_nodup (RuleSet.nodup_targets _) (List.nodup_dedup _)).mpr
  intro name
  rw [← RuleSet.has_iff_mem_targets, h.has, List.mem_dedup]

theorem Reflects.mem_rules_iff (h : reader.Reflects lines) (r : Rule) :
    r ∈ reader.rules.rules ↔
      ∃ hd target after, LastHeader lines hd target after ∧ r = ownedRule hd target after := by
  constructor
  · intro hr
    have hfind := RuleSet.find?_target hr
    have hhas : reader.rules.has r.target := RuleSet.has_iff_exists_find?.mpr ⟨r, hfind⟩
    obtain ⟨hd, target, after, hlast, htarget⟩ := exists_lastHeader ((h.has r.target).mp hhas)
    rw [← htarget, h.find? hd target after hlast] at hfind
    exact ⟨hd, target, after, hlast, (Option.some.inj hfind).symm⟩
  · rintro ⟨hd, target, after, hlast, rfl⟩
    exact RuleSet.mem_of_find? (h.find? hd target after hlast)

/-- Accepting lines one after another ends well with what they say, or at the first that cannot be
accepted. -/
theorem Reflects.foldlM_accept {before : List LogicalLine} (h : reader.Reflects before)
    (lines : List LogicalLine) :
    (∃ reader', lines.foldlM accept reader = .ok reader' ∧ reader'.Reflects (before ++ lines)) ∨
      ∃ first line rest fault, lines = first ++ line :: rest ∧
        lines.foldlM accept reader = .error ⟨fault, line⟩ ∧
        AllAcceptable (before ++ first) ∧ Offends (before ++ first) line fault := by
  induction lines generalizing reader before with
  | nil => exact .inl ⟨reader, rfl, by simpa using h⟩
  | cons line rest ih =>
    rw [List.foldlM_cons]
    rcases reader.accept_cases line with ⟨reader', hok, haccepts⟩ | ⟨fault, herror, hrejects⟩
    · rw [hok]
      rcases ih (h.accepts haccepts) with ⟨last, hlast, hreflects⟩ | hfails
      · exact .inl ⟨last, hlast, by simpa using hreflects⟩
      · obtain ⟨first, offender, tail, fault, rfl, herror, hfirst, hoffends⟩ := hfails
        rw [List.append_assoc] at hfirst hoffends
        exact .inr ⟨line :: first, offender, tail, fault, rfl, herror, hfirst, hoffends⟩
    · rw [herror]
      refine .inr ⟨[], line, rest, fault, rfl, rfl, ?_, ?_⟩
      · simpa using h.acceptable
      · simpa using h.offends hrejects

end Reader

namespace RuleFile

variable {b : Bindings} {text : Text}

theorem exists_reflects_of_parse {g : RuleSet} (h : parse b text = .ok g) :
    ∃ reader : Reader, reader.rules = g ∧ reader.Reflects (logicalLines b text) := by
  rw [parse_eq] at h
  rcases (Reader.reflects_start b).foldlM_accept (logicalLines b text) with
    ⟨reader, hok, hreflects⟩ | ⟨first, line, rest, fault, -, herror, -⟩
  · rw [hok] at h
    exact ⟨reader, Except.ok.inj h, hreflects⟩
  · rw [herror] at h
    cases h

theorem exists_offends_of_parse {e : ParseError} (h : parse b text = .error e) :
    ∃ before after, logicalLines b text = before ++ e.line :: after ∧ AllAcceptable before ∧
      Offends before e.line e.fault := by
  rw [parse_eq] at h
  rcases (Reader.reflects_start b).foldlM_accept (logicalLines b text) with
    ⟨reader, hok, -⟩ | ⟨first, line, rest, fault, hlines, herror, hfirst, hoffends⟩
  · rw [hok] at h
    cases h
  · rw [herror] at h
    obtain rfl := Except.error.inj h
    exact ⟨first, rest, hlines, hfirst, hoffends⟩

theorem exists_offends_of_not_allAcceptable {lines : List LogicalLine} (h : ¬AllAcceptable lines) :
    ∃ before line after fault, lines = before ++ line :: after ∧ AllAcceptable before ∧
      Offends before line fault := by
  rcases (Reader.reflects_start ⟨[], []⟩).foldlM_accept lines with
    ⟨reader, -, hreflects⟩ | ⟨before, line, after, fault, hlines, -, hbefore, hoffends⟩
  · exact absurd hreflects.acceptable h
  · exact ⟨before, line, after, fault, hlines, hbefore, hoffends⟩

/-- The first line that cannot be accepted decides the error. -/
theorem parse_eq_error_of_offends {before after : List LogicalLine} {line : LogicalLine}
    {fault : Fault} (hlines : logicalLines b text = before ++ line :: after)
    (hbefore : AllAcceptable before) (hoffends : Offends before line fault) :
    parse b text = .error ⟨fault, line, Span.ofLine text line.number⟩ := by
  have hfold : (before ++ line :: after).foldlM Reader.accept (Reader.start b) =
      .error ⟨fault, line⟩ := by
    rcases (Reader.reflects_start b).foldlM_accept before with
      ⟨reader, hok, hreflects⟩ | ⟨first, other, rest, _, hsplit, -, -, hother⟩
    · rw [List.nil_append] at hreflects
      rcases reader.accept_cases line with ⟨_, -, haccepts⟩ | ⟨found, herror, hrejects⟩
      · exact absurd (hreflects.acceptable_of_accepts haccepts) hoffends.not_acceptable
      · rw [hoffends.fault_eq (hreflects.offends hrejects), List.foldlM_append, hok]
        calc
          _ = (line :: after).foldlM Reader.accept reader := rfl
          _ = .error ⟨found, line⟩ := by
            rw [List.foldlM_cons, herror]
            rfl
    · exact absurd (hbefore first other rest hsplit) hother.not_acceptable
  rw [parse_eq, hlines, hfold]

/-- A rule file is read if and only if each of its logical lines can be accepted after those before
it.  Then each target has one rule, that of its last header with the commands that belong to this
header, and the default goal is the first target without a leading dot.  Else the error is about
the first line that cannot be accepted. -/
theorem parse_gives_owned_rules (b : Bindings) (text : Text) :
    ((∃ g, parse b text = .ok g) ↔ AllAcceptable (logicalLines b text)) ∧
      (∀ g, parse b text = .ok g →
        g.targets.Perm ((logicalLines b text).filterMap target?).dedup ∧
        (∀ r, r ∈ g.rules ↔ ∃ h target after, LastHeader (logicalLines b text) h target after ∧
          r = ownedRule h target after) ∧
        g.goal = ((logicalLines b text).filterMap target?).find? fun name ↦
          name.head? != some '.') ∧
      ∀ e, parse b text = .error e → ∃ before after,
        logicalLines b text = before ++ e.line :: after ∧ AllAcceptable before ∧
        Offends before e.line e.fault := by
  refine ⟨⟨?_, ?_⟩, ?_, fun e ↦ exists_offends_of_parse⟩
  · rintro ⟨g, hg⟩
    obtain ⟨reader, -, hreflects⟩ := exists_reflects_of_parse hg
    exact hreflects.acceptable
  · intro hall
    cases hparse : parse b text with
    | ok g => exact ⟨g, rfl⟩
    | error e =>
      obtain ⟨before, after, hlines, -, hoffends⟩ := exists_offends_of_parse hparse
      exact absurd (hall before e.line after hlines) hoffends.not_acceptable
  · intro g hg
    obtain ⟨reader, rfl, hreflects⟩ := exists_reflects_of_parse hg
    exact ⟨hreflects.perm_targets, hreflects.mem_rules_iff, hreflects.goal⟩

-- A definition, three headers, a command on the line of its header and three on lines of their own.
-- The second header for `a` takes the place of the first one, and of its command.
example : parse (.ofOverrides [])
      "X=1\n.c.o:\n\t-cc $<\na: b$(X).c\n\techo a\na: c ; del $@\n\techo $@\n".toList =
    .ok ([⟨".c.o".toList, [], [⟨"cc $<".toList, true⟩]⟩,
      ⟨"a".toList, ["c".toList], [⟨"del $@".toList, false⟩, ⟨"echo $@".toList, false⟩]⟩].foldl
        RuleSet.insert .empty) := by
  decide +kernel

end RuleFile

end BuildScript
