import BuildScript.Proofs.Indentation

/-!
# Commands after a header that is dropped

A header whose target starts like a conditional directive is dropped, and the lines around it are
read as if it were not there.  Its commands are refused if no rule is open before it.  But if one
is, they go to that rule, which is not the one that they were written for.
-/

namespace BuildScript

open LogicalLine (isIndented isCommand isDirective withoutComment content? target?)

namespace LogicalLine

/-- A line with a name, a colon and a blank that is taken for a conditional directive.  The name
holds word characters and dots. -/
structure IsDroppedHeader (line : Text) : Prop where
  form : ∃ name rest : Text, name ≠ [] ∧ (name.all fun c ↦ Text.isWordChar c || c == '.') ∧
    line = name ++ ':' :: ' ' :: rest
  directive : isDirective (withoutComment line)

theorem IsDroppedHeader.isIndented_eq_false {line : Text} (h : IsDroppedHeader line) :
    isIndented line = false := by
  obtain ⟨name, rest, hne, hname, rfl⟩ := h.form
  obtain ⟨c, name, rfl⟩ := List.exists_cons_of_ne_nil hne
  have hc : Text.isWordChar c || c == '.' := List.all_eq_true.mp hname c List.mem_cons_self
  have hmark (mark : Char) (hmark : (Text.isWordChar mark || mark == '.') = false) : c ≠ mark := by
    rintro rfl
    exact Bool.false_ne_true (hmark.symm.trans hc)
  simp [isIndented, hmark '\t' (by decide), hmark ' ' (by decide)]

theorem IsDroppedHeader.content?_eq_none {line : Text} (h : IsDroppedHeader line) :
    content? line = none := by
  simp [content?, h.isIndented_eq_false, h.directive]

end LogicalLine

open LogicalLine (IsDroppedHeader)

theorem JoinedLine.handed?_of_isDroppedHeader {joined : JoinedLine}
    (h : IsDroppedHeader joined.line.text) : joined.handed? = none := by
  rw [handed?, LogicalLine.complete?, h.content?_eq_none, Option.map_none]

namespace RuleFile

variable {b : Bindings} {text : Text}

theorem ownedCommands_append {commands : List LogicalLine} (h : commands.all isCommand)
    (after : List LogicalLine) :
    ownedCommands (commands ++ after) = commands.filterMap LogicalLine.command? ++
      ownedCommands after := by
  induction commands with
  | nil => rfl
  | cons line rest ih =>
    rw [List.all_cons, Bool.and_eq_true] at h
    obtain ⟨hline, hrest⟩ := h
    obtain ⟨c, hc⟩ := Option.isSome_iff_exists.mp hline
    simp [ownedCommands, hc, ih hrest]

theorem target?_of_isCommand {line : LogicalLine} (h : isCommand line) : line.target? = none := by
  unfold isCommand LogicalLine.command? at h
  unfold target? LogicalLine.header?
  grind

/-- The lines end with a header for one target and the commands that belong to it so far. -/
structure EndsOpen (lines : List LogicalLine) (h : Header) (target : Text)
    (commands : List LogicalLine) : Prop where
  header : ∃ first line, lines = first ++ line :: commands ∧ line.statement? = some (.header h)
  targets : h.targets = [target]
  commands : commands.all isCommand

theorem exists_endsOpen_of_owner? {lines : List LogicalLine} {h : Header} {name : Text}
    (howner : owner? lines = some h) (hname : h.name? = some name) :
    ∃ target commands, Text.undoubleDollars target = name ∧
      EndsOpen lines h target commands := by
  obtain ⟨first, line, commands, hlines, hline, hcommands⟩ := exists_append_of_owner? howner
  obtain ⟨target, htargets, htarget⟩ : ∃ target, h.targets = [target] ∧
      Text.undoubleDollars target = name := by
    unfold Header.name? at hname
    grind
  exact ⟨target, commands, htarget, ⟨first, line, hlines, hline⟩, htargets, hcommands⟩

namespace EndsOpen

variable {lines : List LogicalLine} {h : Header} {target : Text} {commands : List LogicalLine}

/-- The header stays the last one for its target until another comes. -/
theorem lastHeader (hopen : EndsOpen lines h target commands) (after : List LogicalLine)
    (hlater : Text.undoubleDollars target ∉ after.filterMap target?) :
    LastHeader (lines ++ after) h target (commands ++ after) := by
  obtain ⟨first, line, rfl, hline⟩ := hopen.header
  refine ⟨first, line, by simp, hline, hopen.targets, ?_⟩
  rw [List.filterMap_append, List.mem_append, not_or]
  refine ⟨fun hmem ↦ ?_, hlater⟩
  obtain ⟨command, hcommand, htarget⟩ := List.mem_filterMap.mp hmem
  rw [target?_of_isCommand (List.all_eq_true.mp hopen.commands command hcommand)] at htarget
  cases htarget

/-- What comes later is added at the end of the recipe. -/
theorem recipe_ownedRule (hopen : EndsOpen lines h target commands) (after : List LogicalLine) :
    (ownedRule h target (commands ++ after)).recipe =
      (ownedRule h target commands).recipe ++ ownedCommands after := by
  have hcommands : ownedCommands commands = commands.filterMap LogicalLine.command? := by
    simpa [ownedCommands] using ownedCommands_append hopen.commands []
  simp only [ownedRule, ownedCommands_append hopen.commands, hcommands, List.append_assoc]

end EndsOpen

/-- A command is taken while a rule is open, and goes to the end of its recipe. -/
theorem exists_accept_of_endsOpen (b : Bindings) {lines commands : List LogicalLine}
    {line : LogicalLine} {c : Command} {h : Header} {target : Text} (hlines : AllAcceptable lines)
    (howner : owner? lines = some h) (hopen : EndsOpen lines h target commands)
    (hline : line.command? = some c) :
    ∃ reader reader', lines.foldlM Reader.accept (Reader.start b) = .ok reader ∧
      reader.rules.find? (Text.undoubleDollars target) = some (ownedRule h target commands) ∧
      reader.accept line = .ok reader' ∧
      reader'.rules.find? (Text.undoubleDollars target) =
        some ((ownedRule h target commands).addCommand c) := by
  have hcommand : isCommand line := by simp [isCommand, hline]
  have hbefore : LastHeader lines h target commands := by
    simpa using hopen.lastHeader [] (by simp)
  have hafter : LastHeader (lines ++ [line]) h target (commands ++ [line]) :=
    hopen.lastHeader [line] (by simp [target?_of_isCommand hcommand])
  rcases (Reader.reflects_start b).foldlM_accept lines with
    ⟨reader, hok, hreflects⟩ | ⟨first, other, rest, _, hsplit, -, -, hother⟩
  · rw [List.nil_append] at hreflects
    refine ⟨reader, ?_⟩
    rcases reader.accept_cases line with ⟨reader', haccept, haccepts⟩ | ⟨fault, -, hrejects⟩
    · have hfind := (hreflects.accepts haccepts).find? h target _ hafter
      rw [ownedRule_append_command hline, if_pos hopen.commands] at hfind
      exact ⟨reader', hok, hreflects.find? h target _ hbefore, haccept, hfind⟩
    · obtain ⟨body, hstatement, -⟩ := LogicalLine.command?_eq_some_iff.mp hline
      exact absurd (.command hstatement howner) (hreflects.offends hrejects).not_acceptable
  · exact absurd (hlines first other rest hsplit) hother.not_acceptable

/-- What becomes of an indented line after a header that is dropped.  It is handed on as a command.
If a line before is at fault, that is the error; else, if no rule is open before the header, it is
an error that the command has no rule; and if a rule is open there, the command is added at the end
of its recipe, whatever comes after it.  Where the file is read and has no later rule for the same
target, the recipe is the one before the header, then this command, then those that follow it. -/
theorem command_after_dropped_header {before after : List JoinedLine} {dropped recipe : JoinedLine}
    (hlines : rawLines b text = before ++ dropped :: recipe :: after)
    (hdropped : IsDroppedHeader dropped.line.text) (hrecipe : isIndented recipe.line.text) :
    ∃ line c, recipe.handed? = some line ∧ line.command? = some c ∧
      (¬AllAcceptable (before.filterMap JoinedLine.handed?) →
        ∃ e, parse b text = .error e ∧ e.line ∈ before.filterMap JoinedLine.handed?) ∧
      (AllAcceptable (before.filterMap JoinedLine.handed?) →
        owner? (before.filterMap JoinedLine.handed?) = none →
        parse b text = .error ⟨.orphanCommand, line, Span.ofLine text line.number⟩) ∧
      ∀ h name, owner? (before.filterMap JoinedLine.handed?) = some h → h.name? = some name →
        ∃ earlier : Rule, earlier.target = name ∧
          (AllAcceptable (before.filterMap JoinedLine.handed?) → ∃ reader reader',
            (before.filterMap JoinedLine.handed?).foldlM Reader.accept (.start b) = .ok reader ∧
            reader.rules.find? name = some earlier ∧ reader.accept line = .ok reader' ∧
            reader'.rules.find? name = some (earlier.addCommand c)) ∧
          ∀ g, name ∉ (after.filterMap JoinedLine.handed?).filterMap target? →
            parse b text = .ok g → ∃ r ∈ g.rules, r.target = name ∧
              r.recipe =
                earlier.recipe ++ c :: ownedCommands (after.filterMap JoinedLine.handed?) := by
  obtain ⟨line, hhanded, hcommand⟩ := JoinedLine.exists_handed?_of_isIndented hrecipe
  obtain ⟨c, hc⟩ := Option.isSome_iff_exists.mp hcommand
  have hlogical : logicalLines b text = before.filterMap JoinedLine.handed? ++
      line :: after.filterMap JoinedLine.handed? := by
    rw [logicalLines_eq_filterMap, hlines, List.filterMap_append, List.filterMap_cons,
      JoinedLine.handed?_of_isDroppedHeader hdropped]
    simp [hhanded]
  refine ⟨line, c, hhanded, hc, ?_, ?_, ?_⟩
  · intro hfault
    obtain ⟨first, offender, rest, fault, hsplit, hfirst, hoffends⟩ :=
      exists_offends_of_not_allAcceptable hfault
    rw [hsplit, List.append_assoc, List.cons_append] at hlogical
    exact ⟨_, parse_eq_error_of_offends hlogical hfirst hoffends, by simp [hsplit]⟩
  · intro hbefore howner
    obtain ⟨body, hstatement, -⟩ := LogicalLine.command?_eq_some_iff.mp hc
    exact parse_eq_error_of_offends hlogical hbefore (.orphanCommand hstatement howner)
  · intro h name howner hname
    obtain ⟨target, commands, rfl, hopen⟩ := exists_endsOpen_of_owner? howner hname
    refine ⟨ownedRule h target commands, rfl, ?_, ?_⟩
    · intro hbefore
      exact exists_accept_of_endsOpen b hbefore howner hopen hc
    · intro g hlater hparse
      obtain ⟨reader, rfl, hreflects⟩ := exists_reflects_of_parse hparse
      have hlast := hopen.lastHeader (line :: after.filterMap JoinedLine.handed?)
        (by simpa [target?_of_isCommand hcommand] using hlater)
      rw [← hlogical] at hlast
      refine ⟨_, (hreflects.mem_rules_iff _).mpr ⟨h, target, _, hlast, rfl⟩, rfl, ?_⟩
      rw [hopen.recipe_ownedRule]
      simp [ownedCommands, hc]

/-- A header that is dropped after a definition has closed the rule before it. -/
def closedBefore : Text := "a: b\n\techo a\nX=1\nendpoint: x\n\n# note\n\techo y\n".toList

theorem isDroppedHeader_endpoint : IsDroppedHeader "endpoint: x".toList where
  form := ⟨"endpoint".toList, "x".toList, by decide⟩
  directive := by decide

theorem command_after_dropped_header_closedBefore :
    IsDroppedHeader "endpoint: x".toList ∧ isIndented "\techo y".toList ∧
      parse (.ofOverrides []) closedBefore =
        .error ⟨.orphanCommand, ⟨7, "\techo y".toList⟩, ⟨37, 7⟩⟩ := by
  refine ⟨isDroppedHeader_endpoint, by decide, ?_⟩
  have hlines : rawLines (.ofOverrides []) closedBefore =
      [⟨.ofOverrides [], 1, "a: b".toList⟩, ⟨.ofOverrides [], 2, "\techo a".toList⟩,
        ⟨.ofOverrides [], 3, "X=1".toList⟩] ++
      ⟨(Bindings.ofOverrides []).define "X".toList "1".toList, 4, "endpoint: x".toList⟩ ::
      ⟨(Bindings.ofOverrides []).define "X".toList "1".toList, 7, "\techo y".toList⟩ :: [] := by
    decide +kernel
  obtain ⟨line, c, hline, -, -, herror, -⟩ :=
    command_after_dropped_header hlines isDroppedHeader_endpoint (by decide)
  obtain rfl : (⟨7, "\techo y".toList⟩ : LogicalLine) = line :=
    Option.some.inj (Eq.trans (by decide +kernel) hline)
  rw [herror]
  · decide +kernel
  · -- The lines before the header are a rule file by themselves, and that can be read.
    have hparse : parse (.ofOverrides []) "a: b\n\techo a\nX=1\n".toList =
        .ok (RuleSet.empty.insert ⟨"a".toList, ["b".toList], [⟨"echo a".toList, false⟩]⟩) := by
      decide +kernel
    obtain ⟨reader, -, hreflects⟩ := exists_reflects_of_parse hparse
    convert hreflects.acceptable using 1
    decide +kernel
  · decide +kernel

/-- A header that is dropped while the rule before it is open. -/
def openBefore : Text := "a:\n\techo a\nendpoint: x\n\techo y\n".toList

/-- The command of the header is added to the recipe of the rule before. -/
theorem dropped_header_misplaces_command :
    rawLines (.ofOverrides []) openBefore =
        [⟨.ofOverrides [], 1, "a:".toList⟩, ⟨.ofOverrides [], 2, "\techo a".toList⟩,
          ⟨.ofOverrides [], 3, "endpoint: x".toList⟩, ⟨.ofOverrides [], 4, "\techo y".toList⟩] ∧
      IsDroppedHeader "endpoint: x".toList ∧ isIndented "\techo y".toList ∧
      parse (.ofOverrides []) openBefore =
        .ok (RuleSet.empty.insert
          ⟨"a".toList, [], [⟨"echo a".toList, false⟩, ⟨"echo y".toList, false⟩]⟩) := by
  refine ⟨?_, isDroppedHeader_endpoint, by decide, ?_⟩
  · decide +kernel
  · decide +kernel

end RuleFile

end BuildScript
