import BuildScript.Proofs.OneLine
import BuildScript.Proofs.Ownership
import Mathlib.Data.List.DropRight

/-!
# Texts that are read from a rule file

Names and commands are put together from parts of physical lines and from values of bindings, so a
line feed can stand in them only if it stands in an override.  Names are words, and these are never
empty.
-/

namespace BuildScript

/-! ## Parts of a text -/

namespace Text

theorem oneLine_of_mem_lines {text line : Text} (h : line ∈ lines text) : OneLine line := by
  fun_induction lines text generalizing line with
  | case1 => simp at h
  | case2 rest ih =>
    rcases List.mem_cons.mp h with rfl | hrest
    · exact oneLine_nil
    · exact ih hrest
  | case3 c rest hc =>
    obtain rfl := List.mem_singleton.mp h
    exact oneLine_cons.mpr ⟨Ne.symm hc, oneLine_nil⟩
  | case4 c rest hc first more hlines ih =>
    rw [hlines] at ih
    rcases List.mem_cons.mp h with rfl | hmore
    · exact oneLine_cons.mpr ⟨Ne.symm hc, ih List.mem_cons_self⟩
    · exact ih (List.mem_cons_of_mem _ hmore)

theorem dropAtEnd_subset (mark : Char) (text : Text) : dropAtEnd mark text ⊆ text :=
  (List.rdropWhile_prefix (· == mark) text).subset

theorem trimStart_subset (text : Text) : trimStart text ⊆ text :=
  (List.dropWhile_sublist _).subset

theorem trimEnd_subset (text : Text) : trimEnd text ⊆ text :=
  (List.rdropWhile_prefix isBlank text).subset

theorem trim_subset (text : Text) : trim text ⊆ text :=
  List.Subset.trans (trimEnd_subset _) (trimStart_subset _)

theorem subset_of_dropLast? {mark : Char} {text rest : Text} (h : dropLast? mark text = some rest) :
    rest ⊆ text := by
  unfold dropLast? at h
  split at h
  · exact Option.some.inj h ▸ List.dropLast_subset text
  · cases h

theorem leadingWord_spec (text : Text) :
    (leadingWord text).1 ⊆ text ∧ ∀ word ∈ (leadingWord text).2, word ≠ [] ∧ word ⊆ text := by
  induction text with
  | nil => simp [leadingWord]
  | cons c rest ih =>
    simp only [leadingWord]
    have hword := List.subset_cons_of_subset c ih.1
    have hwords : ∀ word ∈ (leadingWord rest).2, word ≠ [] ∧ word ⊆ c :: rest := fun word h ↦
      ⟨(ih.2 word h).1, List.subset_cons_of_subset c (ih.2 word h).2⟩
    split
    · refine ⟨List.nil_subset _, ?_⟩
      split
      · exact hwords
      · rename_i hne
        exact List.forall_mem_cons.mpr ⟨⟨by simpa using hne, hword⟩, hwords⟩
    · exact ⟨List.cons_subset_cons c ih.1, hwords⟩

theorem mem_words {text word : Text} (h : word ∈ words text) : word ≠ [] ∧ word ⊆ text := by
  unfold words at h
  simp only [] at h
  split at h
  · exact (leadingWord_spec text).2 word h
  · rename_i hne
    rcases List.mem_cons.mp h with rfl | hmem
    · exact ⟨by simpa using hne, (leadingWord_spec text).1⟩
    · exact (leadingWord_spec text).2 word hmem

theorem undoubleDollars_subset (text : Text) : undoubleDollars text ⊆ text := by
  fun_induction undoubleDollars text with
  | case1 rest ih =>
    exact List.cons_subset_cons '$' (List.subset_cons_of_subset '$' ih)
  | case2 c rest _ ih => exact List.cons_subset_cons c ih
  | case3 => exact List.nil_subset _

theorem undoubleDollars_ne_nil {text : Text} (h : text ≠ []) : undoubleDollars text ≠ [] := by
  fun_cases undoubleDollars text <;> simp_all

theorem reference?_subset {text name rest : Text} (h : reference? text = some (name, rest)) :
    name ⊆ text ∧ rest ⊆ text := by
  obtain ⟨mark, close, -, -, -, rfl⟩ := reference?_eq_some_iff.mp h
  refine ⟨List.subset_cons_of_subset _ (List.subset_append_left name _), ?_⟩
  exact List.subset_cons_of_subset _
    (List.subset_append_of_subset_right name (List.subset_cons_self close rest))

end Text

/-! ## Bindings and expansion -/

namespace Bindings

open Text (OneLine oneLine_nil oneLine_cons oneLine_append)

/-- No value holds a line feed. -/
def ValuesOneLine (b : Bindings) : Prop := ∀ binding ∈ b.overrides ++ b.defined, OneLine binding.2

variable {b : Bindings}

theorem valuesOneLine_ofOverrides {overrides : List (Text × Text)}
    (h : ∀ override ∈ overrides, OneLine override.2) : (ofOverrides overrides).ValuesOneLine := by
  have hbuiltins : ∀ binding ∈ builtins, OneLine binding.2 := by decide
  intro binding hbinding
  rcases List.mem_append.mp hbinding with hmem | hmem
  · exact h binding (List.mem_reverse.mp hmem)
  · exact hbuiltins binding hmem

theorem ValuesOneLine.value (h : b.ValuesOneLine) {name : Text} (hname : OneLine name) :
    OneLine (b.value name) := by
  unfold Bindings.value
  cases hlookup : b.lookup name with
  | none => simp [hname]
  | some value => exact h (name, value) (mem_append_of_lookup hlookup)

theorem ValuesOneLine.expand (h : b.ValuesOneLine) {text : Text} (htext : OneLine text) :
    OneLine (b.expand text) := by
  fun_induction Bindings.expand b text with
  | case1 => exact oneLine_nil
  | case2 rest ih =>
    simp only [oneLine_cons] at htext ⊢
    exact ⟨htext.1, htext.2.1, ih htext.2.2⟩
  | case3 rest name tail href _ ih =>
    rw [oneLine_cons] at htext
    have hparts := Text.reference?_subset href
    rw [oneLine_append]
    exact ⟨h.value (htext.2.of_subset hparts.1), ih (htext.2.of_subset hparts.2)⟩
  | case4 rest href _ ih =>
    rw [oneLine_cons] at htext ⊢
    exact ⟨htext.1, ih htext.2⟩
  | case5 c rest _ hc ih =>
    rw [oneLine_cons] at htext ⊢
    exact ⟨htext.1, ih htext.2⟩

theorem ValuesOneLine.define (h : b.ValuesOneLine) {name value : Text} (hvalue : OneLine value) :
    (b.define name value).ValuesOneLine := by
  intro binding hbinding
  rcases List.mem_append.mp hbinding with hoverride | hdefined
  · exact h binding (List.mem_append_left _ hoverride)
  · rcases List.mem_cons.mp hdefined with rfl | hdefined
    · exact hvalue
    · exact h binding (List.mem_append_right _ hdefined)

theorem ValuesOneLine.assign (h : b.ValuesOneLine) {d : Definition} (hvalue : OneLine d.value) :
    (b.assign d).ValuesOneLine := by
  unfold Bindings.assign
  split
  · exact h.define hvalue
  · exact h.define hvalue
  · split
    · exact h
    · exact h.define hvalue
  · apply h.define
    have hold : OneLine ((b.defined.lookup d.name).getD []) := by
      cases hlookup : b.defined.lookup d.name with
      | none => exact oneLine_nil
      | some value => exact h _ (List.mem_append_right _ (mem_of_lookup hlookup))
    unfold joinValues
    split <;> simp [hold, hvalue]

end Bindings

/-! ## Logical lines -/

theorem Definition.value_subset_of_ofLine? {line : Text} {d : Definition}
    (h : Definition.ofLine? line = some d) : d.value ⊆ line := by
  unfold Definition.ofLine? at h
  simp only [] at h
  split at h
  · cases h
  · obtain ⟨⟨operator, value⟩, hread, rfl⟩ := Option.map_eq_some_iff.mp h
    unfold Operator.read? at hread
    obtain ⟨⟨spelling, _⟩, -, hspelling⟩ := List.exists_of_findSome?_eq_some hread
    obtain ⟨rest, hafter, heq⟩ := Option.map_eq_some_iff.mp hspelling
    obtain ⟨-, rfl⟩ := Prod.mk.inj heq
    rw [Text.after?_eq_some_iff] at hafter
    calc
      Text.trim rest ⊆ rest := Text.trim_subset rest
      _ ⊆ Text.trimStart (line.dropWhile Text.isWordChar) :=
        hafter ▸ List.subset_append_right spelling rest
      _ ⊆ line.dropWhile Text.isWordChar := Text.trimStart_subset _
      _ ⊆ line := (List.dropWhile_sublist _).subset

namespace Header

theorem append_of_splitColon? {backwards line head tail : Text}
    (h : splitColon? backwards line = some (head, tail)) :
    backwards.reverse ++ line = head ++ ':' :: tail := by
  fun_induction splitColon? backwards line with
  | case1 => cases h
  | case2 backwards c rest hcolon =>
    obtain ⟨rfl, rfl⟩ : backwards.reverse = head ∧ rest = tail := by simpa using h
    rw [hcolon.1]
  | case3 backwards c rest _ ih => simpa using ih h

/-- The names of a header are words of its line, and its command is a part of the line. -/
theorem parts_of_ofLine? {line : Text} {h : Header} (hline : ofLine? line = some h) :
    (∀ word ∈ h.targets ++ h.sources, word ≠ [] ∧ word ⊆ line) ∧
      ∀ command, h.command = some command → command ⊆ line := by
  unfold ofLine? at hline
  obtain ⟨⟨head, tail⟩, hsplit, rfl⟩ := Option.map_eq_some_iff.mp hline
  have hsides : line = head ++ ':' :: tail := append_of_splitColon? hsplit
  have hhead : head ⊆ line := hsides ▸ List.subset_append_left head _
  have htail : (Text.after? [':'] tail).getD tail ⊆ line :=
    List.Subset.trans (Text.getD_after?_subset _ tail)
      (hsides ▸ List.subset_append_of_subset_right head (List.subset_cons_self ':' tail))
  have hwords {text : Text} (hsub : text ⊆ line) :
      ∀ word ∈ Text.words text, word ≠ [] ∧ word ⊆ line := fun word hword ↦
    ⟨(Text.mem_words hword).1, List.Subset.trans (Text.mem_words hword).2 hsub⟩
  simp only []
  split
  · refine ⟨List.forall_mem_append.mpr ⟨hwords hhead, hwords htail⟩, ?_⟩
    intro command hcommand
    cases hcommand
  · rename_i sources command hcut
    have hcut := Text.eq_append_of_cut? hcut
    refine ⟨List.forall_mem_append.mpr ⟨hwords hhead, hwords ?_⟩, ?_⟩
    · exact List.Subset.trans (hcut ▸ List.subset_append_left sources _) htail
    · intro text htext
      obtain rfl := Option.some.inj htext
      calc
        Text.trimStart command ⊆ command := Text.trimStart_subset command
        _ ⊆ (Text.after? [':'] tail).getD tail := by
          rw [hcut]
          exact List.subset_append_of_subset_right sources (List.subset_cons_self ';' command)
        _ ⊆ line := htail

end Header

namespace LogicalLine

open Text (OneLine oneLine_append)

theorem beforeComment_subset (line : Text) : beforeComment line ⊆ line := by
  fun_induction beforeComment line with
  | case1 => exact List.nil_subset _
  | case2 rest ih => exact List.subset_cons_of_subset _ (List.cons_subset_cons '#' ih)
  | case3 => exact List.nil_subset _
  | case4 c rest _ _ ih => exact List.cons_subset_cons c ih

theorem subset_of_content? {line body : Text} (h : content? line = some body) : body ⊆ line := by
  have hcomment : withoutComment line ⊆ line := by
    unfold withoutComment
    split
    · exact List.Subset.trans (Text.trimEnd_subset _) (beforeComment_subset line)
    · exact List.Subset.refl line
  unfold content? at h
  simp only [] at h
  split at h
  · exact Option.some.inj h ▸ List.Subset.refl line
  · split at h
    · cases h
    · exact Option.some.inj h ▸ hcomment

/-- Both lines that a physical line gives are put together from it and from the line that went on
before it. -/
theorem oneLine_of_mem_join {pending : Option LogicalLine} {physical : Text} (number : Nat)
    (hpending : ∀ line ∈ pending, OneLine line.text) (hphysical : OneLine physical) :
    (∀ line ∈ (join pending number physical).1, OneLine line.text) ∧
      ∀ line ∈ (join pending number physical).2, OneLine line.text := by
  have hline : OneLine (Text.dropAtEnd '\r' physical) :=
    hphysical.of_subset (Text.dropAtEnd_subset _ _)
  unfold join
  extract_lets line joined
  split
  · -- A line that does not count leaves the one that goes on as it was.
    exact ⟨hpending, by simp⟩
  · have hjoined : OneLine joined.text := by
      cases pending with
      | none => exact hline
      | some start =>
        have hstart : OneLine start.text := hpending start rfl
        exact oneLine_append.mpr ⟨hstart, hline.of_subset (Text.trimStart_subset _)⟩
    split
    · rename_i text htext
      simpa using hjoined.of_subset (Text.subset_of_dropLast? htext)
    · simpa using hjoined

theorem oneLine_of_complete? {b : Bindings} {line line' : LogicalLine} (hb : b.ValuesOneLine)
    (hline : OneLine line.text) (h : complete? b line = some line') : OneLine line'.text := by
  obtain ⟨body, hbody, rfl⟩ := Option.map_eq_some_iff.mp h
  exact hb.expand (hline.of_subset (subset_of_content? hbody))

end LogicalLine

namespace Statement

variable {line : Text}

theorem ofLine?_cases {statement : Statement} (h : ofLine? line = some statement) :
    statement = .command (Text.trimStart line) ∨
      (∃ d, Definition.ofLine? line = some d ∧ statement = .definition d) ∨
      ∃ hd, Header.ofLine? line = some hd ∧ statement = .header hd := by
  unfold ofLine? at h
  split at h
  · exact .inl (Option.some.inj h).symm
  · rcases Option.or_eq_some_iff.mp h with hdefinition | ⟨-, hheader⟩
    · obtain ⟨d, hd, rfl⟩ := Option.map_eq_some_iff.mp hdefinition
      exact .inr (.inl ⟨d, hd, rfl⟩)
    · obtain ⟨hd, hhd, rfl⟩ := Option.map_eq_some_iff.mp hheader
      exact .inr (.inr ⟨hd, hhd, rfl⟩)

theorem ofLine?_eq_command {body : Text} (h : ofLine? line = some (.command body)) :
    body = Text.trimStart line := by
  simpa using ofLine?_cases h

theorem ofLine?_eq_definition {d : Definition} (h : ofLine? line = some (.definition d)) :
    Definition.ofLine? line = some d := by
  simpa using ofLine?_cases h

theorem ofLine?_eq_header {hd : Header} (h : ofLine? line = some (.header hd)) :
    Header.ofLine? line = some hd := by
  simpa using ofLine?_cases h

end Statement

theorem Command.text_ofText_subset (body : Text) : (Command.ofText body).text ⊆ body := by
  fun_cases Command.ofText body
  · exact List.subset_cons_self _ _
  · exact List.Subset.refl _

theorem LogicalLine.subset_of_command? {line : LogicalLine} {c : Command}
    (h : line.command? = some c) : c.text ⊆ line.text := by
  unfold LogicalLine.command? at h
  split at h
  · rename_i body hbody
    obtain rfl := Option.some.inj h
    rw [Statement.ofLine?_eq_command hbody]
    exact List.Subset.trans (Command.text_ofText_subset _) (Text.trimStart_subset _)
  · cases h

open Text (OneLine)

theorem Bindings.ValuesOneLine.after {b : Bindings} {line : LogicalLine} (hb : b.ValuesOneLine)
    (hline : OneLine line.text) : (b.after line).ValuesOneLine := by
  unfold Bindings.after
  split
  · rename_i d hd
    have hvalue := Definition.value_subset_of_ofLine? (Statement.ofLine?_eq_definition hd)
    exact hb.assign (hline.of_subset hvalue)
  · exact hb

namespace RuleFile

/-- No logical line holds a line feed, whatever the definitions before it are. -/
theorem oneLine_of_mem_handedLines {b : Bindings} {pending : Option LogicalLine} {number : Nat}
    {physical : List Text} (hb : b.ValuesOneLine)
    (hpending : ∀ line ∈ pending, OneLine line.text) (hphysical : ∀ line ∈ physical, OneLine line) :
    ∀ line ∈ handedLines b pending number physical, OneLine line.text := by
  induction physical generalizing b pending number with
  | nil =>
    intro line hline
    obtain ⟨last, hlast, hcomplete⟩ := Option.bind_eq_some_iff.mp (Option.mem_toList.mp hline)
    exact LogicalLine.oneLine_of_complete? hb (hpending last hlast) hcomplete
  | cons first more ih =>
    have hfirst : OneLine first := hphysical first List.mem_cons_self
    have hmore : ∀ line ∈ more, OneLine line := fun line h ↦
      hphysical line (List.mem_cons_of_mem _ h)
    have hjoin := LogicalLine.oneLine_of_mem_join number hpending hfirst
    cases hended : (LogicalLine.join pending number first).2.bind (LogicalLine.complete? b) with
    | none =>
      rw [handedLines_cons_of_none more hended]
      exact ih hb hjoin.1 hmore
    | some line =>
      obtain ⟨ended, hmem, hcomplete⟩ := Option.bind_eq_some_iff.mp hended
      have hline := LogicalLine.oneLine_of_complete? hb (hjoin.2 ended hmem) hcomplete
      rw [handedLines_cons_of_some more hended]
      exact List.forall_mem_cons.mpr ⟨hline, ih (hb.after hline) hjoin.1 hmore⟩

theorem oneLine_of_mem_logicalLines {b : Bindings} {text : Text} (hb : b.ValuesOneLine) :
    ∀ line ∈ logicalLines b text, OneLine line.text :=
  oneLine_of_mem_handedLines hb (by simp) fun _ ↦ Text.oneLine_of_mem_lines

theorem exists_mem_of_mem_ownedCommands {after : List LogicalLine} {c : Command}
    (h : c ∈ ownedCommands after) : ∃ line ∈ after, line.command? = some c := by
  induction after with
  | nil => cases h
  | cons line rest ih =>
    unfold ownedCommands at h
    split at h
    · rename_i first hfirst
      rcases List.mem_cons.mp h with rfl | hrest
      · exact ⟨line, List.mem_cons_self, hfirst⟩
      · obtain ⟨other, hmem, hother⟩ := ih hrest
        exact ⟨other, List.mem_cons_of_mem _ hmem, hother⟩
    · cases h

/-! ## Rules -/

variable {b : Bindings} {text : Text} {g : RuleSet} {r : Rule}

/-- A rule that is read comes from a header line and from command lines without line feeds. -/
theorem exists_ownedRule_of_parse (hb : b.ValuesOneLine) (h : parse b text = .ok g)
    (hr : r ∈ g.rules) :
    ∃ hd target after line, r = ownedRule hd target after ∧ hd.targets = [target] ∧
      Header.ofLine? line = some hd ∧ OneLine line ∧ ∀ later ∈ after, OneLine later.text := by
  obtain ⟨reader, rfl, hreflects⟩ := exists_reflects_of_parse h
  obtain ⟨hd, target, after, hlast, rfl⟩ := (hreflects.mem_rules_iff r).mp hr
  obtain ⟨before, line, hlines, hheader, htargets, -⟩ := hlast
  have hall : ∀ line ∈ logicalLines b text, OneLine line.text := oneLine_of_mem_logicalLines hb
  rw [hlines] at hall
  refine ⟨hd, target, after, line.text, rfl, htargets, Statement.ofLine?_eq_header hheader,
    hall line (by simp), ?_⟩
  intro later hlater
  exact hall later (by simp [hlater])

/-- The names of the rules that are read are not empty, and hold no line feed. -/
theorem names_of_parse (hb : b.ValuesOneLine) (h : parse b text = .ok g) (hr : r ∈ g.rules) :
    (r.target ≠ [] ∧ OneLine r.target) ∧ ∀ source ∈ r.sources, source ≠ [] ∧ OneLine source := by
  obtain ⟨hd, target, after, line, rfl, htargets, hheader, hline, -⟩ :=
    exists_ownedRule_of_parse hb h hr
  have hwords := (Header.parts_of_ofLine? hheader).1
  have hname (word : Text) (hword : word ∈ hd.targets ++ hd.sources) :
      Text.undoubleDollars word ≠ [] ∧ OneLine (Text.undoubleDollars word) :=
    ⟨Text.undoubleDollars_ne_nil (hwords word hword).1, hline.of_subset
      (List.Subset.trans (Text.undoubleDollars_subset word) (hwords word hword).2)⟩
  refine ⟨hname target (by simp [htargets]), ?_⟩
  intro source hsource
  obtain ⟨word, hword, rfl⟩ := List.mem_map.mp hsource
  exact hname word (List.mem_append_right _ hword)

theorem oneLine_of_mem_recipe (hb : b.ValuesOneLine) (h : parse b text = .ok g) (hr : r ∈ g.rules)
    {c : Command} (hc : c ∈ r.recipe) : OneLine c.text := by
  obtain ⟨hd, target, after, line, rfl, -, hheader, hline, hafter⟩ :=
    exists_ownedRule_of_parse hb h hr
  rcases List.mem_append.mp hc with hinline | howned
  · obtain ⟨body, hbody, rfl⟩ := List.mem_map.mp hinline
    have hcommand : hd.command = some body :=
      (Option.filter_eq_some_iff.mp (Option.mem_toList.mp hbody)).1
    exact hline.of_subset (List.Subset.trans (Command.text_ofText_subset body)
      ((Header.parts_of_ofLine? hheader).2 body hcommand))
  · obtain ⟨later, hlater, hcommand⟩ := exists_mem_of_mem_ownedCommands howned
    exact (hafter later hlater).of_subset (LogicalLine.subset_of_command? hcommand)

theorem allOneLine_of_parse (hb : b.ValuesOneLine) (h : parse b text = .ok g) : g.AllOneLine where
  names _ hr :=
    have hnames := names_of_parse hb h hr
    ⟨hnames.1.2, fun source hsource ↦ (hnames.2 source hsource).2⟩
  commands _ hr _ := oneLine_of_mem_recipe hb h hr

end RuleFile

end BuildScript
