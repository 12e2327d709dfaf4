import BuildScript.Proofs.Inference
import BuildScript.Script.OfRules
import BuildScript.Text.Line

/-!
# Texts without line feeds

If no name and no command of the rules holds a line feed, then no line of a script does, and the
text of the script is divided again into the lines that it was put together from.
-/

namespace BuildScript

namespace Text

/-- A text that stands on one line. -/
def OneLine (text : Text) : Prop := '\n' ∉ text

instance (text : Text) : Decidable text.OneLine := inferInstanceAs (Decidable ('\n' ∉ text))

@[simp]
theorem oneLine_nil : OneLine [] := List.not_mem_nil

@[simp]
theorem oneLine_cons {c : Char} {text : Text} :
    OneLine (c :: text) ↔ '\n' ≠ c ∧ OneLine text := by
  unfold OneLine
  rw [List.mem_cons, not_or]

@[simp]
theorem oneLine_append {first second : Text} :
    OneLine (first ++ second) ↔ OneLine first ∧ OneLine second := by
  unfold OneLine
  rw [List.mem_append, not_or]

theorem OneLine.of_subset {part text : Text} (h : OneLine text) (hsub : part ⊆ text) :
    OneLine part :=
  fun hmem ↦ h (hsub hmem)

theorem lines_append_newline {line rest : Text} (h : OneLine line) :
    lines (line ++ '\n' :: rest) = line :: lines rest := by
  induction line with
  | nil => rfl
  | cons c line ih =>
    rw [oneLine_cons] at h
    rw [List.cons_append, lines, if_neg h.1.symm, ih h.2]

theorem lines_flatMap_newline {texts : List Text} (h : ∀ line ∈ texts, OneLine line) :
    lines (texts.flatMap (· ++ ['\n'])) = texts := by
  induction texts with
  | nil => rfl
  | cons line texts ih =>
    have hline : OneLine line := h line List.mem_cons_self
    have htexts := ih fun text htext ↦ h text (List.mem_cons_of_mem _ htext)
    rw [List.flatMap_cons, List.append_assoc, List.singleton_append, lines_append_newline hline,
      htexts]

/-- A text after which a new line starts. -/
def EndsLine (text : Text) : Prop := text = [] ∨ text.getLast? = some '\n'

instance (text : Text) : Decidable text.EndsLine :=
  inferInstanceAs (Decidable (text = [] ∨ text.getLast? = some '\n'))

theorem lines_ne_nil {text : Text} (h : text ≠ []) : lines text ≠ [] := by
  cases text with
  | nil => exact absurd rfl h
  | cons c rest =>
    unfold lines
    split
    · exact List.cons_ne_nil _ _
    · split <;> exact List.cons_ne_nil _ _

theorem EndsLine.of_cons {c : Char} {rest : Text} (h : EndsLine (c :: rest)) : EndsLine rest := by
  cases rest with
  | nil => exact .inl rfl
  | cons d rest => exact .inr (h.resolve_left (List.cons_ne_nil c _))

theorem lines_append {front : Text} (h : EndsLine front) (rest : Text) :
    lines (front ++ rest) = lines front ++ lines rest := by
  induction front with
  | nil => rfl
  | cons c front ih =>
    by_cases hc : c = '\n'
    · simp [lines, hc, ih h.of_cons]
    · -- The line that the character stands on ends within the front.
      have hne : front ≠ [] := by
        rintro rfl
        simp [EndsLine, hc] at h
      obtain ⟨line, more, hlines⟩ := List.exists_cons_of_ne_nil (lines_ne_nil hne)
      simp [lines, hc, ih h.of_cons, hlines]

theorem oneLine_intercalate {mark : Text} {texts : List Text} (hmark : OneLine mark)
    (h : ∀ text ∈ texts, OneLine text) : OneLine (List.intercalate mark texts) := by
  induction texts with
  | nil => exact oneLine_nil
  | cons text more ih =>
    obtain ⟨htext, hmore⟩ := List.forall_mem_cons.mp h
    cases more with
    | nil => simpa using htext
    | cons next more =>
      rw [List.intercalate_cons_cons, oneLine_append, oneLine_append]
      exact ⟨⟨htext, hmark⟩, ih hmore⟩

end Text

open Text (OneLine oneLine_nil oneLine_cons oneLine_append)

theorem FileName.oneLine_base {name : Text} (h : OneLine name) : OneLine (FileName.base name) := by
  rw [← FileName.base_append_suffix name, oneLine_append] at h
  exact h.1

/-! ## Commands after substitution -/

namespace Rule

/-- Neither the target nor a source of a rule holds a line feed. -/
def NamesOneLine (r : Rule) : Prop := OneLine r.target ∧ ∀ source ∈ r.sources, OneLine source

variable {r : Rule}

instance : Decidable r.NamesOneLine :=
  inferInstanceAs (Decidable (OneLine r.target ∧ ∀ source ∈ r.sources, OneLine source))

theorem oneLine_of_automatic? {c : Char} {value : Text} (hnames : r.NamesOneLine)
    (h : r.automatic? c = some value) : OneLine value := by
  unfold automatic? at h
  split at h
  · exact Option.some.inj h ▸ hnames.1
  · exact Option.some.inj h ▸ FileName.oneLine_base hnames.1
  · exact hnames.2 value (List.mem_of_mem_head? h)
  · split at h
    · cases h
    · exact Option.some.inj h ▸ Text.oneLine_intercalate (by decide) hnames.2
  · exact Option.some.inj h ▸ (by decide)
  · cases h

theorem oneLine_substitute {text : Text} (hnames : r.NamesOneLine) (htext : OneLine text) :
    OneLine (r.substitute text) := by
  fun_induction substitute r text with
  | case1 => exact oneLine_nil
  | case2 c rest value hvalue ih =>
    rw [oneLine_cons, oneLine_cons] at htext
    rw [oneLine_append]
    exact ⟨oneLine_of_automatic? hnames hvalue, ih htext.2.2⟩
  | case3 c rest _ ih =>
    rw [oneLine_cons] at htext ⊢
    exact ⟨htext.1, ih htext.2⟩
  | case4 c rest _ ih =>
    rw [oneLine_cons] at htext ⊢
    exact ⟨htext.1, ih htext.2⟩

end Rule

/-! ## Lines of a script -/

namespace Step

/-- The names and commands that stand in a step. -/
def texts : Step → List Text
  | call label => [label]
  | skipIfPresent target => [target]
  | skipIfFresh target sources => target :: sources
  | run command => [command]
  | attempt command => [command]
  | _ => []

theorem oneLine_line {s : Step} (h : ∀ text ∈ s.texts, OneLine text) : OneLine s.line := by
  suffices hbody : OneLine s.body by simpa [line] using hbody
  have hfresh (target : Text) (htarget : OneLine target) : OneLine (Script.upToDate target) := by
    change OneLine (_ ++ target ++ _)
    rw [oneLine_append, oneLine_append]
    exact ⟨⟨by decide, htarget⟩, by decide⟩
  cases s with
  | call label =>
    have hlabel : OneLine label := h label (by simp [texts])
    simp [Script.labelled, Script.quoted, hlabel]
  | skipIfPresent target =>
    have htarget : OneLine target := h target (by simp [texts])
    simp [Script.quoted, htarget, hfresh target htarget]
  | skipIfFresh target sources =>
    have htarget : OneLine target := h target (by simp [texts])
    have hnames : OneLine ((target :: sources).flatMap fun name ↦ ' ' :: Script.quoted name) := by
      intro hmem
      obtain ⟨name, hname, hmem⟩ := List.mem_flatMap.mp hmem
      have hquoted : OneLine (' ' :: Script.quoted name) := by
        simp [Script.quoted, h name hname]
      exact hquoted hmem
    rw [body_skipIfFresh, oneLine_append, oneLine_append, oneLine_append, oneLine_append]
    exact ⟨⟨⟨⟨by decide, by decide⟩, hnames⟩, by decide⟩, hfresh target htarget⟩
  | enterScope => decide
  | run command =>
    have hcommand : OneLine command := h command (by simp [texts])
    simp [Script.errorLabel, hcommand]
  | attempt command => exact h command (by simp [texts])
  | leaveScope => decide
  | succeed => decide

end Step

namespace Script

theorem oneLine_of_mem_lines {s : Script} {line : Text}
    (hgoal : ∀ goal, s.goal = some goal → OneLine goal)
    (hlabels : ∀ b ∈ s.blocks, OneLine b.label)
    (hsteps : ∀ b ∈ s.blocks, ∀ step ∈ b.steps, ∀ text ∈ step.texts, OneLine text)
    (h : line ∈ s.lines) : OneLine line := by
  simp only [lines, List.mem_append] at h
  rcases h with (((h | h) | h) | h) | h
  · revert line
    decide +kernel
  · cases hcase : s.goal with
    | none =>
      rw [hcase] at h
      revert line
      decide +kernel
    | some goal =>
      simp only [hcase, goalLines, List.mem_cons, List.not_mem_nil, or_false] at h
      rcases h with rfl | rfl
      · simp [labelled, quoted, hgoal goal hcase]
      · decide
  · revert line
    decide +kernel
  · obtain ⟨b, hb, h⟩ := List.mem_flatMap.mp h
    simp only [Block.lines, List.mem_cons, List.mem_map] at h
    rcases h with rfl | rfl | ⟨step, hstep, rfl⟩
    · exact oneLine_nil
    · simp [labelled, quoted, hlabels b hb]
    · exact Step.oneLine_line (hsteps b hb step hstep)
  · split at h
    · revert line
      decide +kernel
    · cases h

end Script

namespace RuleSet

variable {g : RuleSet}

/-- No name and no command of the rules holds a line feed. -/
structure AllOneLine (g : RuleSet) : Prop where
  names : ∀ r ∈ g.rules, r.NamesOneLine
  commands : ∀ r ∈ g.rules, ∀ c ∈ r.recipe, OneLine c.text

/-- What a block is put together from: the names of its rule, and commands after substitution. -/
theorem mem_texts_of_mem_block {isolated : Bool} {r : Rule} {step : Step} {text : Text}
    (hstep : step ∈ (g.block isolated r).steps) (htext : text ∈ step.texts) :
    text ∈ r.target :: r.sources ∨ ∃ c ∈ g.recipeOf r, text = r.substitute c.text := by
  simp only [block, List.mem_append, List.mem_map, List.mem_filter, List.mem_flatMap,
    List.mem_singleton] at hstep
  rcases hstep with ((⟨source, hsource, rfl⟩ | hskip) | ⟨c, hc, hcommand⟩) | rfl
  · simp only [Step.texts, List.mem_singleton] at htext
    exact .inl (htext ▸ List.mem_cons_of_mem _ hsource.1)
  · refine .inl ?_
    unfold skipSteps at hskip
    grind [Step.texts]
  · refine .inr ⟨c, hc, ?_⟩
    unfold commandSteps at hcommand
    grind [Step.texts]
  · cases htext

theorem lines_render_infer (h : g.AllOneLine) (isolated : Bool) :
    Text.lines (g.infer.script isolated).render = (g.infer.script isolated).lines := by
  have hnames : ∀ r ∈ g.infer.rules, r.NamesOneLine := forall_names_infer h.names
  apply Text.lines_flatMap_newline
  intro line hline
  refine Script.oneLine_of_mem_lines ?_ ?_ ?_ hline
  · intro goal hgoal
    obtain ⟨r, hr⟩ := has_iff_exists_find?.mp (has_goal hgoal)
    exact target_of_find? hr ▸ (hnames r (mem_of_find? hr)).1
  · intro b hb
    obtain ⟨r, hr, rfl⟩ := List.mem_map.mp hb
    exact (hnames r hr).1
  · intro b hb step hstep text htext
    obtain ⟨r, hr, rfl⟩ := List.mem_map.mp hb
    rcases mem_texts_of_mem_block hstep htext with hname | ⟨c, hc, rfl⟩
    · exact List.forall_mem_cons.mpr (hnames r hr) text hname
    · obtain ⟨s, hs, hcs⟩ := exists_mem_recipe_of_mem_recipeOf_infer hr hc
      exact Rule.oneLine_substitute (hnames r hr) (h.commands s hs c hcs)

end RuleSet

end BuildScript
