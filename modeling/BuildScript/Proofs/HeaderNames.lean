import BuildScript.Proofs.DollarSigns
import BuildScript.Statement

/-!
# Names at the start of a line

A name without blank characters that stands before a colon at the start of a line.  It is shown what
the readers of a line make of it: it is a word, the line is no definition if the name has no equals
sign, it is no directive if the name does not start as one, and the colon is the one that ends the
targets, also after a drive letter.
-/

namespace BuildScript

namespace Text

variable {text word rest : Text}

/-! ## Words -/

/-- A text without blank characters. -/
def Unbroken (text : Text) : Prop := ∀ c ∈ text, isBlank c = false

-- Given by hand, because a search may find the instance that tries all characters.
instance (text : Text) : Decidable text.Unbroken := List.decidableBAll _ text

/-- A text that ends a word before it: it starts with a blank character, or it is empty. -/
def StartsBlank (text : Text) : Prop := ∀ c ∈ text.head?, isBlank c

instance (text : Text) : Decidable text.StartsBlank :=
  decidable_of_iff (text.head?.all isBlank) (Option.all_eq_true isBlank text.head?)

theorem ne_of_isBlank {c d : Char} (hc : isBlank c = false) (hd : isBlank d) : c ≠ d :=
  ne_of_apply_ne isBlank (by simp [hc, hd])

theorem Unbroken.not_mem (h : Unbroken text) {c : Char} (hc : isBlank c) : c ∉ text :=
  fun hmem ↦ ne_of_isBlank (h c hmem) hc rfl

theorem startsBlank_nil : StartsBlank [] := by simp [StartsBlank]

theorem startsBlank_flatMap (texts : List Text) : StartsBlank (texts.flatMap (' ' :: ·)) := by
  cases texts with
  | nil => exact startsBlank_nil
  | cons text texts =>
    intro c hc
    obtain rfl : ' ' = c := by simpa using hc
    decide

theorem exists_cons_of_not_startsBlank (h : ¬StartsBlank text) :
    ∃ first rest, text = first :: rest ∧ isBlank first = false := by
  cases text with
  | nil => exact absurd startsBlank_nil h
  | cons first rest => exact ⟨first, rest, rfl, by simpa [StartsBlank] using h⟩

theorem leadingWord_append (h : Unbroken word) (rest : Text) :
    leadingWord (word ++ rest) = (word ++ (leadingWord rest).1, (leadingWord rest).2) := by
  induction word with
  | nil => rfl
  | cons c word ih =>
    have hc : isBlank c = false := h c List.mem_cons_self
    have hword := ih fun d hd ↦ h d (List.mem_cons_of_mem c hd)
    simp [leadingWord, hword, hc]

theorem leadingWord_of_startsBlank (h : StartsBlank rest) :
    leadingWord rest = ([], words rest) := by
  cases rest with
  | nil => rfl
  | cons c rest => simp [leadingWord, words, h c rfl]

theorem words_append (hne : word ≠ []) (hword : Unbroken word) (hrest : StartsBlank rest) :
    words (word ++ rest) = word :: words rest := by
  rw [words, leadingWord_append hword, leadingWord_of_startsBlank hrest]
  simp [hne]

theorem words_cons_blank {c : Char} (h : isBlank c) (rest : Text) :
    words (c :: rest) = words rest := by
  simp [words, leadingWord, h]

theorem words_eq_singleton (hne : word ≠ []) (hword : Unbroken word) : words word = [word] := by
  simpa [words, leadingWord] using words_append hne hword startsBlank_nil

theorem words_flatMap_blank {texts : List Text} (h : ∀ word ∈ texts, word ≠ [] ∧ Unbroken word) :
    words (texts.flatMap (' ' :: ·)) = texts := by
  induction texts with
  | nil => rfl
  | cons word texts ih =>
    obtain ⟨hne, hword⟩ := h word List.mem_cons_self
    have htexts := ih fun other hother ↦ h other (List.mem_cons_of_mem _ hother)
    rw [List.flatMap_cons, List.cons_append, words_cons_blank (by decide),
      words_append hne hword (startsBlank_flatMap texts), htexts]

theorem trimStart_colon (hword : Unbroken word) (rest : Text) :
    trimStart (word ++ ':' :: rest) = word ++ ':' :: rest := by
  cases word with
  | nil =>
    have hcolon : isBlank ':' = false := by decide
    simp [trimStart, hcolon]
  | cons c word => simp [trimStart, hword c List.mem_cons_self]

end Text

open Text (StartsBlank Unbroken doubleDollars)

/-! ## Lines that are no definitions or directives -/

theorem Operator.read?_append_eq_none {front tail : Text} (hequals : '=' ∉ front)
    (htail : StartsBlank tail) : read? (front ++ tail) = none := by
  have hspellings : ∀ entry ∈ spellings, '=' ∈ entry.1 ∧ Unbroken entry.1 := by decide
  refine List.findSome?_eq_none_iff.mpr fun ⟨spelling, operator⟩ hentry ↦ ?_
  obtain ⟨hmark, hunbroken⟩ := hspellings _ hentry
  rw [Option.map_eq_none_iff, Option.eq_none_iff_forall_not_mem]
  intro value hvalue
  -- An operator holds an equals sign, so it would reach beyond `front`, over the blank.
  rcases List.append_eq_append_iff.mp (Text.after?_eq_some_iff.mp hvalue) with
    ⟨more, hspelling, hrest⟩ | ⟨more, hfront, -⟩
  · cases more with
    | nil =>
      rw [List.append_nil] at hspelling
      exact hequals (hspelling ▸ hmark)
    | cons c more =>
      have hblank : Text.isBlank c := htail c (by simp [hrest])
      have hc : Text.isBlank c = false := hunbroken c (by simp [hspelling])
      exact Text.ne_of_isBlank hc hblank rfl
  · exact hequals (hfront ▸ List.mem_append_left more hmark)

/-- A name before a colon is not defined, unless an equals sign stands in it or follows. -/
theorem Definition.ofLine?_colon {name tail : Text} (hunbroken : Unbroken name)
    (hequals : '=' ∉ name) (htail : StartsBlank tail) : ofLine? (name ++ ':' :: tail) = none := by
  have hsub : name.dropWhile Text.isWordChar ⊆ name := (List.dropWhile_sublist _).subset
  have hrest : (name ++ ':' :: tail).dropWhile Text.isWordChar =
      name.dropWhile Text.isWordChar ++ ':' :: tail := by
    have hcolon : Text.isWordChar ':' = false := by decide
    rw [List.dropWhile_append]
    split <;> simp_all
  have htrim : Text.trimStart (name.dropWhile Text.isWordChar ++ ':' :: tail) =
      name.dropWhile Text.isWordChar ++ ':' :: tail :=
    Text.trimStart_colon (fun c hc ↦ hunbroken c (hsub hc)) tail
  have hread : Operator.read? (name.dropWhile Text.isWordChar ++ ':' :: tail) = none := by
    rw [List.append_cons]
    apply Operator.read?_append_eq_none _ htail
    simpa using fun hmem ↦ hequals (hsub hmem)
  simp only [ofLine?, hrest, htrim, hread, Option.map_none, ite_self]

namespace LogicalLine

theorem startsWith_iff {word text : Text} :
    startsWith word text ↔ word <+: text.map Char.toLower := by
  rw [startsWith, beq_iff_eq, List.prefix_iff_eq_take, List.map_take, eq_comm]

/-- An exclamation mark at the start of a name is found also if dollar signs are doubled. -/
theorem getD_after?_doubleDollars (name rest : Text) :
    (Text.after? ['!'] (doubleDollars name ++ ':' :: rest)).getD
        (doubleDollars name ++ ':' :: rest) =
      doubleDollars ((Text.after? ['!'] name).getD name) ++ ':' :: rest := by
  cases name with
  | nil => rfl
  | cons c name =>
    by_cases hc : c = '!'
    · subst hc
      rfl
    · by_cases hdollar : c = '$'
      · subst hdollar
        rfl
      · simp [Text.doubleDollars_cons_of_ne name hdollar, Text.after?, Ne.symm hc]

/-- The words of directives hold neither dollar signs nor colons, so doubling the one and writing
the other after a name starts none of them. -/
theorem startsWith_of_doubleDollars {word name rest : Text} (hdollar : '$' ∉ word)
    (hcolon : ':' ∉ word) (h : startsWith word (doubleDollars name ++ ':' :: rest)) :
    startsWith word name := by
  rw [startsWith_iff] at h ⊢
  induction name generalizing word with
  | nil =>
    cases word with
    | nil => exact List.nil_prefix
    | cons c word =>
      have hc : c = ':' := (List.cons_prefix_cons.mp h).1
      exact absurd (hc ▸ List.mem_cons_self) hcolon
  | cons d name ih =>
    cases word with
    | nil => exact List.nil_prefix
    | cons c word =>
      by_cases hd : d = '$'
      · subst hd
        have hc : c = '$' := (List.cons_prefix_cons.mp h).1
        exact absurd (hc ▸ List.mem_cons_self) hdollar
      · rw [Text.doubleDollars_cons_of_ne name hd, List.cons_append, List.map_cons,
          List.cons_prefix_cons] at h
        rw [List.map_cons, List.cons_prefix_cons]
        exact ⟨h.1, ih (fun hmem ↦ hdollar (List.mem_cons_of_mem c hmem))
          (fun hmem ↦ hcolon (List.mem_cons_of_mem c hmem)) h.2⟩

end LogicalLine

/-! ## The colon of a header -/

namespace FileName

/-- A name without the drive letter and the colon at its start, if a slash follows them. -/
def withoutDrive : Text → Text
  | letter :: ':' :: slash :: rest =>
    if letter.isAlpha ∧ (slash = '/' ∨ slash = '\\') then slash :: rest
    else letter :: ':' :: slash :: rest
  | name => name

end FileName

namespace Header

theorem isDriveColon_eq_false {tail : Text} (backwards : Text) (h : StartsBlank tail) :
    isDriveColon backwards tail = false := by
  have hne (slash : Char) (hslash : Text.isBlank slash = false) :
      (tail.head? == some slash) = false := by
    rw [beq_eq_false_iff_ne]
    exact fun hhead ↦ Text.ne_of_isBlank hslash (h slash hhead) rfl
  cases backwards with
  | nil => rfl
  | cons letter before => simp [isDriveColon, hne '\\' (by decide), hne '/' (by decide)]

theorem splitColon?_append {front tail : Text} (backwards : Text) (hfront : ':' ∉ front)
    (htail : StartsBlank tail) :
    splitColon? backwards (front ++ ':' :: tail) = some (backwards.reverse ++ front, tail) := by
  induction front generalizing backwards with
  | nil => simp [splitColon?, isDriveColon_eq_false backwards htail]
  | cons c front ih =>
    have hc : ¬(c = ':' ∧ ¬isDriveColon backwards (front ++ ':' :: tail)) := fun hcolon ↦
      List.ne_of_not_mem_cons hfront hcolon.1.symm
    rw [List.cons_append, splitColon?, if_neg hc, ih _ (List.not_mem_of_not_mem_cons hfront)]
    simp

theorem splitColon?_doubleDollars {name tail : Text} (hname : ':' ∉ FileName.withoutDrive name)
    (htail : StartsBlank tail) :
    splitColon? [] (doubleDollars name ++ ':' :: tail) = some (doubleDollars name, tail) := by
  have hplain (hcolon : ':' ∉ name) :
      splitColon? [] (doubleDollars name ++ ':' :: tail) = some (doubleDollars name, tail) :=
    splitColon?_append [] (by simpa using hcolon) htail
  fun_cases FileName.withoutDrive name with
  | case1 letter slash rest hdrive =>
    rw [FileName.withoutDrive, if_pos hdrive] at hname
    have hletter (mark : Char) (hmark : mark.isAlpha = false) : letter ≠ mark :=
      ne_of_apply_ne Char.isAlpha (by simp [hdrive.1, hmark])
    have hslash : slash ≠ '$' := by
      rcases hdrive.2 with rfl | rfl <;> decide
    have hdriveColon : isDriveColon [letter] (doubleDollars (slash :: rest) ++ ':' :: tail) := by
      rw [Text.doubleDollars_cons_of_ne rest hslash]
      rcases hdrive.2 with rfl | rfl <;> simp [isDriveColon, hdrive.1]
    -- The colon after the letter is passed over, and the search goes on behind it.
    rw [Text.doubleDollars_cons_of_ne _ (hletter '$' (by decide)),
      Text.doubleDollars_cons_of_ne _ (by decide), List.cons_append, List.cons_append, splitColon?,
      if_neg (by simp [hletter ':' (by decide)]), splitColon?, if_neg (by simp [hdriveColon]),
      splitColon?_append _ (by simpa using hname) htail]
    rfl
  | case2 letter slash rest hdrive =>
    rw [FileName.withoutDrive, if_neg hdrive] at hname
    exact hplain hname
  | case3 name hshort =>
    rw [FileName.withoutDrive] at hname
    · exact hplain hname
    · exact hshort

end Header

end BuildScript
