import BuildScript.Text.Basic

/-!
# Suffixes of file names

The suffix of a file name runs from the last dot of its last component to the end, and the base is
what stands before it.  Both kinds of slash divide components.  A name such as `.c.obj` or `.c`
states a pair of suffixes, the target suffix being empty in the second.
-/

namespace BuildScript

namespace FileName

/-- Characters that a suffix holds after its dot. -/
def isSuffixChar (c : Char) : Bool := c != '.' && c != '/' && c != '\\'

/-- The suffix of a name with its dot, empty if the last component has no dot. -/
def suffix : Text → Text
  | [] => []
  | c :: rest => if c = '.' ∧ rest.all isSuffixChar then c :: rest else suffix rest

/-- A name without its suffix. -/
def base : Text → Text
  | [] => []
  | c :: rest => if c = '.' ∧ rest.all isSuffixChar then [] else c :: base rest

@[simp]
theorem base_append_suffix (name : Text) : base name ++ suffix name = name := by
  induction name with
  | nil => rfl
  | cons c rest ih =>
    by_cases h : c = '.' ∧ rest.all isSuffixChar
    · rw [base, suffix, if_pos h, if_pos h, List.nil_append]
    · rw [base, suffix, if_neg h, if_neg h, List.cons_append, ih]

/-- A suffix is empty, or it is a dot and characters of which none ends a suffix. -/
theorem suffix_eq_nil_or (name : Text) :
    suffix name = [] ∨ ∃ ending, ending.all isSuffixChar ∧ suffix name = '.' :: ending := by
  induction name with
  | nil => exact .inl rfl
  | cons c rest ih =>
    by_cases h : c = '.' ∧ rest.all isSuffixChar
    · rw [suffix, if_pos h, h.1]
      exact .inr ⟨rest, h.2, rfl⟩
    · rwa [suffix, if_neg h]

theorem dot_not_mem {ending : Text} (h : ending.all isSuffixChar) : '.' ∉ ending := by
  intro hdot
  have hchar : isSuffixChar '.' := List.all_eq_true.mp h '.' hdot
  exact absurd hchar (by decide)

/-- What is written after a name as a suffix is its suffix, whatever dots stand before. -/
theorem suffix_append (name : Text) {ending : Text} (h : ending.all isSuffixChar) :
    suffix (name ++ '.' :: ending) = '.' :: ending := by
  induction name with
  | nil => rw [List.nil_append, suffix, if_pos ⟨rfl, h⟩]
  | cons c rest ih =>
    have hdot : ¬(c = '.' ∧ (rest ++ '.' :: ending).all isSuffixChar) := by
      simp [isSuffixChar]
    rw [List.cons_append, suffix, if_neg hdot, ih]

/-- What is written after a name as a suffix is no part of its base. -/
theorem base_append (name : Text) {ending : Text} (h : ending.all isSuffixChar) :
    base (name ++ '.' :: ending) = name := by
  have hname := base_append_suffix (name ++ '.' :: ending)
  rw [suffix_append name h] at hname
  exact List.append_cancel_right hname

theorem all_isSuffixChar_of_isWord {word : Text} (h : Text.isWord word) :
    word.all isSuffixChar := by
  have hchars : word.all Text.isWordChar := (Bool.and_eq_true_iff.mp h).2
  refine List.all_eq_true.mpr fun c hc ↦ ?_
  have hword : Text.isWordChar c := List.all_eq_true.mp hchars c hc
  have hne (mark : Char) (hmark : Text.isWordChar mark = false) : c ≠ mark := by
    rintro rfl
    exact Bool.false_ne_true (hmark.symm.trans hword)
  simp [isSuffixChar, hne '.' (by decide), hne '/' (by decide), hne '\\' (by decide)]

end FileName

/-- The suffixes of the files that a suffix rule reads and makes, with their dots. -/
structure SuffixPair where
  source : Text
  target : Text
  deriving DecidableEq

namespace SuffixPair

/-- The pair that a name states: one or two words, each after a dot. -/
def ofName? : Text → Option SuffixPair
  | '.' :: body =>
    match Text.cut? '.' body with
    | none => if Text.isWord body then some ⟨'.' :: body, []⟩ else none
    | some (source, target) =>
      if Text.isWord source && Text.isWord target then some ⟨'.' :: source, '.' :: target⟩
      else none
  | _ => none

/-- A dot and a word. -/
def IsPlain (suffix : Text) : Prop := ∃ word, Text.isWord word ∧ suffix = '.' :: word

/-- A name states a pair exactly if it is made up of the two suffixes, which are plain, but the
target suffix may be empty. -/
theorem ofName?_eq_some_iff {name : Text} {pair : SuffixPair} :
    ofName? name = some pair ↔
      name = pair.source ++ pair.target ∧ IsPlain pair.source ∧
        (pair.target = [] ∨ IsPlain pair.target) := by
  constructor
  · intro h
    fun_cases ofName? name with
    | case1 body hcut hword =>
      obtain rfl : ⟨'.' :: body, []⟩ = pair := by simpa [ofName?, hcut, hword] using h
      exact ⟨(List.append_nil _).symm, ⟨body, hword, rfl⟩, .inl rfl⟩
    | case2 body hcut hword => simp [ofName?, hcut, hword] at h
    | case3 body source target hcut hwords =>
      obtain rfl : ⟨'.' :: source, '.' :: target⟩ = pair := by
        simpa [ofName?, hcut, hwords] using h
      obtain ⟨hsource, htarget⟩ := Bool.and_eq_true_iff.mp hwords
      refine ⟨?_, ⟨source, hsource, rfl⟩, .inr ⟨target, htarget, rfl⟩⟩
      rw [Text.eq_append_of_cut? hcut, List.cons_append]
    | case4 body source target hcut hwords => simp [ofName?, hcut, hwords] at h
    | case5 name hdot => simp [ofName?] at h
  · obtain ⟨source, target⟩ := pair
    rintro ⟨rfl, ⟨word, hword, rfl⟩, htarget⟩
    have hdot : '.' ∉ word := FileName.dot_not_mem (FileName.all_isSuffixChar_of_isWord hword)
    rcases htarget with rfl | ⟨other, hother, rfl⟩
    · simp [ofName?, Text.cut?_eq_none hdot, hword]
    · simp [ofName?, Text.cut?_append _ hdot, hword, hother]

theorem append_of_ofName? {name : Text} {pair : SuffixPair} (h : ofName? name = some pair) :
    name = pair.source ++ pair.target ∧ ∃ word, Text.isWord word ∧ pair.source = '.' :: word := by
  obtain ⟨hname, hsource, -⟩ := ofName?_eq_some_iff.mp h
  exact ⟨hname, hsource⟩

end SuffixPair

end BuildScript
