import BuildScript.FileName

/-!
# Names, bases and suffixes

A name is put together from its base and its suffix, and what is put together from a base and a
suffix is taken apart into the same two.  A name states a pair of suffixes exactly if it is these
suffixes one after the other, so it can be cut into such a pair in one way only.  The shapes of
suffixes are spelled out here by the characters that they hold.
-/

namespace BuildScript

theorem Text.isWordChar_iff {c : Char} :
    isWordChar c ↔ 'A' ≤ c ∧ c ≤ 'Z' ∨ 'a' ≤ c ∧ c ≤ 'z' ∨ '0' ≤ c ∧ c ≤ '9' ∨ c = '_' := by
  simp [isWordChar_eq, Char.le_def, or_assoc]

namespace FileName

/-- A dot, and characters of which none is a dot or a slash of either kind. -/
def IsSuffix (text : Text) : Prop :=
  ∃ ending, (∀ c ∈ ending, c ≠ '.' ∧ c ≠ '/' ∧ c ≠ '\\') ∧ text = '.' :: ending

/-- A dot, and one or more letters, digits and underscores, of ASCII only. -/
def IsWordSuffix (text : Text) : Prop :=
  ∃ word, word ≠ [] ∧
    (∀ c ∈ word, 'A' ≤ c ∧ c ≤ 'Z' ∨ 'a' ≤ c ∧ c ≤ 'z' ∨ '0' ≤ c ∧ c ≤ '9' ∨ c = '_') ∧
    text = '.' :: word

theorem isSuffix_iff {text : Text} :
    IsSuffix text ↔ ∃ ending, ending.all isSuffixChar ∧ text = '.' :: ending := by
  simp [IsSuffix, isSuffixChar, and_assoc]

theorem isWordSuffix_iff {text : Text} : IsWordSuffix text ↔ SuffixPair.IsPlain text := by
  simp [IsWordSuffix, SuffixPair.IsPlain, Text.isWord, Text.isWordChar_iff, and_assoc]

theorem suffix_eq_nil_or_isSuffix (name : Text) : suffix name = [] ∨ IsSuffix (suffix name) := by
  rw [isSuffix_iff]
  exact suffix_eq_nil_or name

/-- A name is its base followed by its suffix, which is empty or has the shape of one.  What is
written after a name in that shape is the suffix of the whole, and the name is its base.  And a name
states a pair exactly if it is made up of two suffixes that are words after a dot, of which the
second may be missing. -/
theorem suffixes_inverse_to_append (name : Text) :
    (base name ++ suffix name = name ∧ (suffix name = [] ∨ IsSuffix (suffix name))) ∧
      (∀ ending, IsSuffix ending →
        suffix (name ++ ending) = ending ∧ base (name ++ ending) = name) ∧
      ∀ source target, SuffixPair.ofName? name = some ⟨source, target⟩ ↔
        name = source ++ target ∧ IsWordSuffix source ∧ (target = [] ∨ IsWordSuffix target) := by
  refine ⟨⟨base_append_suffix name, suffix_eq_nil_or_isSuffix name⟩, ?_, ?_⟩
  · intro ending hending
    obtain ⟨chars, hchars, rfl⟩ := isSuffix_iff.mp hending
    exact ⟨suffix_append name hchars, base_append name hchars⟩
  · intro source target
    rw [isWordSuffix_iff, isWordSuffix_iff]
    exact SuffixPair.ofName?_eq_some_iff

/-- A path with dots in a directory and at the start of the file name. -/
def dottedPath : Text := "größe.d/v1.0\\.conf".toList

theorem suffixes_inverse_to_append_dottedPath :
    IsSuffix ".c++".toList ∧
      suffix (dottedPath ++ ".c++".toList) = ".c++".toList ∧
      base (dottedPath ++ ".c++".toList) = dottedPath := by
  have hsuffix : IsSuffix ".c++".toList := isSuffix_iff.mpr ⟨"c++".toList, by decide +kernel, rfl⟩
  exact ⟨hsuffix, (suffixes_inverse_to_append dottedPath).2.1 _ hsuffix⟩

end FileName

end BuildScript
