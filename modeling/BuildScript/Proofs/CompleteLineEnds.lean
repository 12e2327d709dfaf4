import BuildScript.Proofs.LineEnds

/-!
# Completing line ends

A line end is complete if a carriage return stands before its line feed.  Completion looks back at
the text that it reads, but every line feed of the text that it writes has a carriage return before
it, so there is nothing left to complete.  No character is lost: completion only adds carriage
returns before line feeds, and taking these away gives the same text as before.
-/

namespace BuildScript.Newline

open Text (byteLength)

/-! ## Complete texts -/

theorem mem_zip_previous_iff {before previous : Option Char} {c : Char} {text : Text} :
    (before, c) ∈ (previous :: text.map some).zip text ↔
      ∃ front rest, text = front ++ c :: rest ∧ before = front.getLast?.or previous := by
  induction text generalizing previous with
  | nil => simp
  | cons d text ih =>
    rw [List.map_cons, List.zip_cons_cons, List.mem_cons, ih, Prod.mk.injEq]
    constructor
    · rintro (⟨rfl, rfl⟩ | ⟨front, rest, rfl, rfl⟩)
      · exact ⟨[], text, rfl, rfl⟩
      · exact ⟨d :: front, rest, rfl, by cases front <;> simp [List.getLast?_cons]⟩
    · rintro ⟨front, rest, hsplit, rfl⟩
      cases front with
      | nil =>
        obtain ⟨rfl, rfl⟩ := List.cons.inj hsplit
        exact .inl ⟨rfl, rfl⟩
      | cons e front =>
        obtain ⟨rfl, rfl⟩ := List.cons.inj hsplit
        exact .inr ⟨front, rest, rfl, by cases front <;> simp [List.getLast?_cons]⟩

theorem bareFeeds_eq_zero_iff {text : Text} :
    bareFeeds text = 0 ↔
      ∀ front rest, text = front ++ '\n' :: rest → front.getLast? = some '\r' := by
  rw [bareFeeds, List.countP_eq_zero]
  constructor
  · rintro h front rest rfl
    have hmem : (front.getLast?, '\n') ∈ withPrevious (front ++ '\n' :: rest) :=
      mem_zip_previous_iff.mpr ⟨front, rest, rfl, Option.or_none.symm⟩
    simpa using h _ hmem
  · rintro h ⟨before, c⟩ hmem
    obtain ⟨front, rest, rfl, rfl⟩ := mem_zip_previous_iff.mp hmem
    have hfront (hc : c = '\n') : front.getLast? = some '\r' := h front rest (by rw [hc])
    simpa using hfront

/-- The text that is written has complete line ends, whatever stands before it. -/
theorem bareFeedsAfter_complete (previous : Option Char) (text : Text) :
    bareFeedsAfter previous (complete (previous == some '\r') text) = 0 := by
  induction text generalizing previous with
  | nil => rfl
  | cons c rest ih =>
    by_cases hbare : c = '\n' ∧ previous ≠ some '\r'
    · obtain ⟨rfl, hprevious⟩ := hbare
      rw [complete_cons_of_bare hprevious, bareFeedsAfter_cons_of_not_bare (by simp),
        bareFeedsAfter_cons_of_not_bare (by simp), ih]
    · rw [complete_cons_of_not_bare hbare, bareFeedsAfter_cons_of_not_bare hbare, ih]

theorem bareFeeds_complete (text : Text) : bareFeeds (complete false text) = 0 :=
  bareFeedsAfter_complete none text

theorem sublist_complete (returned : Bool) (text : Text) :
    text.Sublist (complete returned text) := by
  fun_induction complete returned text with
  | case1 => exact .slnil
  | case2 returned c rest h ih =>
    obtain rfl : c = '\n' := by simp_all
    exact (ih.cons_cons '\n').cons '\r'
  | case3 returned c rest h ih => exact ih.cons_cons c

theorem length_complete (text : Text) :
    (complete false text).length = text.length + bareFeeds text := by
  have hlength := (perm_complete text).length_eq
  rwa [List.length_append, List.length_replicate, Nat.add_comm] at hlength

/-- A text with complete line ends stays as it is, since nothing is added to it. -/
theorem complete_eq_self {text : Text} (h : bareFeeds text = 0) : complete false text = text := by
  have hlength := length_complete text
  rw [h, Nat.add_zero] at hlength
  exact ((sublist_complete false text).eq_of_length hlength.symm).symm

/-! ## Line feeds alone -/

/-- A text with a line feed in the place of each carriage return and line feed. -/
def withFeeds : Text → Text
  | '\r' :: '\n' :: rest => '\n' :: withFeeds rest
  | c :: rest => c :: withFeeds rest
  | [] => []

theorem withFeeds_cons {c : Char} {rest : Text} (h : ¬(c = '\r' ∧ rest.head? = some '\n')) :
    withFeeds (c :: rest) = c :: withFeeds rest := by
  rw [withFeeds]
  rintro tail rfl rfl
  exact h ⟨rfl, rfl⟩

theorem withFeeds_feed (rest : Text) : withFeeds ('\n' :: rest) = '\n' :: withFeeds rest :=
  withFeeds_cons (by simp)

theorem withFeeds_return_feed (rest : Text) :
    withFeeds ('\r' :: '\n' :: rest) = '\n' :: withFeeds rest := by
  rw [withFeeds]

theorem withFeeds_of_not_mem {text : Text} (h : '\r' ∉ text) : withFeeds text = text := by
  induction text with
  | nil => rfl
  | cons c rest ih =>
    have hc : c ≠ '\r' := (List.ne_of_not_mem_cons h).symm
    rw [withFeeds_cons (fun hreturn ↦ hc hreturn.1), ih (List.not_mem_of_not_mem_cons h)]

/-- Completion behind a character is undone together with it: the carriage return before a line feed
is this character, or it was added. -/
theorem withFeeds_cons_complete (c : Char) (text : Text) :
    withFeeds (c :: complete (some c == some '\r') text) = withFeeds (c :: text) := by
  induction text generalizing c with
  | nil => rfl
  | cons d rest ih =>
    by_cases hd : d = '\n'
    · subst hd
      have hrest : withFeeds (complete (some '\n' == some '\r') rest) = withFeeds rest := by
        simpa only [withFeeds_feed, List.cons.injEq, true_and] using ih '\n'
      by_cases hc : c = '\r'
      · subst hc
        calc
          withFeeds ('\r' :: complete (some '\r' == some '\r') ('\n' :: rest)) =
              withFeeds ('\r' :: '\n' :: complete (some '\n' == some '\r') rest) := by
            rw [complete_cons_of_not_bare (by simp)]
          _ = '\n' :: withFeeds rest := by rw [withFeeds_return_feed, hrest]
          _ = withFeeds ('\r' :: '\n' :: rest) := (withFeeds_return_feed rest).symm
      · calc
          withFeeds (c :: complete (some c == some '\r') ('\n' :: rest)) =
              withFeeds (c :: '\r' :: '\n' :: complete (some '\n' == some '\r') rest) := by
            rw [complete_cons_of_bare (by simpa using hc)]
          _ = c :: '\n' :: withFeeds rest := by
            rw [withFeeds_cons (by simp), withFeeds_return_feed, hrest]
          _ = withFeeds (c :: '\n' :: rest) := by
            rw [withFeeds_cons (by simp [hc]), withFeeds_feed]
    · calc
        withFeeds (c :: complete (some c == some '\r') (d :: rest)) =
            withFeeds (c :: d :: complete (some d == some '\r') rest) := by
          rw [complete_cons_of_not_bare (by simp [hd])]
        _ = c :: withFeeds (d :: rest) := by rw [withFeeds_cons (by simp [hd]), ih]
        _ = withFeeds (c :: d :: rest) := (withFeeds_cons (by simp [hd])).symm

theorem withFeeds_complete (text : Text) : withFeeds (complete false text) = withFeeds text := by
  have hfeed := withFeeds_cons_complete '\n' text
  rw [withFeeds_feed, withFeeds_feed] at hfeed
  exact (List.cons.inj hfeed).2

/-- Completing line ends is total, idempotent and lossless.  Every line feed has a carriage return
before it afterwards, and a second completion changes nothing.  The text is the same up to carriage
returns before line feeds, and longer by one character, which is one byte, for each line feed that
had none.  A text without carriage returns can be got back. -/
theorem apply_crlf_total_idempotent_lossless (text : Text) :
    (∀ front rest, crlf.apply text = front ++ '\n' :: rest → front.getLast? = some '\r') ∧
      crlf.apply (crlf.apply text) = crlf.apply text ∧
      withFeeds (crlf.apply text) = withFeeds text ∧
      ((crlf.apply text).length = text.length + bareFeeds text ∧
        byteLength (crlf.apply text) = byteLength text + bareFeeds text) ∧
      ('\r' ∉ text → withFeeds (crlf.apply text) = text) := by
  have hcomplete : bareFeeds (crlf.apply text) = 0 := bareFeeds_complete text
  have hfeeds : withFeeds (crlf.apply text) = withFeeds text := withFeeds_complete text
  refine ⟨bareFeeds_eq_zero_iff.mp hcomplete, complete_eq_self hcomplete, hfeeds,
    ⟨length_complete text, byteLength_complete text⟩, ?_⟩
  intro hreturn
  rw [hfeeds, withFeeds_of_not_mem hreturn]

theorem apply_crlf_total_idempotent_lossless_emptyLine :
    crlf.apply "a\n\né".toList = "a\r\n\r".toList ++ '\n' :: "é".toList ∧
      "a\r\n\r".toList.getLast? = some '\r' ∧ '\r' ∉ "a\n\né".toList ∧
      withFeeds (crlf.apply "a\n\né".toList) = "a\n\né".toList := by
  obtain ⟨htotal, -, -, -, hback⟩ := apply_crlf_total_idempotent_lossless "a\n\né".toList
  have happly : crlf.apply "a\n\né".toList = "a\r\n\r".toList ++ '\n' :: "é".toList := by decide
  have hreturn : '\r' ∉ "a\n\né".toList := by decide
  exact ⟨happly, htotal _ _ happly, hreturn, hback hreturn⟩

end BuildScript.Newline
