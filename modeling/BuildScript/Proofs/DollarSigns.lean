import BuildScript.Bindings.Expansion
import BuildScript.Rule.Automatic
import Mathlib.Algebra.Group.Nat.Even

/-!
# Dollar signs in commands

A command is read twice: its references are expanded when the rule file is read, and the automatic
variables are put in when the script is written.  Here a text is divided once into tokens, and the
two readings together are shown to be one pass over them, in which a doubled dollar sign becomes a
single one.  For this a value must not end in a dollar sign that would pair with the text after it.
-/

namespace BuildScript

namespace Text

/-! ## Doubled dollar signs -/

/-- Writes each dollar sign twice. -/
def doubleDollars : Text → Text
  | [] => []
  | c :: rest => if c = '$' then '$' :: '$' :: doubleDollars rest else c :: doubleDollars rest

@[simp]
theorem doubleDollars_nil : doubleDollars [] = [] := rfl

@[simp]
theorem doubleDollars_dollar (rest : Text) :
    doubleDollars ('$' :: rest) = '$' :: '$' :: doubleDollars rest := rfl

theorem doubleDollars_cons_of_ne {c : Char} (rest : Text) (h : c ≠ '$') :
    doubleDollars (c :: rest) = c :: doubleDollars rest :=
  if_neg h

@[simp]
theorem mem_doubleDollars {c : Char} {text : Text} : c ∈ doubleDollars text ↔ c ∈ text := by
  induction text with
  | nil => rfl
  | cons d rest ih =>
    by_cases hd : d = '$'
    · subst hd
      simp [ih]
    · simp [doubleDollars_cons_of_ne rest hd, ih]

theorem undoubleDollars_doubleDollars (text : Text) :
    undoubleDollars (doubleDollars text) = text := by
  induction text with
  | nil => rfl
  | cons c rest ih =>
    by_cases hc : c = '$'
    · subst hc
      rw [doubleDollars_dollar, undoubleDollars, ih]
    · rw [doubleDollars_cons_of_ne rest hc, undoubleDollars, ih]
      rintro tail rfl -
      exact hc rfl

theorem doubleDollars_ne_nil {text : Text} (h : text ≠ []) : doubleDollars text ≠ [] := by
  obtain ⟨c, hc⟩ := List.exists_mem_of_ne_nil text h
  exact List.ne_nil_of_mem (mem_doubleDollars.mpr hc)

end Text

open Text (doubleDollars doubleDollars_cons_of_ne reference?)

/-- A text in which dollar signs are doubled has no references. -/
theorem Bindings.expand_doubleDollars_append (b : Bindings) (text rest : Text) :
    b.expand (doubleDollars text ++ rest) = doubleDollars text ++ b.expand rest := by
  induction text with
  | nil => rfl
  | cons c text ih =>
    by_cases hc : c = '$'
    · subst hc
      simp [ih]
    · rw [doubleDollars_cons_of_ne text hc, List.cons_append, b.expand_cons_of_ne _ hc, ih,
        List.cons_append]

theorem Bindings.expand_doubleDollars (b : Bindings) (text : Text) :
    b.expand (doubleDollars text) = doubleDollars text := by
  simpa using b.expand_doubleDollars_append text []

theorem Rule.substitute_doubleDollars (r : Rule) (text : Text) :
    r.substitute (doubleDollars text) = text := by
  induction text with
  | nil => rfl
  | cons c text ih =>
    by_cases hc : c = '$'
    · subst hc
      rw [Text.doubleDollars_dollar, substitute_automatic _ rfl, ih, List.singleton_append]
    · rw [doubleDollars_cons_of_ne text hc, substitute_cons_of_ne _ hc, ih]

/-! ## Dollar signs at the end of a text -/

namespace Text

/-- The number of dollar signs at the end of a text. -/
def dollarsAtEnd (text : Text) : Nat := (text.reverse.takeWhile (· == '$')).length

/-- A text is cut before the dollar signs at its end. -/
theorem exists_append_replicate (text : Text) :
    ∃ front, front.getLast? ≠ some '$' ∧
      text = front ++ List.replicate (dollarsAtEnd text) '$' := by
  refine ⟨(text.reverse.dropWhile (· == '$')).reverse, ?_, ?_⟩
  · rw [List.getLast?_reverse]
    intro hlast
    have hnot := List.head?_dropWhile_not (· == '$') text.reverse
    simp [hlast] at hnot
  · have hrun : text.reverse.takeWhile (· == '$') = List.replicate (dollarsAtEnd text) '$' := by
      refine List.eq_replicate_iff.mpr ⟨rfl, fun c hc ↦ ?_⟩
      simpa using List.all_eq_true.mp List.all_takeWhile c hc
    calc
      text = text.reverse.reverse := text.reverse_reverse.symm
      _ = (text.reverse.takeWhile (· == '$') ++ text.reverse.dropWhile (· == '$')).reverse := by
        rw [List.takeWhile_append_dropWhile]
      _ = (text.reverse.dropWhile (· == '$')).reverse ++
          List.replicate (dollarsAtEnd text) '$' := by
        rw [List.reverse_append, hrun, List.reverse_replicate]

end Text

open Text (dollarsAtEnd)

namespace Rule

variable {r : Rule}

theorem substitute_replicate_append (count : Nat) (rest : Text) :
    r.substitute (List.replicate (count + count) '$' ++ rest) =
      List.replicate count '$' ++ r.substitute rest := by
  induction count with
  | zero => rfl
  | succ count ih =>
    have hcount : count + 1 + (count + 1) = count + count + 1 + 1 := by omega
    rw [hcount, List.replicate_succ, List.replicate_succ, List.cons_append, List.cons_append,
      substitute_automatic _ rfl, ih, List.replicate_succ, List.singleton_append,
      List.cons_append]

/-- After a value whose dollar signs at the end come in pairs, reading starts anew. -/
theorem substitute_append_of_even {value : Text} (rest : Text) (h : Even (dollarsAtEnd value)) :
    r.substitute (value ++ rest) = r.substitute value ++ r.substitute rest := by
  obtain ⟨front, hfront, hvalue⟩ := Text.exists_append_replicate value
  obtain ⟨count, hcount⟩ := h
  have hpairs := substitute_replicate_append (r := r) count []
  rw [List.append_nil] at hpairs
  rw [hvalue, hcount, List.append_assoc, substitute_append_of_getLast? _ hfront,
    substitute_append_of_getLast? _ hfront, substitute_replicate_append, hpairs]
  simp [substitute]

end Rule

/-! ## Tokens -/

/-- A part of a command: a doubled dollar sign, a reference, a dollar sign with the mark of one of
the names of a rule, or any other character. -/
inductive Token where
  | dollar
  | reference (name : Text)
  | target
  | base
  | firstSource
  | allSources
  | plain (c : Char)
  deriving DecidableEq

namespace Token

/-- The token of a dollar sign before a mark. -/
def ofMark? : Char → Option Token
  | '@' => some target
  | '*' => some base
  | '<' => some firstSource
  | '^' => some allSources
  | _ => none

/-- Divides a text into tokens, from left to right. -/
def split : Text → List Token
  | [] => []
  | '$' :: '$' :: rest => dollar :: split rest
  | c :: rest =>
    if c = '$' then
      match _h : reference? rest with
      | some (name, tail) => reference name :: split tail
      | none =>
        match rest with
        | [] => [plain '$']
        | mark :: tail =>
          match ofMark? mark with
          | some token => token :: split tail
          | none => plain '$' :: split (mark :: tail)
    else plain c :: split rest
termination_by text => text.length
decreasing_by
  all_goals simp only [List.length_cons]
  · omega
  · have := Text.length_lt_of_reference? _h
    omega
  · omega
  · omega
  · omega

/-- What a token becomes in the commands of a rule.  The sources of a rule that has none are left as
they are written. -/
def image (b : Bindings) (r : Rule) : Token → Text
  | dollar => ['$']
  | reference name => r.substitute (b.value name)
  | target => r.target
  | base => FileName.base r.target
  | firstSource => r.sources.head?.getD ['$', '<']
  | allSources => if r.sources = [] then ['$', '^'] else List.intercalate [' '] r.sources
  | plain c => [c]

theorem ne_dollar_of_ofMark? {mark : Char} {token : Token} (h : ofMark? mark = some token) :
    mark ≠ '$' := by
  rintro rfl
  cases h

theorem automatic?_eq_none_of_ofMark? {mark : Char} (h : ofMark? mark = none) (hne : mark ≠ '$')
    (r : Rule) : r.automatic? mark = none := by
  unfold ofMark? at h
  unfold Rule.automatic?
  split at h <;> simp_all

theorem image_of_ofMark? {mark : Char} {token : Token} (h : ofMark? mark = some token)
    (b : Bindings) (r : Rule) : token.image b r = (r.automatic? mark).getD ['$', mark] := by
  unfold ofMark? at h
  split at h
  · obtain rfl := Option.some.inj h
    rfl
  · obtain rfl := Option.some.inj h
    rfl
  · obtain rfl := Option.some.inj h
    rfl
  · obtain rfl := Option.some.inj h
    cases hsources : r.sources <;> simp [image, Rule.automatic?, hsources]
  · cases h

end Token

open Token (ofMark?)

/-- A mark is read as the name that it stands for, or kept with its dollar sign. -/
theorem Rule.substitute_mark (b : Bindings) (r : Rule) {mark : Char} {token : Token} (rest : Text)
    (h : ofMark? mark = some token) :
    r.substitute ('$' :: mark :: rest) = token.image b r ++ r.substitute rest := by
  rw [Token.image_of_ofMark? h]
  cases hvalue : r.automatic? mark with
  | none =>
    rw [substitute_lone rest hvalue, substitute_cons_of_ne rest (Token.ne_dollar_of_ofMark? h)]
    rfl
  | some value => rw [substitute_automatic rest hvalue, Option.getD_some]

namespace Bindings

/-- The dollar signs at the end of each value come in pairs. -/
def ValuesPaired (b : Bindings) : Prop :=
  ∀ name value, b.lookup name = some value → Even (dollarsAtEnd value)

theorem ValuesPaired.even {b : Bindings} (h : b.ValuesPaired) (name : Text) :
    Even (dollarsAtEnd (b.value name)) := by
  unfold value
  cases hlookup : b.lookup name with
  | none => simp [dollarsAtEnd]
  | some value => exact h name value hlookup

end Bindings

/-- Expansion followed by substitution is one pass over the tokens of a text. -/
theorem Rule.substitute_expand (r : Rule) {b : Bindings} (hb : b.ValuesPaired) (text : Text) :
    r.substitute (b.expand text) = (Token.split text).flatMap (Token.image b r) := by
  fun_induction Token.split text with
  | case1 => rw [b.expand_nil]; rfl
  | case2 rest ih =>
    rw [b.expand_doubled, substitute_automatic _ rfl, ih]
    rfl
  | case3 rest name tail href _ ih =>
    rw [b.expand_reference href, substitute_append_of_even _ (hb.even name), ih]
    rfl
  | case4 href _ =>
    rw [b.expand_lone (by simp) href, b.expand_nil]
    rfl
  | case5 mark tail href token htoken _ ih =>
    have hmark := Token.ne_dollar_of_ofMark? htoken
    rw [b.expand_lone (by simpa using hmark) href, b.expand_cons_of_ne _ hmark,
      substitute_mark b r _ htoken, ih]
    rfl
  | case6 mark tail href htoken hdouble ih =>
    have hmark : mark ≠ '$' := fun hmark ↦ hdouble tail rfl (by rw [hmark])
    rw [b.expand_lone (by simpa using hmark) href, b.expand_cons_of_ne _ hmark,
      substitute_lone _ (Token.automatic?_eq_none_of_ofMark? htoken hmark r),
      ← b.expand_cons_of_ne _ hmark, ih]
    rfl
  | case7 c rest _ hc ih =>
    rw [b.expand_cons_of_ne _ hc, substitute_cons_of_ne _ hc, ih]
    rfl

/-- Expansion and substitution together put its image in the place of each token, provided that the
dollar signs at the end of each value come in pairs; and whatever the values are, a text with
doubled dollar signs comes out as it was. -/
theorem substitute_expand_tokenwise (b : Bindings) (r : Rule) :
    (b.ValuesPaired →
      ∀ text, r.substitute (b.expand text) = (Token.split text).flatMap (Token.image b r)) ∧
      ∀ text, r.substitute (b.expand (doubleDollars text)) = text := by
  refine ⟨fun hb ↦ r.substitute_expand hb, fun text ↦ ?_⟩
  rw [b.expand_doubleDollars, r.substitute_doubleDollars]

/-- A value that ends in a doubled dollar sign, and one that holds an automatic variable. -/
def dollarBindings : Bindings :=
  ⟨[("V".toList, "x$$".toList)], [("W".toList, "$*".toList)]⟩

theorem substitute_expand_tokenwise_sample :
    dollarBindings.ValuesPaired ∧
      Rule.substitute ⟨"p.obj".toList, [], []⟩
          (dollarBindings.expand "$$(V) $$$@ $(V)@ $(W\x7d $(U) $< $(a-b) $".toList) =
        "$(V) $p.obj x$@ p %U% $< $(a-b) $".toList := by
  have hpaired : dollarBindings.ValuesPaired := by
    intro name value hlookup
    have heven : ∀ binding ∈ dollarBindings.overrides ++ dollarBindings.defined,
        Even (dollarsAtEnd binding.2) := by
      decide +kernel
    exact heven (name, value) (Bindings.mem_append_of_lookup hlookup)
  refine ⟨hpaired, ?_⟩
  rw [(substitute_expand_tokenwise dollarBindings ⟨"p.obj".toList, [], []⟩).1 hpaired]
  decide +kernel

end BuildScript
