import BuildScript.Bindings.Expansion

/-!
# Logical lines

A line that ends in a backslash goes on in the next one.  Blank lines and comment lines do not
exist for this, so they do not end a line that goes on.  A logical line has the number of its first
physical line.  Of a line that is not indented, a comment at its end is removed, and conditional
directives are dropped as a whole; what remains is expanded.
-/

namespace BuildScript

structure LogicalLine where
  number : Nat
  text : Text
  deriving DecidableEq

namespace LogicalLine

/-- A blank line, or one that holds only a comment. -/
def isInvisible (line : Text) : Bool :=
  Text.allBlank line || line.head? == some '#'

/-- Adds a physical line to the line that goes on.  Gives the line that goes on after it, and the
line that ends with it. -/
def join (pending : Option LogicalLine) (number : Nat) (physical : Text) :
    Option LogicalLine × Option LogicalLine :=
  let line := Text.dropAtEnd '\r' physical
  if isInvisible line then (pending, none)
  else
    let joined : LogicalLine :=
      match pending with
      | none => ⟨number, line⟩
      | some start => ⟨start.number, start.text ++ Text.trimStart line⟩
    match Text.dropLast? '\\' joined.text with
    | some text => (some ⟨joined.number, text⟩, none)
    | none => (none, some joined)

/-- Whether a line starts with a tab or a space. -/
def isIndented : Text → Bool
  | [] => false
  | c :: _ => c == '\t' || c == ' '

/-- The text before the first number sign that has no backslash before it; a backslash before a
number sign is removed. -/
def beforeComment : Text → Text
  | [] => []
  | '\\' :: '#' :: rest => '#' :: beforeComment rest
  | c :: rest => if c = '#' then [] else c :: beforeComment rest

@[simp]
theorem beforeComment_escaped (rest : Text) :
    beforeComment ('\\' :: '#' :: rest) = '#' :: beforeComment rest := by
  rw [beforeComment]

@[simp]
theorem beforeComment_sign (rest : Text) : beforeComment ('#' :: rest) = [] := by
  rw [beforeComment, if_pos rfl]
  rintro _ ⟨⟩

theorem beforeComment_cons {c : Char} {rest : Text} (hc : c ≠ '#')
    (h : c = '\\' → rest.head? ≠ some '#') :
    beforeComment (c :: rest) = c :: beforeComment rest := by
  rw [beforeComment, if_neg hc]
  rintro tail hbackslash rfl
  exact h hbackslash rfl

/-- A line without the comment at its end and the blanks before that. -/
def withoutComment (line : Text) : Text :=
  if '#' ∈ line then Text.trimEnd (beforeComment line) else line

/-- The words that start a conditional directive. -/
def directives : List Text := ["if".toList, "else".toList, "end".toList]

/-- Whether a text starts with a lower-case word, in letters of either case. -/
def startsWith (word text : Text) : Bool :=
  (text.take word.length).map Char.toLower == word

/-- Whether a line is a conditional directive, with or without an exclamation mark.  A definition
never is. -/
def isDirective (line : Text) : Bool :=
  (Definition.ofLine? line).isNone &&
    let body := Text.trimStart ((Text.after? ['!'] line).getD line)
    directives.any fun word ↦ startsWith word body

/-- What a line says before expansion, if it is not dropped. -/
def content? (line : Text) : Option Text :=
  if isIndented line then some line
  else
    let body := withoutComment line
    if Text.allBlank body || isDirective body then none else some body

/-- A line that ends, as it is handed on. -/
def complete? (b : Bindings) (line : LogicalLine) : Option LogicalLine :=
  (content? line.text).map fun body ↦ ⟨line.number, b.expand body⟩

/-- Takes a physical line.  Gives the line that goes on after it, and the line that is handed on. -/
def push (b : Bindings) (pending : Option LogicalLine) (number : Nat) (physical : Text) :
    Option LogicalLine × Option LogicalLine :=
  let (pending, ended) := join pending number physical
  (pending, ended.bind (complete? b))

/-- Takes the end of the lines, which also ends the line that goes on. -/
def flush (b : Bindings) (pending : Option LogicalLine) :
    Option LogicalLine × Option LogicalLine :=
  (none, pending.bind (complete? b))

end LogicalLine

end BuildScript
