import BuildScript.Bindings.Definition

/-!
# Bindings of names to values

The values that a rule file defines, and before them the overrides, which the file cannot change.
The most recent value of a name stands first.
-/

namespace BuildScript

structure Bindings where
  overrides : List (Text × Text)
  defined : List (Text × Text)
  deriving DecidableEq

namespace Bindings

/-- The values that are defined before a rule file is read. -/
def builtins : List (Text × Text) :=
  [("MAKEDIR".toList, "%~dp0.".toList), ("MAKE".toList, "CMD.EXE /C %~f0".toList)]

/-- The bindings before a rule file is read.  Of two overrides of a name the later one counts. -/
def ofOverrides (overrides : List (Text × Text)) : Bindings := ⟨overrides.reverse, builtins⟩

def lookup (b : Bindings) (name : Text) : Option Text :=
  (b.overrides.lookup name).or (b.defined.lookup name)

theorem mem_of_lookup {bindings : List (Text × Text)} {name value : Text}
    (h : bindings.lookup name = some value) : (name, value) ∈ bindings := by
  obtain ⟨before, after, rfl, -⟩ := List.lookup_eq_some_iff.mp h
  exact List.mem_append_right _ List.mem_cons_self

theorem mem_append_of_lookup {b : Bindings} {name value : Text} (h : b.lookup name = some value) :
    (name, value) ∈ b.overrides ++ b.defined := by
  rcases Option.or_eq_some_iff.mp h with hoverride | ⟨-, hdefined⟩
  · exact List.mem_append_left _ (mem_of_lookup hoverride)
  · exact List.mem_append_right _ (mem_of_lookup hdefined)

/-- The value that stands for a name.  An unknown name is left to the command interpreter as one
of its variables. -/
def value (b : Bindings) (name : Text) : Text :=
  (b.lookup name).getD ('%' :: name ++ ['%'])

def define (b : Bindings) (name value : Text) : Bindings :=
  { b with defined := (name, value) :: b.defined }

/-- Two values with a blank between them, unless one is empty. -/
def joinValues (first second : Text) : Text :=
  if first.isEmpty || second.isEmpty then first ++ second else first ++ ' ' :: second

/-- The bindings after a definition.  A conditional one looks at overrides too, while an appended
value goes after the defined one, whatever the override is. -/
def assign (b : Bindings) (d : Definition) : Bindings :=
  match d.operator with
  | .recursive => b.define d.name d.value
  | .simple => b.define d.name d.value
  | .conditional => if (b.lookup d.name).isSome then b else b.define d.name d.value
  | .append => b.define d.name (joinValues ((b.defined.lookup d.name).getD []) d.value)

theorem assign_cases (b : Bindings) (d : Definition) :
    b.assign d = b ∨ ∃ value, b.assign d = b.define d.name value := by
  unfold assign
  cases d.operator with
  | recursive => exact .inr ⟨_, rfl⟩
  | simple => exact .inr ⟨_, rfl⟩
  | conditional =>
    simp only []
    split
    · exact .inl rfl
    · exact .inr ⟨_, rfl⟩
  | append => exact .inr ⟨_, rfl⟩

end Bindings

end BuildScript
