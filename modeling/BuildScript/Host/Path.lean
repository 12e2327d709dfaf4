import BuildScript.Text.Utf8

/-!
# Paths

A path is a text whose components are divided by slashes.  Empty components and single dots do not
lead anywhere, except for a dot at the start, which is kept when a part of the path is named.  A
system admits no path that holds a null character, and bounds the bytes of a path and of a name.
-/

namespace BuildScript.Path

def components (path : Text) : List Text := List.splitOn '/' path

/-- Whether a component leads nowhere. -/
def isIdle (component : Text) : Bool := component.isEmpty || component == ['.']

/-- The component that leads to the directory above. -/
def up : Text := ['.', '.']

def isAbsolute (path : Text) : Bool := path.head? == some '/'

/-- The greatest number of bytes in a path. -/
def maxBytes : Nat := 4095

/-- The greatest number of bytes in a name. -/
def maxNameBytes : Nat := 255

/-- Whether a system takes a path at all, wherever it leads. -/
def isAdmissible (path : Text) : Bool :=
  !path.contains '\x00' && decide (path.byteLength ≤ maxBytes)

/-- Whether a directory can hold a name. -/
def isAdmissibleName (name : Text) : Bool := decide (name.byteLength ≤ maxNameBytes)

/-- Components without the idle ones at the end. -/
def dropIdle (parts : List Text) : List Text := (parts.reverse.dropWhile isIdle).reverse

/-- The path without its last component.  The root has no parent. -/
def parent? (path : Text) : Option Text :=
  match components path with
  | [] => none
  | first :: rest =>
    if (dropIdle rest).isEmpty then if first.isEmpty then none else some []
    else
      let parts := dropIdle (dropIdle rest).dropLast
      some (if first.isEmpty && parts.isEmpty then ['/']
        else List.intercalate ['/'] (first :: parts))

/-- The directory that holds a path. -/
def directory (path : Text) : Text :=
  match parent? path with
  | none => ['.']
  | some parent => if parent.isEmpty then ['.'] else parent

/-- The name of a path in its directory.  A path that ends in a slash or in dots has none. -/
def name? (path : Text) : Option Text :=
  (components path).getLast?.filter fun name ↦ !isIdle name && name != up

end BuildScript.Path
