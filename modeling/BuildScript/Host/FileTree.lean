import BuildScript.Host.Basic
import BuildScript.Host.Path

/-!
# File trees

The files and directories of a system, and the directory that it works in, as a value.
-/

namespace BuildScript

inductive Node where
  | file (bytes : List UInt8)
  | directory
  deriving DecidableEq

/-- What stands at a location, which is given by the names that lead to it from the root, and the
location at which relative paths begin. -/
structure FileTree where
  nodes : List (List Text × Node)
  workingDirectory : List Text
  deriving DecidableEq

/-- Why a path leads nowhere: a name is missing, a file is used as a directory, or the system does
not take the path or a name in it. -/
inductive Obstacle where
  | missing
  | notDirectory
  | notAdmissible
  deriving DecidableEq

namespace FileTree

/-- What stands at a location; the root is always there. -/
def node? (tree : FileTree) (location : List Text) : Option Node :=
  if location.isEmpty then some .directory else tree.nodes.lookup location

/-- Puts a node at a location, instead of what was there. -/
def put (tree : FileTree) (location : List Text) (node : Node) : FileTree :=
  { tree with nodes := (location, node) :: tree.nodes.filter fun entry ↦ entry.1 != location }

/-- Takes away what stands at a location. -/
def remove (tree : FileTree) (location : List Text) : FileTree :=
  { tree with nodes := tree.nodes.filter fun entry ↦ entry.1 != location }

/-- Goes from a location along some components, and makes the directories that are missing. -/
def makeWay (tree : FileTree) (location : List Text) : List Text → FileTree × List Text
  | [] => (tree, location)
  | component :: rest =>
    if Path.isIdle component then makeWay tree location rest
    else if component = Path.up then makeWay tree location.dropLast rest
    else
      let next := location ++ [component]
      makeWay (if (tree.node? next).isNone then tree.put next .directory else tree) next rest

/-- Puts a file at a path below the working directory, and makes the directories that hold it. -/
def addFile (tree : FileTree) (path : Text) (bytes : List UInt8) : FileTree :=
  let parts := Path.components path
  let (tree, location) := tree.makeWay tree.workingDirectory parts.dropLast
  tree.put (location ++ parts.getLast?.toList) (.file bytes)

/-- The tree with a working directory, and some directories and files below it. -/
def ofEntries (workingDirectory : List Text) (directories : List Text)
    (files : List (Text × List UInt8)) : FileTree :=
  let start := (makeWay ⟨[], workingDirectory⟩ [] workingDirectory).1
  let tree := directories.foldl
    (fun tree path ↦ (tree.makeWay workingDirectory (Path.components path)).1) start
  files.foldl (fun tree (path, bytes) ↦ tree.addFile path bytes) tree

/-- The files below the working directory, each with its path. -/
def files (tree : FileTree) : List (Text × List UInt8) :=
  tree.nodes.filterMap fun (location, node) ↦
    match node with
    | .directory => none
    | .file bytes =>
      if tree.workingDirectory.isPrefixOf location then
        some (List.intercalate ['/'] (location.drop tree.workingDirectory.length), bytes)
      else none

/-- Goes from a location to the component of a path.  There is nothing above the root. -/
def enter (tree : FileTree) (location : List Text) (component : Text) :
    Except Obstacle (List Text) :=
  if tree.node? location ≠ some .directory then .error .notDirectory
  else if Path.isIdle component then .ok location
  else if component = Path.up then .ok location.dropLast
  else if !Path.isAdmissibleName component then .error .notAdmissible
  else if (tree.node? (location ++ [component])).isSome then .ok (location ++ [component])
  else .error .missing

/-- Goes from a location along the components of a path. -/
def follow (tree : FileTree) (location : List Text) : List Text → Except Obstacle (List Text)
  | [] => .ok location
  | component :: rest =>
    match tree.enter location component with
    | .error obstacle => .error obstacle
    | .ok next => follow tree next rest

/-- The location that a path leads to.  The empty path leads nowhere. -/
def locate (tree : FileTree) (path : Text) : Except Obstacle (List Text) :=
  if path.isEmpty then .error .missing
  else if !Path.isAdmissible path then .error .notAdmissible
  else
    tree.follow (if Path.isAbsolute path then [] else tree.workingDirectory) (Path.components path)

/-- The bytes of the file at a path. -/
def read (tree : FileTree) (path : Text) : Except ReadFault (List UInt8) :=
  match tree.locate path with
  | .error .missing => .error .notFound
  | .error _ => .error .unreadable
  | .ok location =>
    match tree.node? location with
    | some (.file bytes) => .ok bytes
    | _ => .error .unreadable

/-- The names of temporary files. -/
def temporaryName (n : Nat) : Text := ".tmp".toList ++ (Nat.toDigits 10 n).leftpad 6 '0'

/-- The first name for a temporary file that is free at a location. -/
def freshName? (tree : FileTree) (location : List Text) : Option Text :=
  ((List.range (tree.nodes.length + 1)).map temporaryName).find? fun name ↦
    (tree.node? (location ++ [name])).isNone

/-- The path, from the root, under which a temporary file is made in a directory.  Of its name only
the number of characters matters. -/
def temporaryPath (tree : FileTree) (directory : Text) : Text :=
  let start :=
    if Path.isAbsolute directory then directory
    else '/' :: List.intercalate ['/'] (tree.workingDirectory ++ [directory])
  start ++ '/' :: temporaryName 0

/-- Makes an empty temporary file in a directory, which must be there.  Gives its location too. -/
def createTemporary (tree : FileTree) (directory : Text) : Option (List Text × FileTree) :=
  match tree.locate directory with
  | .error _ => none
  | .ok location =>
    if tree.node? location ≠ some .directory then none
    else if !Path.isAdmissible (tree.temporaryPath directory) then none
    else
      (tree.freshName? location).map fun name ↦
        (location ++ [name], tree.put (location ++ [name]) (.file []))

/-- Gives what stands at a location a path, instead of a file that may be there.  The directory of
the path must be there, and the path must end in a name that it can hold. -/
def rename (tree : FileTree) (source : List Text) (path : Text) : Option FileTree :=
  if !Path.isAdmissible path then none
  else
    match tree.node? source, tree.locate (Path.directory path),
        (Path.name? path).filter Path.isAdmissibleName with
    | some node, .ok location, some name =>
      if tree.node? location ≠ some .directory then none
      else if tree.node? (location ++ [name]) = some .directory then none
      else some ((tree.remove source).put (location ++ [name]) node)
    | _, _, _ => none

end FileTree

/-- A system as a value: its files, and what has been printed and reported. -/
structure World where
  files : FileTree
  printed : Text
  reported : Text
  deriving DecidableEq

namespace World

/-- The world before a program runs. -/
def start (files : FileTree) : World := ⟨files, [], []⟩

/-- What a system refuses to do: it may take only so many bytes into a file, fail to bring them to
the disk, or stop printing after so many characters. -/
structure Faults where
  space : Option Nat
  sync : Bool
  print : Option (Nat × PrintFault)

/-- The system does everything that is asked of it. -/
def noFaults : Faults := ⟨none, false, none⟩

/-- The bytes that get into a file, and whether they are all. -/
def Faults.written (faults : Faults) (bytes : List UInt8) : List UInt8 × Bool :=
  match faults.space with
  | none => (bytes, true)
  | some space => (bytes.take space, decide (bytes.length ≤ space))

/-- The characters that are printed, and what went wrong then. -/
def Faults.printed (faults : Faults) (text : Text) : Text × Except PrintFault Unit :=
  match faults.print with
  | none => (text, .ok ())
  | some (count, fault) => (text.take count, .error fault)

/-- The operations on a world with faults, whose standard output is a terminal or is not.  A
temporary file is known by its location. -/
def faultyHost (faults : Faults) (terminal : Bool) : Host (StateM World) where
  Temporary := List Text
  readFile path := return (← get).files.read path
  createTemporary directory := do
    match (← get).files.createTemporary directory with
    | none => return none
    | some (location, files) =>
      modify fun world ↦ { world with files := files }
      return some location
  pathOf location := '/' :: List.intercalate ['/'] location
  writeTemporary location bytes := do
    let (written, all) := faults.written bytes
    modify fun world ↦ { world with files := world.files.put location (.file written) }
    return all
  syncTemporary _ := return !faults.sync
  persist location path := do
    match (← get).files.rename location path with
    | none => return false
    | some files =>
      modify fun world ↦ { world with files := files }
      return true
  removeTemporary location :=
    modify fun world ↦ { world with files := world.files.remove location }
  print text := do
    let (printed, result) := faults.printed text
    modify fun world ↦ { world with printed := world.printed ++ printed }
    return result
  report text := modify fun world ↦ { world with reported := world.reported ++ text }
  isTerminal := return terminal

/-- The operations on a world that does everything that is asked of it. -/
def host (terminal : Bool) : Host (StateM World) := faultyHost noFaults terminal

end World

end BuildScript
