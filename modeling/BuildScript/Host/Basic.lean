import BuildScript.Text.Basic

/-!
# Host

What the program needs from the system that it runs on.  The program is written against these
operations, so that it can run on real files as well as on a file tree that is only a value.
-/

namespace BuildScript

/-- Why a file could not be read. -/
inductive ReadFault where
  | notFound
  | unreadable
  deriving DecidableEq

/-- Why a text could not be printed in full. -/
inductive PrintFault where
  /-- Nobody reads what is printed any more. -/
  | closed
  | failed
  deriving DecidableEq

/-- The operations of a system.  A temporary file is a file under a name that nothing else has.
Answers that are true or false say whether an operation has been carried out. -/
structure Host (m : Type → Type) where
  /-- What a temporary file is known by. -/
  Temporary : Type
  readFile : Text → m (Except ReadFault (List UInt8))
  /-- Makes an empty temporary file in a directory, if that can take one. -/
  createTemporary : Text → m (Option Temporary)
  /-- The path of a temporary file. -/
  pathOf : Temporary → Text
  writeTemporary : Temporary → List UInt8 → m Bool
  /-- Brings what was written to a temporary file to the disk. -/
  syncTemporary : Temporary → m Bool
  /-- Gives a temporary file a path for good, instead of a file that may be there.  This happens
  completely or not at all. -/
  persist : Temporary → Text → m Bool
  removeTemporary : Temporary → m Unit
  print : Text → m (Except PrintFault Unit)
  report : Text → m Unit
  isTerminal : m Bool

end BuildScript
