import BuildScript.Program

/-!
# The executable

Runs the program on the files of the system.
-/

namespace BuildScript.Main

/-- A temporary file, which is open until the program ends. -/
structure TemporaryFile where
  path : String
  handle : IO.FS.Handle

/-- Whether an action ends without an exception. -/
def succeeds (action : IO Unit) : IO Bool := do
  try
    action
    return true
  catch _ => return false

/-- A temporary file is made under a name that no file has. -/
def createTemporary (directory : Text) : IO (Option TemporaryFile) := do
  let digits := (Nat.toDigits 10 ((← IO.monoNanosNow) % 1000000 + 1000000)).drop 1
  let fresh := String.ofList (directory ++ "/.tmp".toList ++ digits)
  try
    return some ⟨fresh, ← IO.FS.Handle.mk fresh .writeNew⟩
  catch _ => return none

def readFile (path : Text) : IO (Except ReadFault (List UInt8)) := do
  try
    return .ok (← IO.FS.readBinFile (String.ofList path)).toList
  catch
    | .noFileOrDirectory .. => return .error .notFound
    | _ => return .error .unreadable

def print (text : Text) : IO (Except PrintFault Unit) := do
  try
    let out ← IO.getStdout
    out.putStr (String.ofList text)
    out.flush
    return .ok ()
  catch
    | .resourceVanished .. => return .error .closed
    | _ => return .error .failed

def host : Host IO where
  Temporary := TemporaryFile
  readFile := readFile
  createTemporary := createTemporary
  pathOf temporary := temporary.path.toList
  writeTemporary temporary bytes := succeeds (temporary.handle.write ⟨bytes.toArray⟩)
  syncTemporary temporary := succeeds temporary.handle.flush
  persist temporary path := succeeds (IO.FS.rename temporary.path (String.ofList path))
  removeTemporary temporary := discard (succeeds (IO.FS.removeFile temporary.path))
  print := print
  report text := discard (succeeds do (← IO.getStderr).putStr (String.ofList text))
  isTerminal := do (← IO.getStdout).isTty

end BuildScript.Main

def main (arguments : List String) : IO UInt32 := do
  let code ← BuildScript.Program.invoke BuildScript.Main.host (arguments.map String.toList)
  return code.toUInt32
