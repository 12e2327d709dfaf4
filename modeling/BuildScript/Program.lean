import BuildScript.CommandLine.Notice
import BuildScript.CommandLine.Scan
import BuildScript.Host.Basic
import BuildScript.Host.Path
import BuildScript.RuleFile.Reader
import BuildScript.Script.OfRules

/-!
# The program

Reads a rule file, compiles it to a script, and writes the script with the line ends that are asked
for.  Nothing is written unless the whole script has been made.
-/

namespace BuildScript

/-- Why no script was written. -/
inductive Failure where
  | notFound (path : Text)
  | unreadable (path : Text)
  | parse (e : ParseError)
  | cycle (c : Cycle)
  | noDirectory (directory : Text)
  | notWritten (path : Text)
  | notSynced (path : Text)
  | notReplaceable (path : Text)
  | notPrinted
  deriving DecidableEq

namespace Failure

def message : Failure → Text
  | notFound path => "rule file `".toList ++ path ++ "` not found".toList
  | unreadable path => "reading ".toList ++ path
  | parse e => e.message
  | cycle c => c.message
  | noDirectory directory => "creating temporary file in ".toList ++ directory
  | notWritten path => "writing ".toList ++ path
  | notSynced path => "syncing ".toList ++ path
  | notReplaceable path => "replacing ".toList ++ path
  | notPrinted => "writing script to standard output".toList

/-- The code of a failure and what can be done about it; failures of the system have neither. -/
def diagnosis? : Failure → Option (Text × Text)
  | notFound _ =>
    some ("makefile2batch::runner::rule_file_not_found".toList,
      "pass the rule file with `-f FILE`; the default is `Makefile` in the current directory".toList)
  | parse e => some (e.fault.code, e.fault.help)
  | cycle _ => some (Cycle.code, Cycle.help)
  | _ => none

/-- A failure as it is reported. -/
def report (f : Failure) : Text :=
  match f.diagnosis? with
  | none => "error: ".toList ++ f.message ++ ['\n']
  | some (code, help) =>
    code ++ "\n\n  × ".toList ++ f.message ++ "\n  help: ".toList ++ help ++ ['\n']

end Failure

namespace Program

/-- The script for the text of a rule file, with line feeds alone. -/
def compileText (overrides : List (Text × Text)) (isolated : Bool) (text : Text) :
    Except Failure Text :=
  match RuleFile.parse (.ofOverrides overrides) text with
  | .error e => .error (.parse e)
  | .ok rules =>
    match rules.compile isolated with
    | .error c => .error (.cycle c)
    | .ok script => .ok script.render

variable {m : Type → Type} [Monad m]

/-- Reads a rule file and makes its script. -/
def makeScript (host : Host m) (path : Text) (overrides : List (Text × Text)) (isolated : Bool) :
    m (Except Failure Text) := do
  match ← host.readFile path with
  | .error .notFound => return .error (.notFound path)
  | .error .unreadable => return .error (.unreadable path)
  | .ok bytes => return compileText overrides isolated (Text.decodeFile bytes)

/-- Fails after a temporary file has been made, which is removed. -/
def abandon (host : Host m) (temporary : host.Temporary) (failure : Failure) :
    m (Except Failure Unit) := do
  host.removeTemporary temporary
  return .error failure

/-- Gives a temporary file its path for good. -/
def settle (host : Host m) (temporary : host.Temporary) (path : Text) :
    m (Except Failure Unit) := do
  if ← host.persist temporary path then return .ok ()
  else abandon host temporary (.notReplaceable path)

/-- Puts a file at a path, instead of a file that may be there.  The bytes are first written to a
temporary file in the same directory. -/
def replaceFile (host : Host m) (path : Text) (bytes : List UInt8) : m (Except Failure Unit) := do
  match ← host.createTemporary (Path.directory path) with
  | none => return .error (.noDirectory (Path.directory path))
  | some temporary =>
    if ← host.writeTemporary temporary bytes then
      if ← host.syncTemporary temporary then settle host temporary path
      else abandon host temporary (.notSynced (host.pathOf temporary))
    else abandon host temporary (.notWritten (host.pathOf temporary))

/-- Writes a script to a file or to standard output.  If nobody reads what is printed, that is no
failure. -/
def deliver (host : Host m) (destination : Option Text) (script : Text) :
    m (Except Failure Unit) := do
  match destination with
  | none =>
    match ← host.print script with
    | .error .failed => return .error .notPrinted
    | _ => return .ok ()
  | some path => replaceFile host path script.encode

/-- Makes the script that the options ask for, and writes it. -/
def run (host : Host m) (o : Options) : m (Except Failure Unit) := do
  match ← makeScript host o.file o.overrides o.isolated with
  | .error failure => return .error failure
  | .ok script =>
    let newline ← Newline.resolve o.newline o.destination?.isSome host.isTerminal
    deliver host o.destination? (newline.apply script)

/-- The program with its arguments; gives the exit code. -/
def invoke (host : Host m) (arguments : List Text) : m Nat := do
  match CommandLine.read arguments with
  | .error stop =>
    let _ ← host.print stop.output
    host.report stop.complaint
    return stop.exitCode
  | .ok o =>
    if o.verbose then
      host.report ("compiling rule file ".toList ++ o.file ++ ['\n'])
    match ← run host o with
    | .error failure =>
      host.report failure.report
      return 1
    | .ok () => return 0

end Program

end BuildScript
