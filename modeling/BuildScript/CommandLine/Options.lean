import BuildScript.CommandLine.Override
import BuildScript.Newline

/-!
# Options

What the program can be asked for, the flags that ask for it, and why a command line can lead to
no script.
-/

namespace BuildScript

structure Options where
  file : Text
  output : Option Text
  isolated : Bool
  newline : Option Newline
  verbose : Bool
  overrides : List (Text × Text)
  deriving DecidableEq

namespace Options

/-- The rule file that is read if no other is named. -/
def defaultFile : Text := "Makefile".toList

/-- Whether an output path stands for standard output. -/
def isStandardOutput (path : Text) : Bool := path == ['-']

/-- The file that the script goes to, if it does not go to standard output. -/
def destination? (o : Options) : Option Text := o.output.filter fun path ↦ !isStandardOutput path

end Options

namespace CommandLine

/-- Options that take a value. -/
inductive Setting where
  | file
  | output
  | newline
  deriving DecidableEq

/-- Options that take none. -/
inductive Switch where
  | isolated
  | verbose
  deriving DecidableEq

/-- What can be asked for instead of a script. -/
inductive Notice where
  | summary
  | help
  | version
  deriving DecidableEq

inductive Flag where
  | setting (s : Setting)
  | switch (s : Switch)
  | notice (n : Notice)
  deriving DecidableEq

namespace Setting

def name : Setting → Text
  | file => "file".toList
  | output => "output".toList
  | newline => "newline".toList

end Setting

namespace Switch

def name : Switch → Text
  | isolated => "local-scope".toList
  | verbose => "verbose".toList

end Switch

namespace Flag

def ofLetter? : Char → Option Flag
  | 'f' => some (setting .file)
  | 'o' => some (setting .output)
  | 'v' => some (switch .verbose)
  | 'h' => some (notice .summary)
  | 'V' => some (notice .version)
  | _ => none

def named : List (Text × Flag) :=
  [(Setting.file.name, setting .file), (Setting.output.name, setting .output),
    (Setting.newline.name, setting .newline), (Switch.isolated.name, switch .isolated),
    (Switch.verbose.name, switch .verbose), ("help".toList, notice .help),
    ("version".toList, notice .version)]

/-- A flag by its full name, which cannot be shortened. -/
def ofName? (name : Text) : Option Flag := named.lookup name

end Flag

/-- Why no script is made: a notice was asked for, or an argument is wrong. -/
inductive Stop where
  | notice (n : Notice)
  | unknownFlag (flag : Text)
  | missingValue (s : Setting)
  | badValue (s : Setting) (value : Text)
  | repeated (name : Text)
  | unexpectedValue (name : Text)
  | badOverride (e : OverrideError)
  deriving DecidableEq

namespace Stop

def exitCode : Stop → Nat
  | notice _ => 0
  | _ => 2

end Stop

end CommandLine

end BuildScript
