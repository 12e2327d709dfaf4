import BuildScript.CommandLine.Options

/-!
# Reading the command line

Arguments are read from left to right.  An option that takes a value takes it from the rest of its
own argument or from the next one; switches of one letter can share an argument; every other
argument, and every argument after two minus signs, is an override.
-/

namespace BuildScript

namespace CommandLine

/-- What has been read of a command line.  `awaiting` is an option whose value is the next
argument, and `bare` says that no more options follow. -/
structure Scan where
  file : Option Text
  output : Option Text
  isolated : Bool
  newline : Option Newline
  verbose : Bool
  overrides : List (Text × Text)
  awaiting : Option Setting
  bare : Bool

namespace Scan

def start : Scan := ⟨none, none, false, none, false, [], none, false⟩

/-- Gives an option its value.  Paths must not be empty, and no option is given twice. -/
def give (scan : Scan) (s : Setting) (value : Text) : Except Stop Scan :=
  match s with
  | .file =>
    if scan.file.isSome then .error (.repeated s.name)
    else if value.isEmpty then .error (.badValue s value)
    else .ok { scan with file := some value }
  | .output =>
    if scan.output.isSome then .error (.repeated s.name)
    else if value.isEmpty then .error (.badValue s value)
    else .ok { scan with output := some value }
  | .newline =>
    if scan.newline.isSome then .error (.repeated s.name)
    else
      match Newline.ofName? value with
      | none => .error (.badValue s value)
      | some newline => .ok { scan with newline := some newline }

/-- Turns a switch on, which is possible once. -/
def turnOn (scan : Scan) (s : Switch) : Except Stop Scan :=
  match s with
  | .isolated =>
    if scan.isolated then .error (.repeated s.name) else .ok { scan with isolated := true }
  | .verbose =>
    if scan.verbose then .error (.repeated s.name) else .ok { scan with verbose := true }

/-- Takes an argument that is no option. -/
def takeOverride (scan : Scan) (argument : Text) : Except Stop Scan :=
  match readOverride argument with
  | .error e => .error (.badOverride e)
  | .ok pair => .ok { scan with overrides := scan.overrides ++ [pair] }

/-- Takes a flag by its full name, with the value that follows an equals sign. -/
def takeNamed (scan : Scan) (name : Text) (value : Option Text) : Except Stop Scan :=
  match Flag.ofName? name, value with
  | none, _ => .error (.unknownFlag name)
  | some (.setting s), some value => scan.give s value
  | some (.setting s), none => .ok { scan with awaiting := some s }
  | some (.switch _), some _ => .error (.unexpectedValue name)
  | some (.switch s), none => scan.turnOn s
  | some (.notice _), some _ => .error (.unexpectedValue name)
  | some (.notice n), none => .error (.notice n)

/-- Takes the letters of an argument.  What follows the letter of an option that takes a value is
that value, after an equals sign if there is one. -/
def takeLetters (scan : Scan) : Text → Except Stop Scan
  | [] => .ok scan
  | letter :: rest =>
    match Flag.ofLetter? letter with
    | none => .error (.unknownFlag [letter])
    | some (.setting s) =>
      if rest.isEmpty then .ok { scan with awaiting := some s }
      else scan.give s ((Text.after? ['='] rest).getD rest)
    | some (.switch s) =>
      match scan.turnOn s with
      | .error stop => .error stop
      | .ok scan => takeLetters scan rest
    | some (.notice n) => .error (.notice n)

/-- Whether an argument has the form of an option.  A minus sign alone has not. -/
def isFlag (argument : Text) : Bool := argument.head? == some '-' && argument != ['-']

/-- Takes the next argument. -/
def take (scan : Scan) (argument : Text) : Except Stop Scan :=
  match scan.awaiting with
  | some s =>
    if isFlag argument then .error (.missingValue s)
    else { scan with awaiting := none }.give s argument
  | none =>
    if scan.bare then scan.takeOverride argument
    else
      match argument with
      | ['-', '-'] => .ok { scan with bare := true }
      | '-' :: '-' :: body =>
        match Text.cut? '=' body with
        | none => scan.takeNamed body none
        | some (name, value) => scan.takeNamed name (some value)
      | '-' :: letter :: rest => scan.takeLetters (letter :: rest)
      | _ => scan.takeOverride argument

/-- The options after the last argument. -/
def finish (scan : Scan) : Except Stop Options :=
  match scan.awaiting with
  | some s => .error (.missingValue s)
  | none =>
    .ok
      { file := scan.file.getD Options.defaultFile
        output := scan.output
        isolated := scan.isolated
        newline := scan.newline
        verbose := scan.verbose
        overrides := scan.overrides }

/-- Takes all arguments. -/
def takeAll (scan : Scan) : List Text → Except Stop Options
  | [] => scan.finish
  | argument :: rest =>
    match scan.take argument with
    | .error stop => .error stop
    | .ok scan => takeAll scan rest

end Scan

/-- Reads the arguments of the program. -/
def read (arguments : List Text) : Except Stop Options := Scan.start.takeAll arguments

end CommandLine

end BuildScript
