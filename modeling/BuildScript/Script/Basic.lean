import BuildScript.Text.Basic

/-!
# Batch scripts

A script has an entry, which goes to the block of the default goal, and one block for each target.
Blocks call each other by their labels, and two subroutines decide whether a target is older than
its sources.
-/

namespace BuildScript

/-- A line of a block.  Both `skip…` lines leave the block if its target needs nothing done, and
`attempt` runs a command whose failure does not count. -/
inductive Step where
  | call (label : Text)
  | skipIfPresent (target : Text)
  | skipIfFresh (target : Text) (sources : List Text)
  | enterScope
  | run (command : Text)
  | attempt (command : Text)
  | leaveScope
  | succeed
  deriving DecidableEq

structure Block where
  label : Text
  steps : List Step
  deriving DecidableEq

structure Script where
  goal : Option Text
  blocks : List Block
  deriving DecidableEq

namespace Script

/-- A name in quotation marks. -/
def quoted (name : Text) : Text := '"' :: name ++ ['"']

/-- Where the name of a block is called or marked. -/
def labelled (name : Text) : Text := ':' :: quoted name

/-- The label of the error exit. -/
def errorLabel : Text := "errpt".toList

/-- The label of the subroutine that compares a target with its sources. -/
def testLabel : Text := "test".toList

/-- Tells that a target is up to date, and leaves the block. -/
def upToDate (target : Text) : Text :=
  "(@echo '%~f0': '".toList ++ target ++ "' is up to date.& @exit /b 0)".toList

end Script

namespace Step

open Script

/-- A step as a line, without its indentation. -/
def body : Step → Text
  | call label => "@call ".toList ++ labelled label ++ " || @exit /b".toList
  | skipIfPresent target => "@if exist ".toList ++ quoted target ++ ' ' :: upToDate target
  | skipIfFresh target sources =>
    "@call :".toList ++ testLabel ++ (target :: sources).flatMap (fun name ↦ ' ' :: quoted name) ++
      " && ".toList ++ upToDate target
  | enterScope => "@setlocal".toList
  | run command => command ++ " || goto ".toList ++ errorLabel
  | attempt command => command
  | leaveScope => "@endlocal".toList
  | succeed => "@exit /b 0".toList

@[simp]
theorem body_call (label : Text) :
    (call label).body = "@call ".toList ++ labelled label ++ " || @exit /b".toList := rfl

@[simp]
theorem body_skipIfPresent (target : Text) :
    (skipIfPresent target).body = "@if exist ".toList ++ quoted target ++ ' ' :: upToDate target :=
  rfl

@[simp]
theorem body_skipIfFresh (target : Text) (sources : List Text) :
    (skipIfFresh target sources).body =
      "@call :".toList ++ testLabel ++
        (target :: sources).flatMap (fun name ↦ ' ' :: quoted name) ++
        " && ".toList ++ upToDate target := rfl

@[simp]
theorem body_run (command : Text) :
    (run command).body = command ++ " || goto ".toList ++ errorLabel := rfl

@[simp]
theorem body_attempt (command : Text) : (attempt command).body = command := rfl

def line (s : Step) : Text := ' ' :: ' ' :: s.body

/-- Whether a step calls the comparing subroutine. -/
def comparesAges : Step → Bool
  | skipIfFresh _ _ => true
  | _ => false

end Step

namespace Block

def lines (b : Block) : List Text := [] :: Script.labelled b.label :: b.steps.map Step.line

end Block

namespace Script

/-- The lines before the blocks, down to the label of the entry for the default goal. -/
def preamble : List Text :=
  ["@rem ***", "@rem *** Code generated by `makefile2batch`; DO NOT EDIT.", "@rem ***",
    "@setlocal", "@set \"PROMPT=$$ \"", "@call :\"%~1\"", "@endlocal",
    "@exit /b %ERRORLEVEL%", ":\"\""].map String.toList

/-- The lines that make the default goal; without one there is nothing to do. -/
def goalLines : Option Text → List Text
  | none => ["  @exit /b 0".toList]
  | some goal =>
    ["  @call ".toList ++ labelled goal, "  @exit /b %ERRORLEVEL%".toList]

/-- The error exit, which tells the status of the command that failed. -/
def errorExit : List Text :=
  [':' :: errorLabel, "  @echo ERROR %ERRORLEVEL%".toList, "  @exit /b %ERRORLEVEL%".toList]

/-- The subroutine that succeeds if its first argument is a file that is as new as each of the
others, and the one that reads the time stamp of a file in a form that can be compared. -/
def subroutines : List Text :=
  ["", ":test", "  @if not exist \"%~1\" @exit /b 1", "  @if \"%~2\" == \"\" @exit /b 0",
    "  @setlocal", "  @call :stamp \"%~1\"", "  @set \"TARGET=%STAMP%\"", ":test_next",
    "  @call :stamp \"%~2\"", "  @if \"%STAMP%\" gtr \"%TARGET%\" (@endlocal & @exit /b 1)",
    "  @shift /2", "  @if not \"%~2\" == \"\" @goto test_next", "  @endlocal & @exit /b 0", "",
    ":stamp", "  @set \"STAMP=\"",
    "  @for /F \"tokens=2,3\" %%I in ('where /T \"%~dp1.:%~nx1\" 2^>nul') do @set \"STAMP=%%I_%%J\"",
    "  @echo \"%STAMP%\" | findstr /R \"_[0-9]:\" > nul && @set \"STAMP=%STAMP:_=_0%\"",
    "  @exit /b 0"].map String.toList

/-- Whether some block calls the comparing subroutine. -/
def comparesAges (s : Script) : Bool := s.blocks.any fun b ↦ b.steps.any Step.comparesAges

/-- The lines of a script.  The subroutines are there only if they are called. -/
def lines (s : Script) : List Text :=
  preamble ++ goalLines s.goal ++ errorExit ++ s.blocks.flatMap Block.lines ++
    if s.comparesAges then subroutines else []

/-- The text of a script, with line feeds alone. -/
def render (s : Script) : Text := s.lines.flatMap (· ++ ['\n'])

end Script

end BuildScript
