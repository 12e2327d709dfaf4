import BuildScript.Text.Basic

/-!
# Line ends of a script

A script is written with carriage return and line feed, as the command interpreter expects, or with
line feeds alone.  Writing the former leaves line ends that are already complete as they are.
-/

namespace BuildScript

inductive Newline where
  | crlf
  | lf
  deriving DecidableEq

namespace Newline

def name : Newline → Text
  | crlf => "crlf".toList
  | lf => "lf".toList

def ofName? (text : Text) : Option Newline := [crlf, lf].find? (·.name = text)

/-- Completes the line ends of a text; `returned` says that a carriage return stands before it. -/
def complete (returned : Bool) : Text → Text
  | [] => []
  | c :: rest =>
    if c = '\n' && !returned then '\r' :: '\n' :: complete false rest
    else c :: complete (c == '\r') rest

def apply : Newline → Text → Text
  | crlf, text => complete false text
  | lf, text => text

/-- The line ends of a script: those asked for; else complete ones, except on a terminal.  The
terminal is looked at only if neither the request nor the destination decides. -/
def resolve {m : Type → Type} [Monad m] (explicit : Option Newline) (toFile : Bool)
    (terminal : m Bool) : m Newline :=
  match explicit with
  | some newline => pure newline
  | none => if toFile then pure crlf else return if ← terminal then lf else crlf

end Newline

end BuildScript
