import BuildScript.Text.Blank

/-!
# Overrides

An argument such as `NAME=VALUE` gives a name a value that the rule file cannot change.
-/

namespace BuildScript

/-- Why an argument overrides nothing. -/
inductive OverrideError where
  | noDefinition (argument : Text)
  | emptyName (argument : Text)
  deriving DecidableEq

namespace OverrideError

def message : OverrideError → Text
  | noDefinition argument =>
    "`".toList ++ argument ++ "` is not a NAME=VALUE macro definition".toList
  | emptyName argument => "`".toList ++ argument ++ "` has an empty macro name".toList

end OverrideError

/-- The name and the value of an override.  Blanks around the name do not count; the value is taken
as it is. -/
def readOverride (argument : Text) : Except OverrideError (Text × Text) :=
  match Text.cut? '=' argument with
  | none => .error (.noDefinition argument)
  | some (name, value) =>
    if Text.allBlank name then .error (.emptyName argument) else .ok (Text.trim name, value)

end BuildScript
