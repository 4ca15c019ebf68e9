import LargeNeighborhood.Settings
import LargeNeighborhood.Variable

/-!
# Errors of a neighborhood

Why a neighborhood cannot be built, why an assignment cannot be recorded, and how each is worded.
-/

namespace LargeNeighborhood

inductive Refusal
  | emptyRange (min max : Int32)
  | noVariables
  | settings (error : SettingsError)
  /-- The settings come from a configuration that was checked beforehand. -/
  | configuration (error : SettingsError)
deriving DecidableEq

def Refusal.message : Refusal → String
  | .emptyRange min max => s!"empty value range [{min}, {max}]"
  | .noVariables => "neighbor needs at least one variable"
  | .settings error => error.message
  | .configuration error => error.report

/-- How a neighborhood is reported as impossible to build, for whatever reason. -/
def configurationError (reason : String) : String :=
  "Configuration error: " ++ reason

/-- An operation of a neighborhood that was not carried out. -/
inductive NeighborError
  | refused (reason : Refusal)
  /-- The recorded value lies outside the range of the neighborhood. -/
  | valueOutOfRange (var : VarId) (value min max : Int32)
  /-- The loaded solution has no value for the variable. -/
  | missingValue (var : VarId)
  /-- The variable has several values or none. -/
  | uninstantiated (var : VarId)
  | contradiction (c : Contradiction)
deriving DecidableEq

def NeighborError.message : NeighborError → String
  | .refused reason => configurationError reason.message
  | .valueOutOfRange var value min max =>
    s!"Value {value} of " ++ var.name ++ s!" is outside [{min}, {max}]"
  | .missingValue var => "Solution has no value for " ++ var.name
  | .uninstantiated var => "Variable " ++ var.name ++ " is not instantiated"
  | .contradiction c => c.message

end LargeNeighborhood
