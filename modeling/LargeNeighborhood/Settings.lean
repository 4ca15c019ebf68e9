import LargeNeighborhood.Numeric.FloatText

/-!
# Settings of a neighborhood

The proportion of groups to fix right after a solution and the number of cycles between two
redraws of that size. `Settings.check` names the first setting out of range.
-/

namespace LargeNeighborhood

/-- How a neighborhood paces its fixing cycles. -/
structure Settings where
  /-- The part of the used values to fix in the first cycle, in `(0, 1]`. -/
  proportion : Binary64
  /-- The fixing cycles between two redraws of the fragment size, at least one. -/
  level : UInt32
deriving DecidableEq

inductive SettingsError
  | proportion (proportion : Binary64)
  | level
deriving DecidableEq

def SettingsError.message : SettingsError → String
  | .proportion p => "prop_fix_values must be in (0, 1], got " ++ FloatText.message.render p
  | .level => "level must be positive"

/-- How a configuration is reported as invalid, for whatever reason. -/
def invalidConfiguration (reason : String) : String :=
  "Invalid configuration: " ++ reason

/-- The message of settings found invalid before anything is built from them. -/
def SettingsError.report (e : SettingsError) : String :=
  invalidConfiguration e.message

namespace Settings

/-- Half of the groups, and ten cycles between redraws. -/
def standard : Settings where
  proportion := Binary64.ofRatio false 1 2
  level := 10

instance : Inhabited Settings := ⟨standard⟩

/-- Both settings are in range; the proportion is looked at first. -/
def check (s : Settings) : Except SettingsError Unit :=
  if ¬ s.proportion.IsProportion then
    throw (.proportion s.proportion)
  else if s.level = 0 then
    throw .level
  else
    return ()

end Settings

end LargeNeighborhood
