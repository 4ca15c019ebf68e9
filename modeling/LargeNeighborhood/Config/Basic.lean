import LargeNeighborhood.Neighbor

/-!
# Configurations

A seed, if the fragments are to be reproducible, and the settings of the neighborhood. Building
from a configuration checks the settings first and then does what the direct constructor does.
-/

namespace LargeNeighborhood

structure Config where
  /-- The seed of the random stream; without one a fresh seed is used. -/
  seed : Option UInt64
  settings : Settings
deriving DecidableEq

namespace Config

def kind : String := "random_grouped_by_value"

def standard : Config := ⟨none, .standard⟩

instance : Inhabited Config := ⟨standard⟩

def withSeed (c : Config) (seed : UInt64) : Config :=
  { c with seed := some seed }

def withSettings (c : Config) (settings : Settings) : Config :=
  { c with settings := settings }

def validate (c : Config) : Except SettingsError Unit :=
  c.settings.check

/-- Numeric equality, under which the two zeros agree and "not a number" differs from itself. -/
def agrees (a b : Config) : Bool :=
  a.seed == b.seed && a.settings.level == b.settings.level &&
    Binary64.same a.settings.proportion b.settings.proportion

/-- The neighborhood of a configuration and the events of building it. `freshSeed` stands in for
a missing seed. -/
def build (c : Config) (freshSeed : UInt64) (m : Model) (vars : Array VarId) :
    Checked (Except NeighborError Neighbor × List Event) := do
  match c.validate with
  | .error e => return (.error (.refused (.configuration e)), [])
  | .ok () =>
    let seed := c.seed.getD freshSeed
    let built ← Neighbor.create m vars c.settings seed
    return (built, [.neighborBuild vars.size c.settings seed])

end Config

end LargeNeighborhood
