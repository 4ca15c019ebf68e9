import LargeNeighborhood.Event
import LargeNeighborhood.Fault
import LargeNeighborhood.Random.Source

/-!
# The schedule of fragment sizes

A new snapshot asks for a proportion of the groups plus one, which the first cycle uses as is.
Once more cycles than the limit have run, the size is redrawn below the number of groups and the
limit moves `level` cycles on.
-/

namespace LargeNeighborhood

structure Schedule where
  settings : Settings
  /-- The cycles since the last snapshot. -/
  calls : Nat
  /-- The number of cycles after which the size is redrawn. -/
  limit : Nat
  /-- The number of groups to fix, before truncation. -/
  fixedValues : Binary64
  /-- The number of groups of the snapshot. -/
  usedValues : Nat
deriving DecidableEq

namespace Schedule

def ofSettings (settings : Settings) : Schedule where
  settings := settings
  calls := 0
  limit := 0
  fixedValues := Binary64.zero
  usedValues := 0

/-- Starts again for a snapshot with `usedValues` groups. -/
def reset (s : Schedule) (usedValues : Nat) : Schedule where
  settings := s.settings
  calls := 0
  limit := 0
  fixedValues := s.settings.proportion * Binary64.ofNat usedValues + Binary64.one
  usedValues := usedValues

def target (s : Schedule) : Nat :=
  s.fixedValues.truncate

structure Step (ρ : Type) where
  schedule : Schedule
  source : ρ
  /-- The report of a redraw, if there was one. -/
  event : Option Event

def Step.redrawn (step : Step ρ) : Bool :=
  step.event.isSome

/-- The report of a redraw that led to this schedule. -/
def relaxEvent (s : Schedule) : Event :=
  .relax s.calls s.limit s.fixedValues s.usedValues

/-- Redraws the size if the limit has been passed. -/
def update [RandomSource ρ] (s : Schedule) (source : ρ) : Checked (Step ρ) :=
  if s.calls ≤ s.limit then
    return ⟨s, source, none⟩
  else do
    let limit ← Checked.word (s.calls + s.settings.level.toNat)
    let (part, source) := RandomSource.unit source
    let s := { s with limit := limit, fixedValues := part * Binary64.ofNat s.usedValues }
    return ⟨s, source, some s.relaxEvent⟩

/-- Checks the limit against the cycles completed so far, then counts a new one. -/
def tick [RandomSource ρ] (s : Schedule) (source : ρ) : Checked (Step ρ) := do
  let step ← s.update source
  let calls ← Checked.word (step.schedule.calls + 1)
  return { step with schedule := { step.schedule with calls := calls } }

end Schedule

end LargeNeighborhood
