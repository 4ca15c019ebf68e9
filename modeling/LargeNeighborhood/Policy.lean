import LargeNeighborhood.Fragment
import LargeNeighborhood.NeighborError
import LargeNeighborhood.Schedule
import LargeNeighborhood.ValueGroups

/-!
# Freezing whole groups at random

Positions recorded with one value form a group. A cycle draws groups without replacement, each
with equal chances whatever its size, and freezes every member of a drawn group. How a position is
frozen is up to the caller, which keeps its own state.
-/

namespace LargeNeighborhood

structure Outcome where
  /-- The values of the drawn groups, in draw order. -/
  drawn : List Int32
  /-- The positions that were frozen, in order. -/
  frozen : List Nat
deriving DecidableEq

namespace Outcome

def empty : Outcome := ⟨[], []⟩

def isEmpty (o : Outcome) : Bool :=
  o.drawn.isEmpty

def cons (value : Int32) (frozen : List Nat) (rest : Outcome) : Outcome :=
  ⟨value :: rest.drawn, frozen ++ rest.frozen⟩

end Outcome

/-- Freezes a position: whether it was frozen or skipped, or why it cannot be. -/
abbrev Freeze (σ : Type) := Nat → σ → Checked (Except Contradiction Bool × σ)

/-- Freezes positions in order up to the first contradiction. -/
def freezeMembers (freeze : Freeze σ) :
    List Nat → σ → Checked (Except Contradiction (List Nat) × σ)
  | [], state => return (.ok [], state)
  | position :: rest, state => do
    match ← freeze position state with
    | (.error c, state) => return (.error c, state)
    | (.ok kept, state) =>
      let (frozen, state) ← freezeMembers freeze rest state
      return (frozen.map fun frozen => if kept then position :: frozen else frozen, state)

structure Draws (ρ σ : Type) where
  fragment : BitSet
  source : ρ
  state : σ
  result : Except Contradiction Outcome
  events : List Event

/-- Draws up to `target` groups of the fragment and freezes their members. A group leaves the
fragment once its members are done. -/
def drawGroups [RandomSource ρ] (groups : ValueGroups) (freeze : Freeze σ) :
    (target : Nat) → BitSet → ρ → σ → Checked (Draws ρ σ)
  | 0, fragment, source, state => return ⟨fragment, source, state, .ok .empty, []⟩
  | target + 1, fragment, source, state => do
    match ← select fragment source with
    | (none, source) => return ⟨fragment, source, state, .ok .empty, []⟩
    | (some id, source) =>
      let value ← groups.valueOf id
      let members ← groups.members id
      let event := Event.draw value members.size
      match ← freezeMembers freeze members.toList state with
      | (.error c, state) => return ⟨fragment, source, state, .error c, [event]⟩
      | (.ok frozen, state) =>
        let rest ← drawGroups groups freeze target (fragment.clearBit id) source state
        return { rest with
          result := rest.result.map (Outcome.cons value frozen)
          events := event :: rest.events }

structure Policy where
  groups : ValueGroups
  schedule : Schedule
  /-- The groups still eligible in the running cycle; empty between cycles. -/
  fragment : BitSet
deriving DecidableEq

namespace Policy

def create (min max : Int32) (settings : Settings) : Except NeighborError Policy :=
  if max < min then
    throw (.refused (.emptyRange min max))
  else
    match settings.check with
    | .error e => throw (.refused (.settings e))
    | .ok () =>
      let groups := ValueGroups.empty min max
      return ⟨groups, .ofSettings settings, .empty groups.rangeLength⟩

def bounds (p : Policy) : Int32 × Int32 :=
  (p.groups.min, p.groups.max)

/-- A policy after a snapshot. -/
structure Regrouped where
  policy : Policy
  events : List Event
deriving DecidableEq

/-- Groups a new list of values and starts the schedule again. -/
def snapshot (p : Policy) (values : Array Int32) : Checked Regrouped := do
  let groups ← p.groups.rebuild values
  let schedule := p.schedule.reset groups.usedValues
  return {
    policy := { p with groups := groups, schedule := schedule }
    events := [.snapshot values.size groups.usedValues schedule.fixedValues] }

structure Paced (ρ : Type) where
  policy : Policy
  source : ρ
  events : List Event

def pace (p : Policy) (step : Schedule.Step ρ) : Paced ρ :=
  ⟨{ p with schedule := step.schedule }, step.source, step.event.toList⟩

/-- Counts a cycle; the number of groups it should fix is the target of the new schedule. -/
def tick [RandomSource ρ] (p : Policy) (source : ρ) : Checked (Paced ρ) := do
  return p.pace (← p.schedule.tick source)

/-- Looks at the limit without counting a cycle. -/
def relax [RandomSource ρ] (p : Policy) (source : ρ) : Checked (Paced ρ) := do
  return p.pace (← p.schedule.update source)

def markOccupied (p : Policy) : BitSet :=
  p.groups.occupied.foldl (fun fragment id => fragment.markRange id (id + 1)) p.fragment

def clearOccupied (p : Policy) (fragment : BitSet) : BitSet :=
  p.groups.occupied.foldl BitSet.clearBit fragment

/-- A finished cycle: the policy, the randomness and the caller's state it left. -/
structure Cycle (ρ σ : Type) where
  policy : Policy
  source : ρ
  state : σ
  result : Except Contradiction Outcome
  events : List Event

/-- Draws up to `target` groups and freezes their members. The fragment is empty again afterwards,
also after a contradiction. -/
def selectAndFreeze [RandomSource ρ] (p : Policy) (target : Nat) (source : ρ)
    (freeze : Freeze σ) (state : σ) : Checked (Cycle ρ σ) := do
  let draws ← drawGroups p.groups freeze target p.markOccupied source state
  let ending :=
    match draws.result with
    | .ok o => [Event.fix target o.drawn.length o.frozen.length]
    | .error _ => []
  return {
    policy := { p with fragment := p.clearOccupied draws.fragment }
    source := draws.source
    state := draws.state
    result := draws.result
    events := draws.events ++ ending }

end Policy

end LargeNeighborhood
