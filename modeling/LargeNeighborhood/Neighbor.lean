import LargeNeighborhood.Policy
import LargeNeighborhood.Random.Stream
import LargeNeighborhood.StoredSolution

/-!
# Neighborhoods of a model

A neighborhood remembers the values of its variables in the last recorded solution and, cycle by
cycle, freezes some of them in a model. Its random stream is its own: equal seeds and equal
operations give equal fragments.
-/

namespace LargeNeighborhood

structure Neighbor where
  vars : Array VarId
  /-- The recorded values, one per variable; none before the first solution. -/
  values : Array Int32
  min : Int32
  max : Int32
  source : Random.Stream
  policy : Policy
deriving DecidableEq

namespace Neighbor

def ofPolicy (vars : Array VarId) (policy : Policy) (seed : UInt64) :
    Except NeighborError Neighbor :=
  if vars.isEmpty then
    throw (.refused .noVariables)
  else
    let (min, max) := policy.bounds
    return ⟨vars, #[], min, max, .ofSeed seed, policy⟩

/-- The least lower bound and the greatest upper bound of some variables. -/
def valueRange (m : Model) (vars : Array VarId) :
    Checked (Except NeighborError (Int32 × Int32)) := do
  let lowers ← vars.toList.mapM m.lower
  let uppers ← vars.toList.mapM m.upper
  match lowers.min?, uppers.max? with
  | some min, some max => return .ok (min, max)
  | _, _ => return .error (.refused .noVariables)

/-- A neighborhood for the values its variables can take now. -/
def create (m : Model) (vars : Array VarId) (settings : Settings) (seed : UInt64) :
    Checked (Except NeighborError Neighbor) := do
  return (← valueRange m vars).bind fun (min, max) =>
    (Policy.create min max settings).bind fun policy => ofPolicy vars policy seed

/-- A value to record must lie in the range of the neighborhood. -/
def checkRange (n : Neighbor) (var : VarId) (value : Int32) : Except NeighborError Int32 :=
  if value < n.min ∨ n.max < value then
    throw (.valueOutOfRange var value n.min n.max)
  else
    return value

/-- Reads the values of some variables; the first variable that fails decides the error. -/
def readValues (n : Neighbor) (read : VarId → Checked (Except NeighborError Int32)) :
    List VarId → Checked (Except NeighborError (List Int32))
  | [] => return .ok []
  | var :: vars => do
    match (← read var).bind (n.checkRange var) with
    | .error e => return .error e
    | .ok value => return (← n.readValues read vars).map (value :: ·)

structure Reported where
  neighbor : Neighbor
  events : List Event
deriving DecidableEq

def takeSnapshot (n : Neighbor) (values : Array Int32) : Checked Reported := do
  let regrouped ← n.policy.snapshot values
  return ⟨{ n with values := values, policy := regrouped.policy }, regrouped.events⟩

/-- Records the values that `read` gives, all or none of them. -/
def recordWith (n : Neighbor) (read : VarId → Checked (Except NeighborError Int32)) :
    Checked (Except NeighborError Reported) := do
  match ← n.readValues read n.vars.toList with
  | .error e => return .error e
  | .ok values => return .ok (← n.takeSnapshot values.toArray)

def modelValue (m : Model) (var : VarId) : Checked (Except NeighborError Int32) := do
  match ← m.value var with
  | some value => return .ok value
  | none => return .error (.uninstantiated var)

def storedValue (s : StoredSolution) (var : VarId) : Checked (Except NeighborError Int32) :=
  match s.value? var with
  | some value => return .ok value
  | none => return .error (.missingValue var)

/-- Records the values of a model in which every variable is instantiated. -/
def record (n : Neighbor) (m : Model) : Checked (Except NeighborError Reported) :=
  n.recordWith (modelValue m)

def load (n : Neighbor) (s : StoredSolution) : Checked (Except NeighborError Reported) :=
  n.recordWith (storedValue s)

/-- Freezes a position in a model; a variable that has lost its recorded value is skipped. -/
def freezePosition (n : Neighbor) : Freeze Model := fun position m => do
  let var ← Checked.get n.vars position
  let value ← Checked.get n.values position
  if ← m.contains var value then
    let (result, m) ← m.instantiate var value
    return (result.map fun () => true, m)
  else
    return (.ok false, m)

structure Cycle where
  neighbor : Neighbor
  model : Model
  result : Except Contradiction Outcome
  events : List Event

def fix (n : Neighbor) (m : Model) : Checked Cycle := do
  let paced ← n.policy.tick n.source
  let target := paced.policy.schedule.target
  let cycle ← paced.policy.selectAndFreeze target paced.source n.freezePosition m
  let ending :=
    match cycle.result with
    | .ok _ => []
    | .error c => [Event.fixFailed c]
  return {
    neighbor := { n with source := cycle.source, policy := cycle.policy }
    model := cycle.state
    result := cycle.result
    events := paced.events ++ cycle.events ++ ending }

def restrictLess (n : Neighbor) : Checked Reported := do
  let paced ← n.policy.relax n.source
  return ⟨{ n with source := paced.source, policy := paced.policy }, paced.events⟩

/-- There is always another fragment to try. -/
def isSearchComplete (_ : Neighbor) : Bool := false

/-- The cycles of a relaxation loop: each runs on the same domains, which are put back after it. -/
def relaxLoop (n : Neighbor) (m : Model) :
    (times : Nat) → Checked (List (Except Contradiction Outcome) × Neighbor × Model × List Event)
  | 0 => return ([], n, m, [])
  | times + 1 => do
    let cycle ← n.fix m.save
    let (results, n, m, events) ← cycle.neighbor.relaxLoop cycle.model.restore.1 times
    return (cycle.result :: results, n, m, cycle.events ++ events)

end Neighbor

end LargeNeighborhood
