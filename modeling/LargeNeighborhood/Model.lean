import LargeNeighborhood.Fault
import LargeNeighborhood.Model.Domain
import LargeNeighborhood.Variable

/-!
# An integer model with checkpoints

Explicit domains, a stack of saved domains to go back to, variables that refuse to be fixed, and a
log of the variables that were fixed. Going back restores the domains alone.
-/

namespace LargeNeighborhood

structure Model where
  domains : Array Domain
  /-- Saved domains, the latest first. -/
  checkpoints : List (Array Domain)
  /-- The variables that refuse every value. -/
  failing : List VarId
  /-- Successful instantiations, in order. -/
  log : Array (VarId × Int32)
deriving DecidableEq

namespace Model

def empty : Model := ⟨#[], [], [], #[]⟩

instance : Inhabited Model := ⟨empty⟩

def newVar (m : Model) (lower upper : Int32) : Model × VarId :=
  ({ m with domains := m.domains.push (.interval lower upper) }, ⟨m.domains.size⟩)

/-- A model of `n` variables with the values from `lower` to `upper`. -/
def ofBounds (n : Nat) (lower upper : Int32) : Model :=
  { empty with domains := Array.replicate n (.interval lower upper) }

def vars (m : Model) : List VarId :=
  (List.range m.domains.size).map VarId.mk

def domain (m : Model) (var : VarId) : Checked Domain :=
  Checked.get m.domains var.index

def setDomain (m : Model) (var : VarId) (d : Domain) : Model :=
  { m with domains := m.domains.setIfInBounds var.index d }

def lower (m : Model) (var : VarId) : Checked Int32 :=
  return (← m.domain var).lower

def upper (m : Model) (var : VarId) : Checked Int32 :=
  return (← m.domain var).upper

def contains (m : Model) (var : VarId) (value : Int32) : Checked Bool :=
  return (← m.domain var).contains value

def isInstantiated (m : Model) (var : VarId) : Checked Bool :=
  return (← m.lower var) == (← m.upper var)

def value (m : Model) (var : VarId) : Checked (Option Int32) := do
  if ← m.isInstantiated var then
    return some (← m.lower var)
  else
    return none

def remove (m : Model) (var : VarId) (value : Int32) : Checked Model := do
  return m.setDomain var ((← m.domain var).erase value)

/-- Makes a variable refuse every later instantiation. -/
def failOn (m : Model) (var : VarId) : Model :=
  { m with failing := m.failing.insert var }

/-- Gives each variable of a solution the value it has there, without logging it. -/
def assignAll (m : Model) : List (VarId × Int32) → Checked Model
  | [] => return m
  | (var, value) :: rest => do
    if ← m.contains var value then
      (m.setDomain var (.singleton value)).assignAll rest
    else
      throw .impossibleValue

def assign (m : Model) (vars : List VarId) (values : List Int32) : Checked Model :=
  if vars.length = values.length then
    m.assignAll (vars.zip values)
  else
    throw .lengthMismatch

/-- Restricts a variable to a value it can take. Otherwise its domain is emptied. -/
def instantiate (m : Model) (var : VarId) (value : Int32) :
    Checked (Except Contradiction Unit × Model) := do
  let d ← m.domain var
  if m.failing.contains var || !d.contains value then
    return (.error ⟨var, value⟩, m.setDomain var .empty)
  else
    let m := m.setDomain var (.singleton value)
    return (.ok (), { m with log := m.log.push (var, value) })

def save (m : Model) : Model :=
  { m with checkpoints := m.domains :: m.checkpoints }

/-- Goes back to the domains saved last, if any. -/
def restore (m : Model) : Model × Bool :=
  match m.checkpoints with
  | [] => (m, false)
  | domains :: rest => ({ m with domains := domains, checkpoints := rest }, true)

def clearLog (m : Model) : Model :=
  { m with log := #[] }

end Model

end LargeNeighborhood
