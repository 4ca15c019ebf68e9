import LargeNeighborhood.BitSet
import LargeNeighborhood.Fault
import LargeNeighborhood.Random.Source

/-!
# Drawing from a fragment

A fragment is a set of group ids still eligible for freezing, seen through two questions: how many
ids it has and which is the next one. `select` draws a rank and walks to the id of that rank.
-/

namespace LargeNeighborhood

/-- The questions a draw asks of a set of ids. -/
class FragmentSet (φ : Type) where
  cardinality : φ → Nat
  /-- The least id from the given one on. -/
  nextSetBit : φ → Nat → Option Nat

namespace FragmentSet

def isEmpty [FragmentSet φ] (fragment : φ) : Bool :=
  cardinality fragment == 0

end FragmentSet

instance : FragmentSet BitSet where
  cardinality := BitSet.cardinality
  nextSetBit := BitSet.nextSetBit

/-- Ids in increasing order beside a count that need not be theirs. -/
structure DeclaredSet where
  cardinality : Nat
  ids : List Nat
deriving DecidableEq

namespace DeclaredSet

def nextSetBit (s : DeclaredSet) (first : Nat) : Option Nat :=
  s.ids.find? fun id => decide (first ≤ id)

end DeclaredSet

instance : FragmentSet DeclaredSet where
  cardinality := DeclaredSet.cardinality
  nextSetBit := DeclaredSet.nextSetBit

/-- The id `rank` places after `id`. -/
def walk [FragmentSet φ] (fragment : φ) : (rank : Nat) → (id : Nat) → Checked (Option Nat)
  | 0, id => return some id
  | rank + 1, id => do
    match FragmentSet.nextSetBit fragment (← Checked.word (id + 1)) with
    | none => return none
    | some next => walk fragment rank next

/-- Draws one id with equal chances; nothing is drawn from an empty fragment. -/
def select [FragmentSet φ] [RandomSource ρ] (fragment : φ) (source : ρ) :
    Checked (Option Nat × ρ) :=
  if FragmentSet.cardinality fragment = 0 then
    return (none, source)
  else
    let (rank, source) := RandomSource.below (FragmentSet.cardinality fragment) source
    match FragmentSet.nextSetBit fragment 0 with
    | none => return (none, source)
    | some first => return (← walk fragment rank first, source)

end LargeNeighborhood
