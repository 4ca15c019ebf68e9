import LargeNeighborhood.Fault
import LargeNeighborhood.Variable

/-!
# Positions grouped by value

One bucket per value of a fixed range holds the positions recorded with that value. The ids of the
non-empty buckets are listed in order of first appearance, so a rebuild empties only those.
-/

namespace LargeNeighborhood

structure ValueGroups where
  min : Int32
  buckets : Array (Array Nat)
  /-- The ids of the non-empty buckets, in order of first appearance. -/
  occupied : Array Nat
deriving DecidableEq

namespace ValueGroups

/-- Empty buckets for the values from `min` to `max`. -/
def empty (min max : Int32) : ValueGroups where
  min := min
  buckets := Array.replicate (max.toInt - min.toInt + 1).toNat #[]
  occupied := #[]

/-- Empty buckets for a range that must hold a value. -/
def ofRange (min max : Int32) : Checked ValueGroups :=
  if min ≤ max then
    return empty min max
  else
    throw .emptyRange

def rangeLength (g : ValueGroups) : Nat :=
  g.buckets.size

/-- The number of values held by some position. -/
def usedValues (g : ValueGroups) : Nat :=
  g.occupied.size

/-- The bucket of a value. Values below the range wrap around to ids beyond every bucket. -/
def groupOf (g : ValueGroups) (value : Int32) : Nat :=
  ((value.toInt - g.min.toInt) % UInt64.size).toNat

/-- The value `id` places above the least one, cut to 32 bits. -/
def valueAt (g : ValueGroups) (id : Nat) : Int32 :=
  Int32.ofInt (g.min.toInt + id)

/-- The value of a bucket, computed in signed 64-bit integers. -/
def valueOf (g : ValueGroups) (id : Nat) : Checked Int32 := do
  let _ ← Checked.signedWord (g.min.toInt + (id : Int).bmod UInt64.size)
  return g.valueAt id

def max (g : ValueGroups) : Int32 :=
  g.valueAt (g.buckets.size - 1)

def members (g : ValueGroups) (id : Nat) : Checked (Array Nat) :=
  Checked.get g.buckets id

/-- The non-empty buckets in order of first appearance. -/
def nonEmpty (g : ValueGroups) : List (Nat × Array Nat) :=
  g.occupied.toList.map fun id => (id, (g.buckets[id]?).getD #[])

def cleared (g : ValueGroups) : ValueGroups :=
  { g with
    buckets := g.occupied.foldl (fun buckets id => buckets.modify id fun _ => #[]) g.buckets
    occupied := #[] }

def insert (g : ValueGroups) (position : Nat) (value : Int32) : Checked ValueGroups :=
  let id := g.groupOf value
  match g.buckets[id]? with
  | none => throw .valueOutOfRange
  | some bucket =>
    let fresh := bucket.isEmpty
    return { g with
      buckets := g.buckets.modify id fun bucket => bucket.push position
      occupied := if fresh then g.occupied.push id else g.occupied }

def insertAll (g : ValueGroups) (position : Nat) : List Int32 → Checked ValueGroups
  | [] => return g
  | value :: values => do (← g.insert position value).insertAll (position + 1) values

/-- The grouping of a new list of values, all of which must lie in the range. -/
def rebuild (g : ValueGroups) (values : Array Int32) : Checked ValueGroups :=
  g.cleared.insertAll 0 values.toList

end ValueGroups

end LargeNeighborhood
