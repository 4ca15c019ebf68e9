import LargeNeighborhood.Proofs.BitSet.Scan
import Mathlib.Order.Interval.Finset.Nat

/-!
# Updates of a bit set

A bit set changes by marking ranges, clearing bits and clearing all of them. Each change acts on the
elements as an operation on finite sets, for whatever indices, and leaves no bit beyond the
capacity.
-/

namespace LargeNeighborhood.BitSet

/-- A change of a bit set. The indices need not be below its capacity, nor a range be in order. -/
inductive Update
  | markRange (first stop : Nat)
  | clearBit (i : Nat)
  | clear

def update (s : BitSet) : Update → BitSet
  | .markRange first stop => s.markRange first stop
  | .clearBit i => s.clearBit i
  | .clear => s.clear

def updateAll (s : BitSet) (updates : List Update) : BitSet :=
  updates.foldl update s

def Update.onMembers (capacity : Nat) (members : Finset Nat) : Update → Finset Nat
  | .markRange first stop => members ∪ Finset.Ico first (min stop capacity)
  | .clearBit i => members.erase i
  | .clear => ∅

def contents (capacity : Nat) (updates : List Update) : Finset Nat :=
  updates.foldl (Update.onMembers capacity) ∅

/-- A bit set of a capacity has certain elements and no bit beside them. -/
structure Holds (s : BitSet) (capacity : Nat) (members : Finset Nat) : Prop where
  capacity_eq : s.capacity = capacity
  tidy : s.Tidy
  contains_eq : ∀ i, s.contains i = decide (i ∈ members)

variable {s : BitSet} {capacity : Nat} {members : Finset Nat}

theorem holds_empty (capacity : Nat) : (empty capacity).Holds capacity ∅ :=
  ⟨rfl, tidy_empty capacity, fun i => by simp⟩

theorem Holds.markRange (h : s.Holds capacity members) (first stop : Nat) :
    (s.markRange first stop).Holds capacity (members ∪ Finset.Ico first (min stop capacity)) where
  capacity_eq := (capacity_markRange s first stop).trans h.capacity_eq
  tidy := h.tidy.markRange first stop
  contains_eq i := by
    rw [contains_markRange, h.contains_eq, h.capacity_eq, ← Bool.decide_or, decide_eq_decide,
      Finset.mem_union, Finset.mem_Ico, Nat.lt_min]

theorem Holds.clearBit (h : s.Holds capacity members) (j : Nat) :
    (s.clearBit j).Holds capacity (members.erase j) where
  capacity_eq := (capacity_clearBit s j).trans h.capacity_eq
  tidy := h.tidy.clearBit j
  contains_eq i := by
    rw [contains_clearBit, h.contains_eq, ← Bool.decide_and, decide_eq_decide, Finset.mem_erase,
      and_comm]

theorem Holds.clear (h : s.Holds capacity members) : s.clear.Holds capacity ∅ where
  capacity_eq := h.capacity_eq
  tidy := tidy_clear s
  contains_eq i := by simp

theorem Holds.update (h : s.Holds capacity members) (u : Update) :
    (s.update u).Holds capacity (u.onMembers capacity members) := by
  cases u with
  | markRange first stop => exact h.markRange first stop
  | clearBit i => exact h.clearBit i
  | clear => exact h.clear

theorem Holds.updateAll (h : s.Holds capacity members) (updates : List Update) :
    (s.updateAll updates).Holds capacity (updates.foldl (Update.onMembers capacity) members) := by
  induction updates generalizing s members with
  | nil => exact h
  | cons u updates ih => exact ih (h.update u)

theorem holds_contents (capacity : Nat) (updates : List Update) :
    ((empty capacity).updateAll updates).Holds capacity (contents capacity updates) :=
  (holds_empty capacity).updateAll updates

end LargeNeighborhood.BitSet
