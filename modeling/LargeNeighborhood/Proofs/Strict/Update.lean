import LargeNeighborhood.Proofs.BitSet.Update
import LargeNeighborhood.Proofs.Strict.BitSet

/-!
# Strict updates

The changes of a bit set with every access to a word and every shift checked. No change of a new bit
set fails a check, in whatever order and with whatever indices, and what is left is the finite set
that the same operations make.
-/

namespace LargeNeighborhood.Strict

def clear (s : BitSet) : Checked BitSet :=
  ofWords s.capacity (s.words.map fun _ => 0)

def update (s : BitSet) : BitSet.Update → Checked BitSet
  | .markRange first stop => markRange s first stop
  | .clearBit i => clearBit s i
  | .clear => clear s

def updateAll (s : BitSet) : List BitSet.Update → Checked BitSet
  | [] => return s
  | u :: updates => do updateAll (← update s u) updates

def contains (s : BitSet) (i : Nat) : Checked Bool := do
  if i < s.capacity then
    let word ← Checked.get s.words (i / 64)
    let mask ← shiftLeft 1 (i % 64)
    return word &&& mask != 0
  else
    return false

theorem update_eq (s : BitSet) (u : BitSet.Update) : update s u = .ok (s.update u) := by
  cases u with
  | markRange first stop => exact markRange_eq s first stop
  | clearBit i => exact clearBit_eq s i
  | clear => exact ofWords_words s.clear

theorem updateAll_eq (s : BitSet) (updates : List BitSet.Update) :
    updateAll s updates = .ok (s.updateAll updates) := by
  induction updates generalizing s with
  | nil => rfl
  | cons u updates ih =>
    rw [updateAll, update_eq, Checked.ok_bind, ih]
    rfl

theorem and_oneBit_ne_zero (word : UInt64) {i : Nat} (hi : i < 64) :
    (word &&& (1 <<< UInt64.ofNat i) != 0) = BitSet.bit word i := by
  have hbits : ∀ j < 64, BitSet.bit (word &&& (1 <<< UInt64.ofNat i)) j =
      (BitSet.bit word j && decide (j = i)) := by
    intro j hj
    rw [BitSet.bit_and _ _ hj, BitSet.bit_shiftLeft _ hi hj, BitSet.bit_one (by omega),
      ← Bool.decide_and]
    congr 1
    rw [decide_eq_decide]
    omega
  rw [Bool.eq_iff_iff, bne_iff_ne]
  constructor
  · intro hne
    obtain ⟨j, hj, hbit⟩ := BitSet.exists_bit_of_ne_zero hne
    rw [hbits j hj, Bool.and_eq_true, decide_eq_true_iff] at hbit
    exact hbit.2 ▸ hbit.1
  · intro hbit hzero
    have hmet := hbits i hi
    rw [hzero, BitSet.bit_zero, hbit] at hmet
    simp at hmet

theorem contains_eq (s : BitSet) (i : Nat) : contains s i = .ok (s.contains i) := by
  unfold contains BitSet.contains
  by_cases hi : i < s.capacity
  · have hw := BitSet.index_lt_size hi
    have hget : Checked.get s.words (i / 64) = .ok s.words[i / 64] :=
      Checked.get_eq_ok_iff.mpr (Array.getElem?_eq_getElem hw)
    have hbit : i % 64 < 64 := Nat.mod_lt i (by decide)
    rw [if_pos hi, dif_pos hi, hget, Checked.ok_bind, shiftLeft_eq _ hbit, Checked.ok_bind,
      and_oneBit_ne_zero _ hbit]
    rfl
  · rw [if_neg hi, dif_neg hi]
    rfl

end LargeNeighborhood.Strict

namespace LargeNeighborhood.BitSet

/-- The changes of a new bit set are operations on finite sets of indices: no check of theirs fails,
an index is in the bit set exactly if it is in the set that the operations make, the words stay as
many as the capacity takes, and none of them has a bit beyond it. -/
theorem updates_are_set_operations (capacity : Nat) (updates : List Update) :
    ∃ s, Strict.updateAll (empty capacity) updates = .ok s ∧
      (empty capacity).updateAll updates = s ∧
      (∀ i, Strict.contains s i = .ok (decide (i ∈ contents capacity updates))) ∧
      (∀ i, s.contains i = true ↔ i ∈ contents capacity updates) ∧
      s.capacity = capacity ∧ s.words.size = (capacity + 63) / 64 ∧
      ∀ i, capacity ≤ i → wordBit s.words i = false := by
  have hholds := holds_contents capacity updates
  refine ⟨_, Strict.updateAll_eq _ _, rfl, ?_, ?_, hholds.capacity_eq, ?_, ?_⟩
  · intro i
    rw [Strict.contains_eq, hholds.contains_eq]
  · intro i
    rw [hholds.contains_eq, decide_eq_true_iff]
  · rw [size_words, hholds.capacity_eq]
  · intro i hi
    exact hholds.tidy i (hholds.capacity_eq.trans_le hi)

/-- A range over two words, cut at the capacity, a reversed one and a bit that does not exist. -/
example : ((empty 70).updateAll
    [.markRange 60 100, .clearBit 64, .markRange 9 3, .clearBit 70]).words =
      #[0xf000000000000000, 0x3e] := by
  decide +kernel

end LargeNeighborhood.BitSet
