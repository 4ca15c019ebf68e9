import LargeNeighborhood.Proofs.Strict.Update

/-!
# Strict scans and counts

Every scan and every count of a bit set that came about by changes of a new one, with its checks.
None of them fails up to the greatest capacity that is a 64-bit integer, and each answers for the
elements of the set: also the iteration that scans on from every element it finds.
-/

namespace LargeNeighborhood.Strict

/-- The iteration over a bit set has come to an end: what was found first, and after it, element by
element, what a scan from the next index finds. -/
inductive Iterates (s : BitSet) : (found : Option Nat) → List Nat → Prop
  | ended : Iterates s none []
  | went {i : Nat} {found : Option Nat} {rest : List Nat}
      (hscan : (Checked.word (i + 1) >>= nextSetBit s) = .ok found)
      (hrest : Iterates s found rest) :
      Iterates s (some i) (i :: rest)

structure TellsContents (s : BitSet) : Prop where
  scan_checked : ∀ first, nextSetBit s first = .ok (s.nextSetBit first)
  least : ∀ first i,
    s.nextSetBit first = some i ↔ IsLeast {j | first ≤ j ∧ s.contains j = true} i
  exhausted : ∀ first, s.nextSetBit first = none ↔ ∀ j, first ≤ j → s.contains j = false
  iterates : ∃ found, nextSetBit s 0 = .ok found ∧ Iterates s found s.ones
  pairwise_ones : s.ones.Pairwise (· < ·)
  mem_ones : ∀ i, i ∈ s.ones ↔ s.contains i = true
  count_checked : cardinality s = .ok s.cardinality
  count : s.cardinality = s.ones.length
  isEmpty_iff : s.isEmpty = true ↔ ∀ i, s.contains i = false

variable {s : BitSet}

theorem iterates_onesFrom (hcapacity : s.capacity < UInt64.size) {count first : Nat}
    (hcount : s.capacity ≤ first + count) :
    Iterates s (s.nextSetBit first) (s.onesFrom count first) := by
  induction count generalizing first with
  | zero =>
    have hnone : s.nextSetBit first = none := dif_neg (by omega)
    rw [hnone]
    exact .ended
  | succ count ih =>
    rw [BitSet.onesFrom]
    cases hfound : s.nextSetBit first with
    | none => exact .ended
    | some i =>
      -- what is found lies below the capacity, so there is an index after it
      obtain ⟨hle, hlt⟩ := BitSet.bounds_of_nextSetBit hfound
      have hrest : Iterates s (s.nextSetBit (i + 1)) (s.onesFrom count (i + 1)) := ih (by omega)
      refine .went ?_ hrest
      rw [word_eq (by omega), Checked.ok_bind, nextSetBit_eq (by omega)]

theorem tellsContents (hcapacity : s.capacity < UInt64.size) (htidy : s.Tidy) :
    TellsContents s where
  scan_checked first := nextSetBit_eq (Nat.le_of_lt hcapacity) first
  least first := BitSet.findsFrom_iff_isLeast.mp (s.findsFrom_nextSetBit first)
  exhausted first := (s.findsFrom_nextSetBit first).eq_none_iff
  iterates :=
    ⟨_, nextSetBit_eq (Nat.le_of_lt hcapacity) 0, iterates_onesFrom hcapacity (Nat.le_add_left _ _)⟩
  pairwise_ones := s.ones_eq_elements ▸ s.pairwise_elements
  mem_ones i := by rw [s.ones_eq_elements, BitSet.mem_elements]
  count_checked := cardinality_eq (Nat.lt_of_le_of_lt htidy.cardinality_le hcapacity)
  count := by rw [htidy.cardinality_eq, s.ones_eq_elements]
  isEmpty_iff := htidy.isEmpty_iff

/-- Whatever changes a new bit set goes through, its scans and counts tell which indices it
contains, with no failed check and no end of the iteration missing. -/
theorem scans_and_counts_tell_contents {capacity : Nat} (hcapacity : capacity < UInt64.size)
    (updates : List BitSet.Update) :
    TellsContents ((BitSet.empty capacity).updateAll updates) := by
  have hholds := BitSet.holds_contents capacity updates
  exact tellsContents (hholds.capacity_eq.trans_lt hcapacity) hholds.tidy

theorem scans_and_counts_tell_contents_acrossWords :
    150 < UInt64.size ∧
    TellsContents ((BitSet.empty 150).updateAll
      [.markRange 0 3, .clearBit 1, .markRange 140 1000, .markRange 9 8]) ∧
    ((BitSet.empty 150).updateAll
      [.markRange 0 3, .clearBit 1, .markRange 140 1000, .markRange 9 8]).ones =
        [0, 2, 140, 141, 142, 143, 144, 145, 146, 147, 148, 149] :=
  ⟨by decide, scans_and_counts_tell_contents (by decide) _, by decide +kernel⟩

end LargeNeighborhood.Strict
