import LargeNeighborhood.Proofs.BitSet.Update

/-!
# Equal bit sets

No change leaves a bit beyond the capacity, so a capacity and a finite set of indices have one bit
set. Two bit sets are equal, word by word, exactly if they have the same capacity and the same
elements, and one from which all elements have been cleared is the new one again.
-/

namespace LargeNeighborhood.BitSet

variable {s t : BitSet} {capacity i : Nat} {members members' : Finset Nat}

theorem Holds.eq_iff (h : s.Holds capacity members) (h' : t.Holds capacity members') :
    s = t ↔ members = members' := by
  constructor
  · rintro rfl
    ext i
    rw [← decide_eq_decide, ← h.contains_eq, h'.contains_eq]
  · rintro rfl
    apply h.tidy.ext h'.tidy (h.capacity_eq.trans h'.capacity_eq.symm)
    intro i _
    rw [h.contains_eq, h'.contains_eq]

theorem Holds.eq_iff_contains_eq (h : s.Holds capacity members) (h' : t.Holds capacity members') :
    s = t ↔ ∀ i < capacity, s.contains i = t.contains i := by
  constructor
  · rintro rfl i _
    rfl
  · intro hall
    apply h.tidy.ext h'.tidy (h.capacity_eq.trans h'.capacity_eq.symm)
    rwa [h.capacity_eq]

/-! ## Marking and clearing again -/

def marks (ranges : List (Nat × Nat)) : List Update :=
  ranges.map fun range => .markRange range.1 range.2

def clears (bits : List Nat) : List Update :=
  bits.map .clearBit

theorem mem_foldl_marks (ranges : List (Nat × Nat)) :
    i ∈ (marks ranges).foldl (Update.onMembers capacity) members ↔
      i ∈ members ∨ i < capacity ∧ ∃ range ∈ ranges, range.1 ≤ i ∧ i < range.2 := by
  induction ranges generalizing members with
  | nil => simp [marks]
  | cons range ranges ih =>
    have hmarked : i ∈ Update.onMembers capacity members (.markRange range.1 range.2) ↔
        i ∈ members ∨ i < capacity ∧ range.1 ≤ i ∧ i < range.2 := by
      rw [Update.onMembers, Finset.mem_union, Finset.mem_Ico, Nat.lt_min]
      tauto
    rw [marks, List.map_cons, List.foldl_cons, ← marks, ih, hmarked, List.exists_mem_cons_iff]
    tauto

theorem mem_foldl_clears (bits : List Nat) :
    i ∈ (clears bits).foldl (Update.onMembers capacity) members ↔
      i ∈ members ∧ i ∉ bits := by
  induction bits generalizing members with
  | nil => simp [clears]
  | cons bit bits ih =>
    have hcleared : i ∈ Update.onMembers capacity members (.clearBit bit) ↔
        i ∈ members ∧ i ≠ bit := by
      rw [Update.onMembers, Finset.mem_erase, and_comm]
    rw [clears, List.map_cons, List.foldl_cons, ← clears, ih, hcleared, List.mem_cons, not_or,
      and_assoc]

theorem contents_marks_clears {ranges : List (Nat × Nat)} {bits : List Nat}
    (hbits : ∀ range ∈ ranges, ∀ i < capacity, range.1 ≤ i → i < range.2 → i ∈ bits) :
    contents capacity (marks ranges ++ clears bits) = ∅ := by
  apply Finset.eq_empty_of_forall_notMem
  intro i hi
  rw [contents, List.foldl_append, mem_foldl_clears, mem_foldl_marks] at hi
  obtain ⟨hmarked | ⟨hcapacity, range, hrange, hfirst, hstop⟩, hkept⟩ := hi
  · exact Finset.notMem_empty i hmarked
  · exact hkept (hbits range hrange i hcapacity hfirst hstop)

/-- However two bit sets of one capacity came about, they are equal exactly if they contain the same
indices below it. Bit sets of different capacities never are. Marking some ranges and clearing each
of their indices, in any order, gives the new bit set back. -/
theorem equality_is_set_equality (capacity : Nat) (updates updates' : List Update) :
    ((empty capacity).updateAll updates = (empty capacity).updateAll updates' ↔
      ∀ i < capacity, ((empty capacity).updateAll updates).contains i =
        ((empty capacity).updateAll updates').contains i) ∧
    ((empty capacity).updateAll updates = (empty capacity).updateAll updates' ↔
      contents capacity updates = contents capacity updates') ∧
    (∀ capacity' ≠ capacity,
      (empty capacity).updateAll updates ≠ (empty capacity').updateAll updates') ∧
    ∀ (ranges : List (Nat × Nat)) (bits : List Nat),
      (∀ range ∈ ranges, ∀ i < capacity, range.1 ≤ i → i < range.2 → i ∈ bits) →
        (empty capacity).updateAll (marks ranges ++ clears bits) = empty capacity := by
  have hholds := holds_contents capacity updates
  refine ⟨hholds.eq_iff_contains_eq (holds_contents capacity updates'),
    hholds.eq_iff (holds_contents capacity updates'), ?_, ?_⟩
  · intro capacity' hne heq
    have hcapacity' := (holds_contents capacity' updates').capacity_eq
    rw [← heq, hholds.capacity_eq] at hcapacity'
    exact hne hcapacity'.symm
  · intro ranges bits hbits
    apply ((holds_contents capacity _).eq_iff (holds_empty capacity)).mpr
    exact contents_marks_clears hbits

/-- Two ways to the same elements in two words, the last of which the capacity cuts, and the
occupied indices of a cycle marked one by one and cleared in another order. -/
theorem equality_is_set_equality_twoWords :
    (empty 70).updateAll [.markRange 60 100, .clearBit 64] =
      (empty 70).updateAll [.markRange 0 70, .clear, .markRange 65 70, .markRange 60 64] ∧
    (empty 70).updateAll (marks [(3, 4), (69, 70), (64, 65)] ++ clears [64, 3, 69]) = empty 70 := by
  obtain ⟨_, hequal, _, hrestored⟩ := equality_is_set_equality 70
    [.markRange 60 100, .clearBit 64]
    [.markRange 0 70, .clear, .markRange 65 70, .markRange 60 64]
  refine ⟨hequal.mpr (by decide), hrestored _ _ ?_⟩
  intro range hrange i _ hfirst hstop
  simp only [List.mem_cons, List.not_mem_nil, or_false] at hrange ⊢
  rcases hrange with rfl | rfl | rfl <;> dsimp only at hfirst hstop <;> omega

end LargeNeighborhood.BitSet
