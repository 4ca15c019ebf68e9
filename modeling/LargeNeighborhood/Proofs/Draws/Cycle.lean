import LargeNeighborhood.Proofs.Draws.Sampling
import LargeNeighborhood.Proofs.Policy.Freezing
import LargeNeighborhood.Proofs.ValueGroups.Index

/-!
# Draws and callbacks of a cycle

The groups a cycle draws depend on the fragment and the randomness alone, not on its callbacks: a
cycle samples an order of the groups and freezes group after group in that order. A contradiction
only cuts it short.
-/

namespace LargeNeighborhood

theorem BitSet.elements_clearBit (s : BitSet) {rank id : Nat} (hid : s.elements[rank]? = some id) :
    (s.clearBit id).elements = s.elements.eraseIdx rank := by
  have hnodup : s.elements.Nodup := s.pairwise_elements.imp (by omega)
  have herase : s.elements.erase id = s.elements.eraseIdx rank := by
    obtain ⟨hrank, rfl⟩ := List.getElem?_eq_some_iff.mp hid
    exact hnodup.erase_getElem rank hrank
  rw [← herase, hnodup.erase_eq_filter, elements, elements, capacity_clearBit, List.filter_filter]
  apply List.filter_congr
  intro i _
  rw [contains_clearBit, Bool.and_comm]
  congr 1
  by_cases hi : i = id <;> simp [hi]

theorem select_of_elements_eq_nil [RandomSource ρ] {fragment : BitSet} (htidy : fragment.Tidy)
    (hnil : fragment.elements = []) (source : ρ) : select fragment source = .ok (none, source) := by
  have hcardinality : FragmentSet.cardinality fragment = 0 := by
    rw [show FragmentSet.cardinality fragment = fragment.cardinality from rfl,
      htidy.cardinality_eq, hnil, List.length_nil]
  rw [select, if_pos hcardinality]
  rfl

theorem select_of_elements_ne_nil [RandomSource ρ] {fragment : BitSet} (htidy : fragment.Tidy)
    (hcapacity : fragment.capacity < UInt64.size) (hne : fragment.elements ≠ []) (source : ρ) :
    select fragment source =
      .ok (fragment.elements[(RandomSource.below fragment.elements.length source).1]?,
        (RandomSource.below fragment.elements.length source).2) := by
  have hcardinality : FragmentSet.cardinality fragment = fragment.elements.length :=
    htidy.cardinality_eq
  have hbound : ∀ id ∈ fragment.elements, id + 1 < UInt64.size := by
    intro id hid
    have hlt := BitSet.lt_capacity_of_contains (BitSet.mem_elements.mp hid)
    omega
  rw [select_eq (scans_elements fragment) fragment.pairwise_elements hbound, hcardinality,
    if_neg (by simpa using hne)]

def ValueGroups.drawEvent (g : ValueGroups) (id : Nat) : Event :=
  .draw (g.valueAt id) (g.positions id).length

theorem ValueGroups.drawEvent_eq {g : ValueGroups} {id : Nat} (hlt : id < g.buckets.size) :
    g.drawEvent id = .draw (g.valueAt id) g.buckets[id].size := by
  rw [drawEvent, positions_eq_toList hlt, Array.length_toList]

/-- The draws and the callbacks of a cycle come apart: the order of the groups is sampled from the
fragment, then the groups are frozen in that order as far as the callback lets them. -/
theorem drawGroups_eq [RandomSource ρ] {groups : ValueGroups} (hfits : groups.Fits)
    (freeze : Freeze σ) (target : Nat) {fragment : BitSet} (htidy : fragment.Tidy)
    (hcapacity : fragment.capacity = groups.buckets.size) (source : ρ) (state : σ) :
    drawGroups groups freeze target fragment source state = (do
      let order := (drawFrom (min target fragment.elements.length) fragment.elements source).1
      let progress ← freezeGroups groups.positions freeze order state
      return {
        fragment := (order.take progress.closed).foldl BitSet.clearBit fragment
        source := (drawFrom progress.opened fragment.elements source).2
        state := progress.state
        result := progress.frozen.map (⟨order.map groups.valueAt, ·⟩)
        events := (order.take progress.opened).map groups.drawEvent }) := by
  induction target generalizing fragment source state with
  | zero =>
    rw [Nat.zero_min]
    rfl
  | succ target ih =>
    by_cases hnil : fragment.elements = []
    · rw [drawGroups, select_of_elements_eq_nil htidy hnil, hnil]
      rfl
    · obtain ⟨rank, id, hrank, hid, hdraw⟩ := exists_drawFrom_succ hnil source
      have hmem : id ∈ fragment.elements := List.mem_of_getElem? hid
      have hlt : id < groups.buckets.size :=
        hcapacity ▸ BitSet.lt_capacity_of_contains (BitSet.mem_elements.mp hmem)
      have hpositions := ValueGroups.positions_eq_toList hlt
      have hrest := fragment.elements_clearBit hid
      have hlength : fragment.elements.length = (fragment.elements.eraseIdx rank).length + 1 := by
        rw [List.length_eraseIdx_of_lt (List.getElem?_eq_some_iff.mp hid).1]
        have hpos := List.length_pos_of_ne_nil hnil
        omega
      have hsmall : fragment.capacity < UInt64.size := by
        have hsize := hfits.size_le
        simp only [UInt32.size] at hsize
        simp only [UInt64.size]
        omega
      have hmin : min (target + 1) fragment.elements.length =
          min target (fragment.elements.eraseIdx rank).length + 1 := by
        omega
      have hevent := ValueGroups.drawEvent_eq hlt
      rw [drawGroups, select_of_elements_ne_nil htidy hsmall hnil, hrank, hid, hmin, hdraw]
      simp only [bind, Except.bind, freezeGroups, ValueGroups.valueOf_eq hfits hlt,
        ValueGroups.members_eq hlt, hpositions]
      cases freezeMembers freeze groups.buckets[id].toList state with
      | error fault => rfl
      | ok reply =>
        obtain ⟨result, next⟩ := reply
        cases result with
        | error c =>
          -- the group whose member is refused stays in the fragment, though it was drawn
          simp [pure, Except.pure, Progress.opened, Except.map, hdraw, hevent, drawFrom]
        | ok frozen =>
          have hstep := ih (htidy.clearBit id) ((fragment.capacity_clearBit id).trans hcapacity)
            (RandomSource.below fragment.elements.length source).2 next
          simp only [hrest] at hstep
          simp only [hstep]
          generalize horder : (drawFrom (min target (fragment.elements.eraseIdx rank).length)
            (fragment.elements.eraseIdx rank)
            (RandomSource.below fragment.elements.length source).2).1 = order
          cases freezeGroups groups.positions freeze order next with
          | error fault => rfl
          | ok rest =>
            obtain ⟨closed, later, last⟩ := rest
            cases later <;>
              simp [bind, Except.bind, pure, Except.pure, Progress.opened, Except.map, hdraw,
                hevent, Outcome.cons]

end LargeNeighborhood
