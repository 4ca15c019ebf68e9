import LargeNeighborhood.Proofs.Strict.ValueGroups
import Mathlib.Data.Finset.Card

/-!
# Rebuilt groupings

A rebuild empties the buckets that are listed as occupied and no others. An index lists every bucket
that holds a position, so nothing of the values grouped before is left: each rebuild gives what the
same rebuild of a new grouping gives.
-/

namespace LargeNeighborhood.ValueGroups

def rebuildAll (g : ValueGroups) (history : List (Array Int32)) : Checked ValueGroups :=
  history.foldlM rebuild g

/-- The groups of some values between a least and a greatest one. The id of a group is the distance
of its value from the least one. -/
structure IsGrouping (g : ValueGroups) (min max : Int32) (values : Array Int32) : Prop where
  rangeLength : (g.rangeLength : Int) = max.toInt - min.toInt + 1
  /-- A group lists the positions of its value in increasing order. -/
  members : ∀ id < g.rangeLength, ∃ members, g.members id = .ok members ∧
    members.toList.Pairwise (· < ·) ∧ ∀ position, position ∈ members ↔
      ∃ value, values[position]? = some value ∧ value.toInt = min.toInt + id
  /-- The occupied groups are listed by first appearance. -/
  occupied : g.occupied.toList =
    (values.toList.map fun value => (value.toInt - min.toInt).toNat).eraseDups
  usedValues : g.usedValues = values.toList.toFinset.card
  /-- The groups that have a member are listed with all their members, each of them once. -/
  mem_nonEmpty : ∀ id members, (id, members) ∈ g.nonEmpty ↔
    g.members id = .ok members ∧ members ≠ #[]
  map_fst_nonEmpty : g.nonEmpty.map Prod.fst = g.occupied.toList
  nodup_occupied : g.occupied.toList.Nodup

variable {g g' : ValueGroups} {min max : Int32} {old : List Int32} {values : Array Int32}
  {earlier : List (Array Int32)}

/-! ## Histories -/

theorem ofRange_eq_ok_iff : ofRange min max = .ok g ↔ min ≤ max ∧ g = empty min max := by
  unfold ofRange
  split
  · rename_i hle
    constructor
    · intro h
      cases h
      exact ⟨hle, rfl⟩
    · rintro ⟨_, rfl⟩
      rfl
  · rename_i hle
    constructor
    · intro h
      cases h
    · rintro ⟨h, _⟩
      exact absurd h hle

theorem SameRange.trans {g'' : ValueGroups} (h : g.SameRange g') (h' : g'.SameRange g'') :
    g.SameRange g'' :=
  ⟨h'.1.trans h.1, h'.2.trans h.2⟩

theorem SameRange.max_eq (h : g.SameRange g') : g'.max = g.max := by
  rw [ValueGroups.max, ValueGroups.max, valueAt, valueAt, h.1, h.2]

theorem Indexes.rebuildAll (h : g.Indexes old) (hrun : g.rebuildAll earlier = .ok g') :
    ∃ last, g'.Indexes last ∧ g.SameRange g' := by
  induction earlier generalizing g old with
  | nil =>
    cases hrun
    exact ⟨old, h, rfl, rfl⟩
  | cons values earlier ih =>
    rw [ValueGroups.rebuildAll, List.foldlM_cons, Checked.bind_eq_ok_iff] at hrun
    obtain ⟨next, hnext, hrest⟩ := hrun
    obtain ⟨hindexes, hrange⟩ := h.of_rebuild hnext
    obtain ⟨last, hlast, hlater⟩ := ih hindexes hrest
    exact ⟨last, hlast, hrange.trans hlater⟩

/-! ## What an index is -/

/-- From the least value on, ids do not wrap around. -/
theorem groupOf_eq_toNat {value : Int32} (h : g.min ≤ value) :
    g.groupOf value = (value.toInt - g.min.toInt).toNat := by
  have hle := Int32.le_iff_toInt_le.mp h
  have hvalue := value.toInt_lt
  have hmin := g.min.le_toInt
  rw [groupOf]
  simp only [UInt64.size]
  omega

theorem Indexes.usedValues_eq_card (h : g.Indexes old) : g.usedValues = old.toFinset.card := by
  have hinjective : Set.InjOn g.groupOf old.toFinset := by
    intro a ha b hb hab
    have hin := h.inRange a (by simpa using ha)
    have hin' := h.inRange b (by simpa using hb)
    rw [← valueAt_groupOf h.fits hin, hab, valueAt_groupOf h.fits hin']
  have hids : g.occupied.toList.toFinset = old.toFinset.image g.groupOf := by
    ext id
    rw [h.occupied_eq]
    simp
  calc g.usedValues = g.occupied.toList.length := Array.length_toList.symm
    _ = g.occupied.toList.toFinset.card := (List.toFinset_card_of_nodup h.nodup_occupied).symm
    _ = old.toFinset.card := by rw [hids, Finset.card_image_of_injOn hinjective]

theorem Indexes.mem_nonEmpty_iff (h : g.Indexes old) {id : Nat} {members : Array Nat} :
    (id, members) ∈ g.nonEmpty ↔ g.members id = .ok members ∧ members ≠ #[] := by
  have hlisted : (id, members) ∈ g.nonEmpty ↔
      id ∈ g.occupied ∧ (g.buckets[id]?).getD #[] = members := by
    simp only [nonEmpty, List.mem_map, Array.mem_toList_iff, Prod.mk.injEq]
    constructor
    · rintro ⟨_, hid, rfl, hmembers⟩
      exact ⟨hid, hmembers⟩
    · rintro ⟨hid, hmembers⟩
      exact ⟨id, hid, rfl, hmembers⟩
  have hbucket : g.members id = .ok members ↔ g.buckets[id]? = some members :=
    Checked.get_eq_ok_iff
  rw [hlisted, h.mem_occupied_iff, positions, hbucket]
  cases g.buckets[id]? with
  | none => simp
  | some bucket =>
    rw [Option.getD_some, Option.some.injEq, ne_eq, Array.toList_eq_nil_iff]
    constructor
    · rintro ⟨hne, rfl⟩
      exact ⟨rfl, hne⟩
    · rintro ⟨rfl, hne⟩
      exact ⟨hne, rfl⟩

theorem Indexes.isGrouping (h : g.Indexes values.toList) (hle : min ≤ max)
    (hrange : (empty min max).SameRange g) : g.IsGrouping min max values where
  rangeLength := by
    have hbounds := Int32.le_iff_toInt_le.mp hle
    have hsize : g.rangeLength = (max.toInt - min.toInt + 1).toNat :=
      hrange.2.trans Array.size_replicate
    omega
  members := by
    intro id hid
    obtain ⟨members, hmembers, hlist⟩ := h.exists_members hid
    refine ⟨members, hmembers, ?_, ?_⟩
    · rw [hlist]
      exact List.pairwise_lt_range.filter _
    · intro position
      have hvalue := toInt_valueAt h.fits hid
      rw [hrange.1] at hvalue
      change (g.valueAt id).toInt = min.toInt + id at hvalue
      rw [← Array.mem_toList_iff, hlist, List.mem_filter, List.mem_range, decide_eq_true_iff,
        Array.getElem?_toList]
      constructor
      · rintro ⟨_, hposition⟩
        exact ⟨_, hposition, hvalue⟩
      · rintro ⟨value, hposition, htoInt⟩
        obtain rfl : value = g.valueAt id := Int32.toInt_inj.mp (htoInt.trans hvalue.symm)
        exact ⟨(Array.getElem?_eq_some_iff.mp hposition).1, hposition⟩
  occupied := by
    have hmap : ∀ value ∈ values.toList,
        g.groupOf value = (value.toInt - min.toInt).toNat := by
      intro value hvalue
      have hin := (groupOf_lt_iff h.fits value).mp (h.inRange value hvalue)
      rw [groupOf_eq_toNat hin.1, hrange.1]
      rfl
    rw [h.occupied_eq, List.map_congr_left hmap]
  usedValues := h.usedValues_eq_card
  mem_nonEmpty := fun _ _ => h.mem_nonEmpty_iff
  map_fst_nonEmpty := by
    rw [nonEmpty, List.map_map]
    exact List.map_id _
  nodup_occupied := h.nodup_occupied

/-! ## Rebuilds -/

theorem Indexes.rebuild_eq_error_iff (h : g.Indexes old) :
    (∃ fault, g.rebuild values = .error fault) ↔
      ∃ value ∈ values, value < g.min ∨ g.max < value := by
  have hvalues : (∀ value ∈ values, g.groupOf value < g.buckets.size) ↔
      ¬ ∃ value ∈ values, value < g.min ∨ g.max < value := by
    simp only [groupOf_lt_iff h.fits, not_exists, not_and, not_or, Int32.not_lt]
  by_cases hin : ∀ value ∈ values, g.groupOf value < g.buckets.size
  · obtain ⟨g', hrun, _⟩ := h.rebuild values hin
    constructor
    · rintro ⟨fault, hfault⟩
      rw [hrun] at hfault
      cases hfault
    · exact fun hout => absurd hout (hvalues.mp hin)
  · exact iff_of_true ⟨_, h.rebuild_eq_error values hin⟩
      (not_not.mp fun hout => hin (hvalues.mpr hout))

/-- The rebuilds before it leave no trace in a rebuild. It faults exactly if some value lies outside
the range, at no other check, and otherwise gives the grouping of its values that a new one of the
same range would. -/
theorem rebuild_forgets (hpast : (ofRange min max >>= fun new => new.rebuildAll earlier) = .ok g)
    (values : Array Int32) :
    Strict.rebuild g values = g.rebuild values ∧
    ((∃ fault, g.rebuild values = .error fault) ↔ ∃ value ∈ values, value < min ∨ max < value) ∧
    ∀ g', g.rebuild values = .ok g' →
      (ofRange min max >>= fun new => new.rebuild values) = .ok g' ∧
        g'.IsGrouping min max values := by
  obtain ⟨new, hnew, hearlier⟩ := Checked.bind_eq_ok_iff.mp hpast
  obtain ⟨hle, rfl⟩ := ofRange_eq_ok_iff.mp hnew
  have hempty := indexes_empty hle
  obtain ⟨last, hlast, hrange⟩ := hempty.rebuildAll hearlier
  have hmin : g.min = min := hrange.1
  have hmax : g.max = max := hrange.max_eq.trans (max_empty hle)
  refine ⟨Strict.rebuild_eq hlast values, ?_, ?_⟩
  · rw [hlast.rebuild_eq_error_iff, hmin, hmax]
  · intro g' hrun
    obtain ⟨hindexes, hkept⟩ := hlast.of_rebuild hrun
    have hin : ∀ value ∈ values, (empty min max).groupOf value < (empty min max).buckets.size := by
      intro value hvalue
      have hgroup := hindexes.inRange value (Array.mem_toList_iff.mpr hvalue)
      rwa [(hrange.trans hkept).groupOf_eq, (hrange.trans hkept).2] at hgroup
    obtain ⟨fresh, hfresh, hindexes', hrange'⟩ := hempty.rebuild values hin
    -- two indexes of one list of values over one range are equal
    have hsame : fresh.SameRange g' :=
      ⟨(hrange.trans hkept).1.trans hrange'.1.symm, (hrange.trans hkept).2.trans hrange'.2.symm⟩
    obtain rfl : g' = fresh := hindexes'.unique hindexes hsame
    exact ⟨Checked.bind_eq_ok_iff.mpr ⟨_, hnew, hfresh⟩, hindexes.isGrouping hle hrange'⟩

theorem rebuild_forgets_shifted :
    ∃ g g', (ofRange (-2) 3 >>= fun new =>
        new.rebuildAll [#[3, -2, 3], #[], #[0, 1, 0]]) = .ok g ∧
      g.occupied = #[2, 3] ∧ g.rebuild #[1, -2, 1, 3] = .ok g' ∧
      (ofRange (-2) 3 >>= fun new => new.rebuild #[1, -2, 1, 3]) = .ok g' ∧
      g'.IsGrouping (-2) 3 #[1, -2, 1, 3] ∧ g'.occupied = #[3, 0, 5] ∧
      ∃ fault, g.rebuild #[1, 4] = .error fault := by
  have hreplay : (ofRange (-2) 3 >>= fun new =>
      new.rebuildAll [#[3, -2, 3], #[], #[0, 1, 0]]).map
        (fun g => (g.occupied, (g.rebuild #[1, -2, 1, 3]).map ValueGroups.occupied)) =
          .ok (#[2, 3], .ok #[3, 0, 5]) := by
    decide +kernel
  obtain ⟨g, hpast, hseen⟩ := Checked.map_eq_ok_iff.mp hreplay
  obtain ⟨hoccupied, hnext⟩ := Prod.mk.inj hseen
  obtain ⟨g', hrun, hoccupied'⟩ := Checked.map_eq_ok_iff.mp hnext
  obtain ⟨_, _, hgrouping⟩ := rebuild_forgets hpast #[1, -2, 1, 3]
  obtain ⟨hfresh, hg'⟩ := hgrouping g' hrun
  obtain ⟨_, hfaults, _⟩ := rebuild_forgets hpast #[1, 4]
  exact ⟨g, g', hpast, hoccupied, hrun, hfresh, hg', hoccupied',
    hfaults.mpr ⟨4, by simp, .inr (by decide)⟩⟩

end LargeNeighborhood.ValueGroups
