import LargeNeighborhood.Proofs.ValueGroups.Ids
import Mathlib.Data.List.Induction
import Mathlib.Data.List.Nodup

/-!
# Groupings as an index

A grouping indexes a list of values if every bucket holds the increasing positions of its value and
the occupied buckets are listed by first appearance. A rebuild yields the index of its values after
any history, because an index says that the buckets it does not list are empty.
-/

namespace LargeNeighborhood

theorem eraseDups_append_singleton [DecidableEq α] (xs : List α) (x : α) :
    (xs ++ [x]).eraseDups = if x ∈ xs then xs.eraseDups else xs.eraseDups ++ [x] := by
  rw [List.eraseDups_append]
  by_cases hx : x ∈ xs
  · simp [List.removeAll, hx]
  · simp [List.removeAll, hx, List.eraseDups_cons]

theorem nodup_eraseDups [DecidableEq α] (xs : List α) : xs.eraseDups.Nodup := by
  induction xs using List.reverseRecOn with
  | nil => simp
  | append_singleton xs x ih =>
    rw [eraseDups_append_singleton]
    split
    · exact ih
    · rename_i hx
      rw [List.nodup_append]
      refine ⟨ih, by simp, ?_⟩
      intro a ha b hb hab
      rw [List.mem_eraseDups] at ha
      simp at hb
      subst hb
      subst hab
      exact hx ha

namespace ValueGroups

def positions (g : ValueGroups) (id : Nat) : List Nat :=
  (g.buckets[id]?.getD #[]).toList

theorem members_eq {g : ValueGroups} {id : Nat} (hid : id < g.buckets.size) :
    g.members id = .ok g.buckets[id] := by
  rw [members, Checked.get, Array.getElem?_eq_getElem hid]

theorem positions_eq_toList {g : ValueGroups} {id : Nat} (hid : id < g.buckets.size) :
    g.positions id = g.buckets[id].toList := by
  rw [positions, Array.getElem?_eq_getElem hid, Option.getD_some]

def positionsIn (g : ValueGroups) (values : List Int32) (id : Nat) : List Nat :=
  (List.range values.length).filter fun position =>
    (values[position]?).any fun value => decide (g.groupOf value = id)

/-- The grouping is that of a list of values. -/
structure Indexes (g : ValueGroups) (values : List Int32) : Prop where
  fits : g.Fits
  inRange : ∀ value ∈ values, g.groupOf value < g.buckets.size
  positions_eq : ∀ id, g.positions id = g.positionsIn values id
  occupied_eq : g.occupied.toList = (values.map g.groupOf).eraseDups

theorem positionsIn_append_singleton (g : ValueGroups) (values : List Int32) (value : Int32)
    (id : Nat) : g.positionsIn (values ++ [value]) id =
      g.positionsIn values id ++ if g.groupOf value = id then [values.length] else [] := by
  unfold positionsIn
  rw [List.length_append, List.length_singleton, List.range_succ, List.filter_append]
  congr 1
  · apply List.filter_congr
    intro position hposition
    rw [List.mem_range] at hposition
    rw [List.getElem?_append_left hposition]
  · by_cases hvalue : g.groupOf value = id <;> simp [hvalue]

theorem mem_positionsIn {g : ValueGroups} {values : List Int32} {id position : Nat} :
    position ∈ g.positionsIn values id ↔
      ∃ value, values[position]? = some value ∧ g.groupOf value = id := by
  unfold positionsIn
  rw [List.mem_filter, List.mem_range, Option.any_eq_true]
  constructor
  · rintro ⟨_, value, hvalue, hid⟩
    exact ⟨value, hvalue, by simpa using hid⟩
  · rintro ⟨value, hvalue, hid⟩
    exact ⟨(List.getElem?_eq_some_iff.mp hvalue).1, value, hvalue, by simpa using hid⟩

theorem positionsIn_eq_nil_iff {g : ValueGroups} {values : List Int32} {id : Nat} :
    g.positionsIn values id = [] ↔ id ∉ values.map g.groupOf := by
  rw [List.eq_nil_iff_forall_not_mem, List.mem_map]
  constructor
  · rintro h ⟨value, hvalue, hid⟩
    obtain ⟨position, hposition⟩ := List.mem_iff_getElem?.mp hvalue
    exact h position (mem_positionsIn.mpr ⟨value, hposition, hid⟩)
  · rintro h position hposition
    obtain ⟨value, hvalue, hid⟩ := mem_positionsIn.mp hposition
    exact h ⟨value, List.mem_of_getElem? hvalue, hid⟩

theorem pairwise_positionsIn (g : ValueGroups) (values : List Int32) (id : Nat) :
    (g.positionsIn values id).Pairwise (· < ·) :=
  List.pairwise_lt_range.filter _

/-! ## Emptying -/

theorem foldl_emptied (ids : List Nat) (buckets : Array (Array Nat)) (id : Nat) :
    (ids.foldl (fun buckets id => buckets.modify id fun _ => #[]) buckets)[id]? =
      if id ∈ ids then buckets[id]?.map (fun _ => #[]) else buckets[id]? := by
  induction ids generalizing buckets with
  | nil => simp
  | cons first ids ih =>
    rw [List.foldl_cons, ih, Array.getElem?_modify]
    by_cases hfirst : first = id
    · subst first
      cases buckets[id]? <;> simp
    · simp [hfirst, Ne.symm hfirst]

/-- Emptying the occupied buckets of a grouping empties all buckets. -/
theorem Indexes.cleared_eq {g : ValueGroups} {values : List Int32} (h : g.Indexes values) :
    g.cleared = { g with buckets := Array.replicate g.buckets.size #[], occupied := #[] } := by
  have hbuckets : g.occupied.foldl (fun buckets id => buckets.modify id fun _ => #[]) g.buckets =
      Array.replicate g.buckets.size #[] := by
    apply Array.ext_getElem?
    intro id
    rw [← Array.foldl_toList, foldl_emptied, Array.getElem?_replicate]
    by_cases hid : id < g.buckets.size
    · rw [Array.getElem?_eq_getElem hid, if_pos hid]
      split
      · rfl
      · rename_i hfree
        have hnil := h.positions_eq id
        rw [positionsIn_eq_nil_iff.mpr (by rwa [h.occupied_eq, List.mem_eraseDups] at hfree),
          positions, Array.getElem?_eq_getElem hid] at hnil
        simpa using hnil
    · rw [Array.getElem?_eq_none (by omega), if_neg hid]
      simp
  rw [cleared, hbuckets]

/-! ## Insertion -/

theorem insert_eq_error {g : ValueGroups} {position : Nat} {value : Int32}
    (h : ¬ g.groupOf value < g.buckets.size) :
    g.insert position value = .error .valueOutOfRange := by
  have hbucket : g.buckets[g.groupOf value]? = none := Array.getElem?_eq_none (by omega)
  simp only [insert, hbucket]
  rfl

/-- The grouping after a position was added to the bucket of a value in the range. -/
def inserted (g : ValueGroups) (position : Nat) (value : Int32) : ValueGroups where
  min := g.min
  buckets := g.buckets.modify (g.groupOf value) fun bucket => bucket.push position
  occupied :=
    if g.positions (g.groupOf value) = [] then g.occupied.push (g.groupOf value) else g.occupied

theorem insert_eq_inserted {g : ValueGroups} {position : Nat} {value : Int32}
    (h : g.groupOf value < g.buckets.size) :
    g.insert position value = .ok (g.inserted position value) := by
  have hbucket := Array.getElem?_eq_getElem h
  simp only [insert, inserted, positions, hbucket]
  simp
  rfl

theorem positions_inserted {g : ValueGroups} {position : Nat} {value : Int32}
    (h : g.groupOf value < g.buckets.size) (id : Nat) :
    (g.inserted position value).positions id =
      g.positions id ++ if g.groupOf value = id then [position] else [] := by
  unfold positions inserted
  rw [Array.getElem?_modify]
  by_cases hid : g.groupOf value = id
  · rw [if_pos hid, if_pos hid, Array.getElem?_eq_getElem (hid ▸ h)]
    simp
  · rw [if_neg hid, if_neg hid, List.append_nil]

theorem Indexes.inserted {g : ValueGroups} {values : List Int32} {value : Int32}
    (h : g.Indexes values) (hvalue : g.groupOf value < g.buckets.size) :
    (g.inserted values.length value).Indexes (values ++ [value]) := by
  have hgroup : (g.inserted values.length value).groupOf = g.groupOf := rfl
  have hsize : (g.inserted values.length value).buckets.size = g.buckets.size :=
    Array.size_modify
  constructor
  · exact ⟨hsize ▸ h.fits.nonempty, hsize ▸ h.fits.bounded⟩
  · intro other hother
    rw [hgroup, hsize]
    rcases List.mem_append.mp hother with hold | hnew
    · exact h.inRange other hold
    · rw [List.mem_singleton] at hnew
      exact hnew ▸ hvalue
  · intro id
    have hin : (g.inserted values.length value).positionsIn = g.positionsIn := rfl
    rw [positions_inserted hvalue, h.positions_eq, hin, positionsIn_append_singleton]
  · have hfree : g.positions (g.groupOf value) = [] ↔ g.groupOf value ∉ values.map g.groupOf := by
      rw [h.positions_eq, positionsIn_eq_nil_iff]
    rw [hgroup, List.map_append, List.map_singleton, eraseDups_append_singleton, ← h.occupied_eq,
      ValueGroups.inserted]
    by_cases hused : g.groupOf value ∈ values.map g.groupOf
    · rw [if_pos hused, if_neg fun hnil => hfree.mp hnil hused]
    · rw [if_neg hused, if_pos (hfree.mpr hused), Array.toList_push]

/-- A grouping over the same range. -/
def SameRange (g g' : ValueGroups) : Prop :=
  g'.min = g.min ∧ g'.buckets.size = g.buckets.size

theorem SameRange.groupOf_eq {g g' : ValueGroups} (h : g.SameRange g') :
    g'.groupOf = g.groupOf := by
  funext value
  rw [groupOf, groupOf, h.1]

theorem sameRange_inserted (g : ValueGroups) (position : Nat) (value : Int32) :
    g.SameRange (g.inserted position value) :=
  ⟨rfl, Array.size_modify⟩

theorem Indexes.insertAll {g : ValueGroups} {done : List Int32} (h : g.Indexes done)
    (values : List Int32) (hvalues : ∀ value ∈ values, g.groupOf value < g.buckets.size) :
    ∃ g', g.insertAll done.length values = .ok g' ∧ g'.Indexes (done ++ values) ∧
      g.SameRange g' := by
  induction values generalizing g done with
  | nil => exact ⟨g, rfl, by rwa [List.append_nil], rfl, rfl⟩
  | cons value values ih =>
    have hvalue := hvalues value List.mem_cons_self
    have hrange := g.sameRange_inserted done.length value
    have hrest : ∀ other ∈ values, (g.inserted done.length value).groupOf other <
        (g.inserted done.length value).buckets.size := by
      intro other hother
      rw [hrange.groupOf_eq, hrange.2]
      exact hvalues other (List.mem_cons_of_mem _ hother)
    obtain ⟨g', hrun, hindexes, hmin, hsize⟩ := ih (h.inserted hvalue) hrest
    refine ⟨g', ?_, ?_, hmin.trans hrange.1, hsize.trans hrange.2⟩
    · rw [ValueGroups.insertAll, insert_eq_inserted hvalue]
      rw [List.length_append, List.length_singleton] at hrun
      exact hrun
    · rwa [List.append_assoc, List.singleton_append] at hindexes

theorem insertAll_eq_error {g : ValueGroups} {values : List Int32} (position : Nat)
    (hvalues : ¬ ∀ value ∈ values, g.groupOf value < g.buckets.size) :
    g.insertAll position values = .error .valueOutOfRange := by
  induction values generalizing g position with
  | nil => exact absurd (by simp) hvalues
  | cons value values ih =>
    rw [insertAll]
    by_cases hvalue : g.groupOf value < g.buckets.size
    · have hrange := g.sameRange_inserted position value
      rw [insert_eq_inserted hvalue]
      apply ih
      rw [hrange.groupOf_eq, hrange.2]
      intro hrest
      exact hvalues fun other hother =>
        (List.mem_cons.mp hother).elim (fun heq => heq ▸ hvalue) (hrest other)
    · rw [insert_eq_error hvalue]
      rfl

/-! ## Rebuilding -/

theorem indexes_empty {min max : Int32} (h : min ≤ max) : (empty min max).Indexes [] := by
  refine ⟨fits_empty h, by simp, ?_, rfl⟩
  intro id
  unfold positions positionsIn empty
  rw [Array.getElem?_replicate]
  split <;> rfl

theorem Indexes.cleared {g : ValueGroups} {values : List Int32} (h : g.Indexes values) :
    g.cleared.Indexes [] ∧ g.SameRange g.cleared := by
  rw [h.cleared_eq]
  refine ⟨⟨?_, by simp, ?_, rfl⟩, rfl, Array.size_replicate⟩
  · exact ⟨by simpa using h.fits.nonempty, by simpa using h.fits.bounded⟩
  · intro id
    unfold positions positionsIn
    rw [Array.getElem?_replicate]
    split <;> rfl

/-- Values in the range are grouped, whatever was grouped before. -/
theorem Indexes.rebuild {g : ValueGroups} {old : List Int32} (h : g.Indexes old)
    (values : Array Int32) (hvalues : ∀ value ∈ values, g.groupOf value < g.buckets.size) :
    ∃ g', g.rebuild values = .ok g' ∧ g'.Indexes values.toList ∧ g.SameRange g' := by
  obtain ⟨hcleared, hrange⟩ := h.cleared
  have hall : ∀ value ∈ values.toList, g.cleared.groupOf value < g.cleared.buckets.size := by
    intro value hvalue
    rw [hrange.groupOf_eq, hrange.2]
    exact hvalues value (by simpa using hvalue)
  obtain ⟨g', hrun, hindexes, hmin, hsize⟩ := hcleared.insertAll values.toList hall
  exact ⟨g', hrun, hindexes, hmin.trans hrange.1, hsize.trans hrange.2⟩

theorem Indexes.rebuild_eq_error {g : ValueGroups} {old : List Int32} (h : g.Indexes old)
    (values : Array Int32) (hvalues : ¬ ∀ value ∈ values, g.groupOf value < g.buckets.size) :
    g.rebuild values = .error .valueOutOfRange := by
  obtain ⟨_, hrange⟩ := h.cleared
  apply insertAll_eq_error
  rw [hrange.groupOf_eq, hrange.2]
  intro hall
  exact hvalues fun value hvalue => hall value (by simpa using hvalue)

theorem Indexes.of_rebuild {g g' : ValueGroups} {old : List Int32} (h : g.Indexes old)
    {values : Array Int32} (hrun : g.rebuild values = .ok g') :
    g'.Indexes values.toList ∧ g.SameRange g' := by
  by_cases hvalues : ∀ value ∈ values, g.groupOf value < g.buckets.size
  · obtain ⟨g'', hrun', hindexes, hrange⟩ := h.rebuild values hvalues
    rw [hrun] at hrun'
    cases hrun'
    exact ⟨hindexes, hrange⟩
  · rw [h.rebuild_eq_error values hvalues] at hrun
    cases hrun

/-! ## What an index says -/

theorem Indexes.mem_occupied_iff {g : ValueGroups} {values : List Int32} (h : g.Indexes values)
    {id : Nat} : id ∈ g.occupied ↔ g.positions id ≠ [] := by
  rw [← Array.mem_toList_iff, h.occupied_eq, List.mem_eraseDups, h.positions_eq, ne_eq,
    positionsIn_eq_nil_iff, not_not]

theorem Indexes.nodup_occupied {g : ValueGroups} {values : List Int32} (h : g.Indexes values) :
    g.occupied.toList.Nodup := by
  rw [h.occupied_eq]
  exact nodup_eraseDups _

theorem Indexes.occupied_lt {g : ValueGroups} {values : List Int32} (h : g.Indexes values)
    {id : Nat} (hid : id ∈ g.occupied) : id < g.buckets.size := by
  rw [← Array.mem_toList_iff, h.occupied_eq, List.mem_eraseDups, List.mem_map] at hid
  obtain ⟨value, hvalue, rfl⟩ := hid
  exact h.inRange value hvalue

theorem Indexes.mem_positions_iff {g : ValueGroups} {values : List Int32} (h : g.Indexes values)
    {id position : Nat} (hid : id < g.buckets.size) :
    position ∈ g.positions id ↔ values[position]? = some (g.valueAt id) := by
  rw [h.positions_eq, mem_positionsIn]
  constructor
  · rintro ⟨value, hvalue, hgroup⟩
    rw [hvalue, (groupOf_eq_iff h.fits hid value).mp hgroup]
  · intro hvalue
    exact ⟨_, hvalue, groupOf_valueAt h.fits hid⟩

theorem Indexes.positions_eq_filter {g : ValueGroups} {values : List Int32} (h : g.Indexes values)
    {id : Nat} (hid : id < g.buckets.size) :
    g.positions id = (List.range values.length).filter fun position =>
      decide (values[position]? = some (g.valueAt id)) := by
  rw [h.positions_eq]
  apply List.filter_congr
  intro position hposition
  rw [List.getElem?_eq_getElem (List.mem_range.mp hposition), Option.any_some, decide_eq_decide,
    groupOf_eq_iff h.fits hid, Option.some.injEq]

theorem Indexes.exists_members {g : ValueGroups} {values : List Int32} (h : g.Indexes values)
    {id : Nat} (hid : id < g.buckets.size) :
    ∃ members, g.members id = .ok members ∧
      members.toList = (List.range values.length).filter fun position =>
        decide (values[position]? = some (g.valueAt id)) := by
  have hpositions := h.positions_eq_filter hid
  rw [positions_eq_toList hid] at hpositions
  exact ⟨g.buckets[id], members_eq hid, hpositions⟩

theorem Indexes.positions_nodup {g : ValueGroups} {values : List Int32} (h : g.Indexes values)
    (id : Nat) : (g.positions id).Nodup := by
  rw [h.positions_eq]
  exact (pairwise_positionsIn g values id).imp (by omega)

theorem Indexes.eq_of_mem_positions {g : ValueGroups} {values : List Int32} (h : g.Indexes values)
    {a b position : Nat} (ha : position ∈ g.positions a) (hb : position ∈ g.positions b) :
    a = b := by
  rw [h.positions_eq, mem_positionsIn] at ha hb
  obtain ⟨value, hvalue, rfl⟩ := ha
  obtain ⟨value', hvalue', rfl⟩ := hb
  rw [hvalue, Option.some.injEq] at hvalue'
  rw [hvalue']

def occupiedIds (g : ValueGroups) : List Nat :=
  (List.range g.rangeLength).filter fun id => decide (id ∈ g.occupied)

theorem pairwise_occupiedIds (g : ValueGroups) : g.occupiedIds.Pairwise (· < ·) :=
  List.pairwise_lt_range.filter _

theorem Indexes.mem_occupiedIds_iff {g : ValueGroups} {values : List Int32} (h : g.Indexes values)
    {id : Nat} : id ∈ g.occupiedIds ↔ id ∈ g.occupied := by
  rw [occupiedIds, List.mem_filter, List.mem_range, decide_eq_true_eq]
  exact ⟨fun hid => hid.2, fun hid => ⟨h.occupied_lt hid, hid⟩⟩

theorem Indexes.length_occupiedIds {g : ValueGroups} {values : List Int32} (h : g.Indexes values) :
    g.occupiedIds.length = g.usedValues := by
  have hnodup : g.occupiedIds.Nodup := g.pairwise_occupiedIds.imp (by omega)
  have hperm : g.occupiedIds.Perm g.occupied.toList := by
    rw [List.perm_ext_iff_of_nodup hnodup h.nodup_occupied]
    intro id
    rw [h.mem_occupiedIds_iff, Array.mem_toList_iff]
  rw [hperm.length_eq, Array.length_toList, usedValues]

/-! ## The members of several groups -/

section

variable {g : ValueGroups} {values : List Int32} {order : List Nat}

theorem Indexes.nodup_flatMap_positions (h : g.Indexes values) (horder : order.Nodup) :
    (order.flatMap g.positions).Nodup := by
  rw [List.nodup_flatMap]
  refine ⟨fun id _ => h.positions_nodup id, horder.imp ?_⟩
  intro a b hab position ha hb
  exact hab (h.eq_of_mem_positions ha hb)

theorem Indexes.mem_flatMap_positions_iff (h : g.Indexes values)
    (horder : ∀ id ∈ order, id ∈ g.occupied) {position : Nat} :
    position ∈ order.flatMap g.positions ↔
      ∃ value ∈ order.map g.valueAt, values[position]? = some value := by
  rw [List.mem_flatMap]
  constructor
  · rintro ⟨id, hid, hposition⟩
    exact ⟨_, List.mem_map_of_mem hid,
      (h.mem_positions_iff (h.occupied_lt (horder id hid))).mp hposition⟩
  · rintro ⟨value, hvalue, hposition⟩
    obtain ⟨id, hid, rfl⟩ := List.mem_map.mp hvalue
    exact ⟨id, hid, (h.mem_positions_iff (h.occupied_lt (horder id hid))).mpr hposition⟩

theorem Indexes.nodup_map_valueAt (h : g.Indexes values) (horder : order.Nodup)
    (hoccupied : ∀ id ∈ order, id ∈ g.occupied) : (order.map g.valueAt).Nodup := by
  apply List.Nodup.map_on _ horder
  intro a ha b hb heq
  exact valueAt_injective h.fits (h.occupied_lt (hoccupied a ha)) (h.occupied_lt (hoccupied b hb))
    heq

theorem Indexes.mem_values_of_occupied (h : g.Indexes values) {id : Nat} (hid : id ∈ g.occupied) :
    g.valueAt id ∈ values := by
  obtain ⟨position, hposition⟩ := List.exists_mem_of_ne_nil _ (h.mem_occupied_iff.mp hid)
  exact List.mem_of_getElem? ((h.mem_positions_iff (h.occupied_lt hid)).mp hposition)

/-- Every position is in the group of its value, which is occupied. -/
theorem Indexes.exists_mem_positions (h : g.Indexes values) {position : Nat}
    (hposition : position < values.length) : ∃ id ∈ g.occupied, position ∈ g.positions id := by
  have hget := List.getElem?_eq_getElem hposition
  have hin := h.inRange _ (List.getElem_mem hposition)
  have hmem : position ∈ g.positions (g.groupOf values[position]) :=
    (h.mem_positions_iff hin).mpr (by rw [hget, valueAt_groupOf h.fits hin])
  exact ⟨_, h.mem_occupied_iff.mpr (List.ne_nil_of_mem hmem), hmem⟩

theorem Indexes.perm_range (h : g.Indexes values) (horder : order.Perm g.occupiedIds) :
    (order.flatMap g.positions).Perm (List.range values.length) := by
  have hnodup : order.Nodup := horder.nodup_iff.mpr (g.pairwise_occupiedIds.imp (by omega))
  have hoccupied : ∀ id, id ∈ order ↔ id ∈ g.occupied := by
    intro id
    rw [horder.mem_iff, h.mem_occupiedIds_iff]
  rw [List.perm_ext_iff_of_nodup (h.nodup_flatMap_positions hnodup) List.nodup_range]
  intro position
  rw [List.mem_range, List.mem_flatMap]
  constructor
  · rintro ⟨id, hid, hposition⟩
    rw [h.mem_positions_iff (h.occupied_lt ((hoccupied id).mp hid))] at hposition
    exact (List.getElem?_eq_some_iff.mp hposition).1
  · intro hposition
    obtain ⟨id, hid, hmem⟩ := h.exists_mem_positions hposition
    exact ⟨id, (hoccupied id).mpr hid, hmem⟩

end

/-! ## Uniqueness -/

theorem sameRange_of_bounds {g g' : ValueGroups} (h : g.Fits) (h' : g'.Fits) (hmin : g'.min = g.min)
    (hmax : g'.max = g.max) : g.SameRange g' := by
  have hpos := h.nonempty
  have hpos' := h'.nonempty
  have hlast : g'.max.toInt = g.max.toInt := congrArg Int32.toInt hmax
  rw [max, max, toInt_valueAt h' (by omega), toInt_valueAt h (by omega), hmin] at hlast
  exact ⟨hmin, by omega⟩

/-- An index is determined by its range and its values. -/
theorem Indexes.unique {g g' : ValueGroups} {values : List Int32} (h : g.Indexes values)
    (h' : g'.Indexes values) (hrange : g.SameRange g') : g' = g := by
  have hgroup := hrange.groupOf_eq
  have hoccupied : g'.occupied = g.occupied := by
    apply Array.toList_inj.mp
    rw [h'.occupied_eq, h.occupied_eq, hgroup]
  have hbuckets : g'.buckets = g.buckets := by
    apply Array.ext hrange.2
    intro id hid' hid
    have hpositions : g'.positions id = g.positions id := by
      rw [h'.positions_eq, h.positions_eq, positionsIn, positionsIn, hgroup]
    rw [positions, positions, Array.getElem?_eq_getElem hid', Array.getElem?_eq_getElem hid]
      at hpositions
    exact Array.toList_inj.mp hpositions
  have hmin := hrange.1
  cases g
  cases g'
  simp_all

end ValueGroups

end LargeNeighborhood
