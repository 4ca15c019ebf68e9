import LargeNeighborhood.Proofs.ValueGroups.Index
import Mathlib.Data.List.Sort

/-!
# Recorded values in order

The ids of a grouping are ordered as their values. So the occupied groups in increasing order list
the recorded values in increasing order, whatever the range of the grouping, the sizes of its groups
and the order in which they first appeared.
-/

namespace LargeNeighborhood.ValueGroups

/-- The values of the occupied groups in increasing order. -/
def occupiedValues (g : ValueGroups) : List Int32 :=
  g.occupiedIds.map g.valueAt

def positionsOf (values : List Int32) (value : Int32) : List Nat :=
  (List.range values.length).filter fun position => decide (values[position]? = some value)

variable {g g' : ValueGroups} {values values' : List Int32} {value : Int32}

theorem Indexes.mem_occupiedValues_iff (h : g.Indexes values) :
    value ∈ g.occupiedValues ↔ value ∈ values := by
  rw [occupiedValues, List.mem_map]
  constructor
  · rintro ⟨id, hid, rfl⟩
    exact h.mem_values_of_occupied (h.mem_occupiedIds_iff.mp hid)
  · intro hvalue
    have hid : g.groupOf value ∈ g.occupied := by
      rw [← Array.mem_toList_iff, h.occupied_eq, List.mem_eraseDups]
      exact List.mem_map_of_mem hvalue
    exact ⟨_, h.mem_occupiedIds_iff.mpr hid, valueAt_groupOf h.fits (h.inRange value hvalue)⟩

theorem Indexes.pairwise_occupiedValues (h : g.Indexes values) :
    g.occupiedValues.Pairwise (· < ·) := by
  rw [occupiedValues, List.pairwise_map]
  refine g.pairwise_occupiedIds.imp_of_mem ?_
  intro a b ha hb hab
  have ha' := toInt_valueAt h.fits (h.occupied_lt (h.mem_occupiedIds_iff.mp ha))
  have hb' := toInt_valueAt h.fits (h.occupied_lt (h.mem_occupiedIds_iff.mp hb))
  rw [Int32.lt_iff_toInt_lt, ha', hb']
  omega

theorem Indexes.length_occupiedValues (h : g.Indexes values) :
    g.occupiedValues.length = g.usedValues := by
  rw [occupiedValues, List.length_map, h.length_occupiedIds]

theorem Indexes.nodup_occupiedValues (h : g.Indexes values) : g.occupiedValues.Nodup :=
  h.pairwise_occupiedValues.imp Int32.ne_of_lt

theorem Indexes.usedValues_eq (h : g.Indexes values) : g.usedValues = values.eraseDups.length := by
  rw [← h.length_occupiedValues]
  apply List.Perm.length_eq
  rw [List.perm_ext_iff_of_nodup h.nodup_occupiedValues (nodup_eraseDups values)]
  intro value
  rw [h.mem_occupiedValues_iff, List.mem_eraseDups]

theorem Indexes.exists_notMem (h : g.Indexes values) {drawn : List Int32}
    (hlt : drawn.length < g.usedValues) : ∃ value ∈ values, value ∉ drawn := by
  by_contra hall
  push Not at hall
  have hsubset : g.occupiedValues ⊆ drawn := fun value hvalue =>
    hall value (h.mem_occupiedValues_iff.mp hvalue)
  have hle := (List.subperm_of_subset h.nodup_occupiedValues hsubset).length_le
  rw [h.length_occupiedValues] at hle
  omega

theorem Indexes.flatMap_positions_eq (h : g.Indexes values) {order : List Nat}
    (horder : ∀ id ∈ order, id ∈ g.occupied) :
    order.flatMap g.positions = (order.map g.valueAt).flatMap (positionsOf values) := by
  rw [List.flatMap_map]
  apply List.flatMap_congr
  intro id hid
  exact h.positions_eq_filter (h.occupied_lt (horder id hid))

/-! ## Renamed values -/

section

variable {f : Int32 → Int32}

/-- A map that increases on the recorded values carries their order along. -/
theorem Indexes.occupiedValues_map (h : g.Indexes values) (h' : g'.Indexes values')
    (hmono : ∀ x ∈ values, ∀ y ∈ values, x < y → f x < f y)
    (himage : ∀ value, value ∈ values' ↔ ∃ old ∈ values, f old = value) :
    g'.occupiedValues = g.occupiedValues.map f := by
  have hsorted : (g.occupiedValues.map f).Pairwise (· < ·) := by
    rw [List.pairwise_map]
    refine h.pairwise_occupiedValues.imp_of_mem ?_
    intro x y hx hy hxy
    exact hmono x (h.mem_occupiedValues_iff.mp hx) y (h.mem_occupiedValues_iff.mp hy) hxy
  -- two increasing lists are equal if they have the same members
  refine List.Pairwise.eq_of_mem_iff h'.pairwise_occupiedValues hsorted ?_
  intro value
  rw [h'.mem_occupiedValues_iff, himage, List.mem_map]
  simp only [h.mem_occupiedValues_iff]

theorem injOn_of_increasing (hmono : ∀ x ∈ values, ∀ y ∈ values, x < y → f x < f y) :
    ∀ x ∈ values, ∀ y ∈ values, f x = f y → x = y := by
  intro x hx y hy heq
  by_contra hne
  rcases Int32.lt_or_lt_of_ne hne with hlt | hlt
  · exact Int32.ne_of_lt (hmono x hx y hy hlt) heq
  · exact Int32.ne_of_lt (hmono y hy x hx hlt) heq.symm

theorem positionsOf_map (hinj : ∀ x ∈ values, ∀ y ∈ values, f x = f y → x = y)
    (hvalue : value ∈ values) :
    positionsOf (values.map f) (f value) = positionsOf values value := by
  rw [positionsOf, positionsOf, List.length_map]
  apply List.filter_congr
  intro position hposition
  have hlt := List.mem_range.mp hposition
  rw [List.getElem?_map, List.getElem?_eq_getElem hlt, Option.map_some, decide_eq_decide,
    Option.some.injEq, Option.some.injEq]
  constructor
  · intro heq
    exact hinj _ (List.getElem_mem hlt) _ hvalue heq
  · intro heq
    rw [heq]

end

end LargeNeighborhood.ValueGroups
