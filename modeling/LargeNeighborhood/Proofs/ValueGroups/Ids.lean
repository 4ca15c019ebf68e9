import LargeNeighborhood.ValueGroups

/-!
# Ids of value groups

Inside the range of a grouping, ids and values translate into each other; a value outside the range
has an id beyond every bucket.
-/

namespace LargeNeighborhood.ValueGroups

/-- The buckets stand for 32-bit values, at least one of them. -/
structure Fits (g : ValueGroups) : Prop where
  nonempty : 0 < g.buckets.size
  bounded : g.min.toInt + g.buckets.size ≤ Int32.maxValue.toInt + 1

theorem fits_empty {min max : Int32} (h : min ≤ max) : (empty min max).Fits := by
  have hle := Int32.le_iff_toInt_le.mp h
  have hmax := max.toInt_le
  constructor
  · simp [empty]
    omega
  · simp [empty]
    omega

theorem rangeLength_empty {min max : Int32} (h : min ≤ max) :
    ((empty min max).rangeLength : Int) = max.toInt - min.toInt + 1 := by
  have hle := Int32.le_iff_toInt_le.mp h
  have hsize : (empty min max).rangeLength = (max.toInt - min.toInt + 1).toNat :=
    Array.size_replicate
  omega

theorem members_empty {min max : Int32} {id : Nat} (hid : id < (empty min max).rangeLength) :
    (empty min max).members id = .ok #[] := by
  rw [rangeLength, empty, Array.size_replicate] at hid
  rw [members, Checked.get_eq_ok_iff, empty, Array.getElem?_replicate, if_pos hid]

theorem Fits.size_le {g : ValueGroups} (h : g.Fits) : g.buckets.size ≤ UInt32.size := by
  have hb := h.bounded
  have hmin := g.min.le_toInt
  simp only [Int32.toInt_maxValue, UInt32.size] at hb ⊢
  omega

theorem toInt_valueAt {g : ValueGroups} (h : g.Fits) {id : Nat} (hid : id < g.buckets.size) :
    (g.valueAt id).toInt = g.min.toInt + id := by
  have hb := h.bounded
  have hmin := g.min.le_toInt
  simp only [Int32.toInt_maxValue] at hb
  rw [valueAt, Int32.toInt_ofInt_of_le (by omega) (by omega)]

theorem max_empty {min max : Int32} (h : min ≤ max) : (empty min max).max = max := by
  have hfits := fits_empty h
  have hpos := hfits.nonempty
  have hle := Int32.le_iff_toInt_le.mp h
  have hsize : (empty min max).buckets.size = (max.toInt - min.toInt + 1).toNat :=
    Array.size_replicate
  rw [← Int32.toInt_inj, ValueGroups.max, toInt_valueAt hfits (by omega), hsize]
  change min.toInt + _ = max.toInt
  omega

theorem groupOf_eq_iff {g : ValueGroups} (h : g.Fits) {id : Nat} (hid : id < g.buckets.size)
    (value : Int32) : g.groupOf value = id ↔ value = g.valueAt id := by
  have hb := h.bounded
  have hmin := g.min.le_toInt
  have hlow := value.le_toInt
  have hhigh := value.toInt_lt
  simp only [Int32.toInt_maxValue] at hb
  rw [← Int32.toInt_inj, toInt_valueAt h hid, groupOf]
  simp only [UInt64.size]
  omega

theorem groupOf_valueAt {g : ValueGroups} (h : g.Fits) {id : Nat} (hid : id < g.buckets.size) :
    g.groupOf (g.valueAt id) = id :=
  (groupOf_eq_iff h hid _).mpr rfl

theorem valueAt_groupOf {g : ValueGroups} (h : g.Fits) {value : Int32}
    (hvalue : g.groupOf value < g.buckets.size) : g.valueAt (g.groupOf value) = value :=
  ((groupOf_eq_iff h hvalue value).mp rfl).symm

theorem valueAt_injective {g : ValueGroups} (h : g.Fits) {a b : Nat} (ha : a < g.buckets.size)
    (hb : b < g.buckets.size) (heq : g.valueAt a = g.valueAt b) : a = b := by
  rw [← groupOf_valueAt h ha, heq, groupOf_valueAt h hb]

theorem groupOf_lt_iff {g : ValueGroups} (h : g.Fits) (value : Int32) :
    g.groupOf value < g.buckets.size ↔ g.min ≤ value ∧ value ≤ g.max := by
  have hb := h.bounded
  have hpos := h.nonempty
  have hmin := g.min.le_toInt
  have hlow := value.le_toInt
  have hhigh := value.toInt_lt
  simp only [Int32.toInt_maxValue] at hb
  rw [Int32.le_iff_toInt_le, Int32.le_iff_toInt_le, max, toInt_valueAt h (by omega), groupOf]
  simp only [UInt64.size]
  omega

/-- The value of an existing group is computed without overflow. -/
theorem valueOf_eq {g : ValueGroups} (h : g.Fits) {id : Nat} (hid : id < g.buckets.size) :
    g.valueOf id = .ok (g.valueAt id) := by
  have hb := h.bounded
  have hmin := g.min.le_toInt
  simp only [Int32.toInt_maxValue] at hb
  have hwrap : (id : Int).bmod UInt64.size = id := by
    apply Int.bmod_eq_of_le <;> simp only [UInt64.size] <;> omega
  have hfit : Int64.minValue.toInt ≤ g.min.toInt + id ∧
      g.min.toInt + id ≤ Int64.maxValue.toInt := by
    simp only [Int64.toInt_minValue, Int64.toInt_maxValue]
    omega
  unfold valueOf Checked.signedWord
  rw [hwrap, if_pos hfit]
  rfl

end LargeNeighborhood.ValueGroups
