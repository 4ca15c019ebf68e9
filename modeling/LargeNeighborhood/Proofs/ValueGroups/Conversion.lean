import LargeNeighborhood.Proofs.ValueGroups.Rebuild

/-!
# Values and ids

The id of a value is its distance from the least value. A distance below zero wraps around to an
id near `2 ^ 64`, which read with a sign is the distance again, so that every 32-bit value is found
back from its id. Inside the range the ids count the values upwards from zero.
-/

namespace LargeNeighborhood.ValueGroups

/-- Ids and values of a range translate into each other, and no difference or sum of machine
integers on the way leaves its range. -/
structure Converts (g : ValueGroups) (min max : Int32) : Prop where
  rangeLength_eq : (g.rangeLength : Int) = max.toInt - min.toInt + 1
  rangeLength_le : g.rangeLength ≤ 2 ^ 32
  max_eq : g.max = max ∧ (Strict.sub g.rangeLength 1 >>= g.valueOf) = .ok max
  /-- Every value is found back from its id, also from an id beyond the range. -/
  value_of_group : ∀ value, (Strict.groupOf g value >>= g.valueOf) = .ok value
  group_checked : ∀ value, Strict.groupOf g value = .ok (g.groupOf value)
  group_lt_iff : ∀ value, g.groupOf value < g.rangeLength ↔ min ≤ value ∧ value ≤ max
  group_of_value : ∀ id < g.rangeLength,
    ∃ value, g.valueOf id = .ok value ∧ min ≤ value ∧ value ≤ max ∧ g.groupOf value = id
  group_lt_group : ∀ a b, min ≤ a → a < b → b ≤ max → g.groupOf a < g.groupOf b
  value_lt_value : ∀ i j, i < j → j < g.rangeLength →
    ∃ a b, g.valueOf i = .ok a ∧ g.valueOf j = .ok b ∧ a < b

variable {g : ValueGroups} {min max : Int32}

/-! ## Ids of any value -/

/-- An id read with a sign is the distance from the least value. -/
theorem bmod_groupOf (g : ValueGroups) (value : Int32) :
    (g.groupOf value : Int).bmod UInt64.size = value.toInt - g.min.toInt := by
  have hvalue := value.le_toInt
  have hvalue' := value.toInt_lt
  have hmin := g.min.le_toInt
  have hmin' := g.min.toInt_lt
  have hid : (g.groupOf value : Int) = (value.toInt - g.min.toInt) % UInt64.size := by
    rw [groupOf, Int.toNat_of_nonneg (Int.emod_nonneg _ (by decide))]
  rw [hid, Int.emod_bmod]
  apply Int.bmod_eq_of_le <;> simp only [UInt64.size] <;> omega

theorem valueAt_eq_ofInt_bmod (g : ValueGroups) (id : Nat) :
    g.valueAt id = Int32.ofInt (g.min.toInt + (id : Int).bmod UInt64.size) := by
  have hdvd : Int32.size ∣ UInt64.size := by decide
  rw [valueAt, ← Int32.toInt_inj, Int32.toInt_ofInt, Int32.toInt_ofInt, ← Int.add_bmod_bmod,
    ← Int.add_bmod_bmod (x := g.min.toInt) (y := (id : Int).bmod UInt64.size),
    Int.bmod_bmod_of_dvd hdvd]

theorem valueOf_groupOf (g : ValueGroups) (value : Int32) :
    g.valueOf (g.groupOf value) = .ok value := by
  have hvalue := value.le_toInt
  have hvalue' := value.toInt_lt
  have hsum : g.min.toInt + (value.toInt - g.min.toInt) = value.toInt := by omega
  have hfit : Int64.minValue.toInt ≤ value.toInt ∧ value.toInt ≤ Int64.maxValue.toInt := by
    rw [Int64.toInt_minValue, Int64.toInt_maxValue]
    omega
  rw [valueOf, valueAt_eq_ofInt_bmod, bmod_groupOf, hsum, Checked.signedWord, if_pos hfit,
    Int32.ofInt_toInt]
  rfl

/-! ## Ids of the range -/

theorem groupOf_lt_groupOf {a b : Int32} (ha : g.min ≤ a) (hab : a < b) :
    g.groupOf a < g.groupOf b := by
  have hb : g.min ≤ b := Int32.le_of_lt (Int32.lt_of_le_of_lt ha hab)
  rw [groupOf_eq_toNat ha, groupOf_eq_toNat hb]
  rw [Int32.le_iff_toInt_le] at ha
  rw [Int32.lt_iff_toInt_lt] at hab
  omega

theorem valueAt_lt_valueAt (h : g.Fits) {i j : Nat} (hij : i < j) (hj : j < g.buckets.size) :
    g.valueAt i < g.valueAt j := by
  rw [Int32.lt_iff_toInt_lt, toInt_valueAt h (Nat.lt_trans hij hj), toInt_valueAt h hj]
  omega

theorem valueAt_mem_range (h : g.Fits) {id : Nat} (hid : id < g.buckets.size) :
    g.min ≤ g.valueAt id ∧ g.valueAt id ≤ g.max := by
  rw [← groupOf_lt_iff h, groupOf_valueAt h hid]
  exact hid

/-- The conversions of a new grouping are inverse to each other, for values outside the range too,
and inside the range they keep the order. -/
theorem conversions_invert (hle : min ≤ max) :
    ∃ g, ofRange min max = .ok g ∧ g.Converts min max := by
  have hfits := fits_empty hle
  have hmax := max_empty hle
  refine ⟨empty min max, ofRange_eq_ok_iff.mpr ⟨hle, rfl⟩, ?_⟩
  constructor
  case rangeLength_eq => exact rangeLength_empty hle
  case rangeLength_le => exact hfits.size_le
  case max_eq =>
    have hpos : 1 ≤ (empty min max).rangeLength := hfits.nonempty
    refine ⟨hmax, ?_⟩
    rw [Strict.sub_eq hpos, Checked.ok_bind]
    exact (valueOf_eq hfits (Nat.sub_lt hpos Nat.one_pos)).trans (congrArg Except.ok hmax)
  case value_of_group =>
    intro value
    rw [Strict.groupOf_eq, Checked.ok_bind, valueOf_groupOf]
  case group_checked => exact Strict.groupOf_eq _
  case group_lt_iff =>
    intro value
    exact (groupOf_lt_iff hfits value).trans (by rw [hmax]; rfl)
  case group_of_value =>
    intro id hid
    obtain ⟨hlow, hhigh⟩ := valueAt_mem_range hfits hid
    rw [hmax] at hhigh
    exact ⟨_, valueOf_eq hfits hid, hlow, hhigh, groupOf_valueAt hfits hid⟩
  case group_lt_group => exact fun a b ha hab _ => groupOf_lt_groupOf ha hab
  case value_lt_value =>
    intro i j hij hj
    exact ⟨_, _, valueOf_eq hfits (Nat.lt_trans hij hj), valueOf_eq hfits hj,
      valueAt_lt_valueAt hfits hij hj⟩

theorem conversions_invert_extremes :
    Int32.minValue ≤ Int32.maxValue ∧ Int32.maxValue ≤ Int32.maxValue ∧
    (∃ g, ofRange Int32.minValue Int32.maxValue = .ok g ∧ g.rangeLength = 2 ^ 32 ∧
      g.valueOf (2 ^ 32 - 1) = .ok Int32.maxValue) ∧
    ∃ g, ofRange Int32.maxValue Int32.maxValue = .ok g ∧ g.rangeLength = 1 ∧
      g.groupOf Int32.minValue = 2 ^ 64 - (2 ^ 32 - 1) ∧
      g.valueOf (2 ^ 64 - (2 ^ 32 - 1)) = .ok Int32.minValue := by
  refine ⟨by decide, by decide, ?_, ?_⟩
  · obtain ⟨g, hg, hconverts⟩ :=
      conversions_invert (by decide : Int32.minValue ≤ Int32.maxValue)
    have hlength : g.rangeLength = 2 ^ 32 := by
      have heq := hconverts.rangeLength_eq
      rw [Int32.toInt_minValue, Int32.toInt_maxValue] at heq
      omega
    have hlast := hconverts.max_eq.2
    rw [hlength, Strict.sub_eq (by decide), Checked.ok_bind] at hlast
    exact ⟨g, hg, hlength, hlast⟩
  · obtain ⟨g, hg, hconverts⟩ := conversions_invert (Int32.le_refl Int32.maxValue)
    have hlength : g.rangeLength = 1 := by
      have heq := hconverts.rangeLength_eq
      omega
    have hgroup : g.groupOf Int32.minValue = 2 ^ 64 - (2 ^ 32 - 1) := by
      obtain ⟨_, rfl⟩ := ofRange_eq_ok_iff.mp hg
      decide
    have hback := hconverts.value_of_group Int32.minValue
    rw [hconverts.group_checked, Checked.ok_bind, hgroup] at hback
    exact ⟨g, hg, hlength, hgroup, hback⟩

end LargeNeighborhood.ValueGroups
