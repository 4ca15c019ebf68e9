import LargeNeighborhood.Proofs.Numeric.Rounding

/-!
# Doubles as sizes

What a nonnegative double is worth in units of `2⁻¹⁰⁷⁴`, and how a product with a whole number, a
sum with one and the truncation act on that.
-/

namespace LargeNeighborhood

namespace Binary64

/-- The double is finite, has no sign and is worth this many units. -/
def IsUnits (x : Binary64) (units : Nat) : Prop :=
  ∃ representable, x = .finite false units representable

/-- The units of `2⁻¹⁰⁷⁴` in `2⁻⁵³`. -/
def partUnits : Nat := 1 <<< 1021

theorem oneUnits_eq : oneUnits = partUnits * 2 ^ 53 :=
  (Nat.shiftLeft_add 1 1021 53).trans (Nat.shiftLeft_eq partUnits 53)

theorem partUnits_pos : 0 < partUnits :=
  Nat.lt_of_lt_of_eq (Nat.two_pow_pos 1021) (Nat.one_shiftLeft 1021).symm

theorem oneUnits_pos : 0 < oneUnits := by
  rw [oneUnits_eq]
  exact Nat.mul_pos partUnits_pos (Nat.two_pow_pos 53)

theorem representable_mul_oneUnits {n : Nat} (hn : n ≤ 2 ^ 53) : Representable (n * oneUnits) :=
  representable_mul_shiftLeft hn (by decide)

theorem representable_mul_partUnits {m : Nat} (hm : m ≤ 2 ^ 53) : Representable (m * partUnits) :=
  representable_mul_shiftLeft hm (by decide)

section

variable {x y : Binary64} {u v n : Nat}

theorem isUnits_ofUnits (hu : Representable u) : (ofUnits false u).IsUnits u :=
  ⟨hu, dif_pos hu⟩

theorem isUnits_roundUnits {num den : Nat} (hden : 0 < den) (hu : Representable u)
    (hle : roundUnits num den ≤ u) :
    (ofUnits false (roundUnits num den)).IsUnits (roundUnits num den) :=
  isUnits_ofUnits (representable_roundUnits hden
    (Nat.lt_of_le_of_lt hle (representable_iff.mp hu).1))

theorem isUnits_ofNat (hn : n ≤ 2 ^ 53) : (ofNat n).IsUnits (n * oneUnits) := by
  have hrepresentable := representable_mul_oneUnits hn
  have hexact : roundUnits (n * oneUnits) 1 = n * oneUnits := by
    have hround := roundUnits_of_representable Nat.one_pos hrepresentable
    rwa [Nat.mul_one] at hround
  rw [ofNat, ofRatio, hexact]
  exact isUnits_ofUnits hrepresentable

theorem isUnits_zero : zero.IsUnits 0 := by
  have hzero := isUnits_ofNat (Nat.zero_le (2 ^ 53))
  rwa [Nat.zero_mul] at hzero

theorem isUnits_one : one.IsUnits oneUnits := by
  have hone := isUnits_ofNat (n := 1) (by decide)
  rwa [Nat.one_mul] at hone

theorem isUnits_part {m : Nat} (hm : m ≤ 2 ^ 53) :
    (ofRatio false m (1 <<< 53)).IsUnits (m * partUnits) := by
  have hrepresentable := representable_mul_partUnits hm
  have hexact : roundUnits (m * oneUnits) (1 <<< 53) = m * partUnits := by
    rw [oneUnits_eq, Nat.one_shiftLeft, ← Nat.mul_assoc]
    exact roundUnits_of_representable (Nat.two_pow_pos 53) hrepresentable
  rw [ofRatio, hexact]
  exact isUnits_ofUnits hrepresentable

theorem IsUnits.mul (hx : x.IsUnits u) (hy : y.IsUnits v) :
    x * y = ofUnits false (roundUnits (u * v) oneUnits) := by
  obtain ⟨_, rfl⟩ := hx
  obtain ⟨_, rfl⟩ := hy
  rfl

theorem IsUnits.add (hx : x.IsUnits u) (hy : y.IsUnits v) :
    x + y = ofUnits false (roundUnits (u + v) 1) := by
  obtain ⟨_, rfl⟩ := hx
  obtain ⟨_, rfl⟩ := hy
  rfl

theorem IsUnits.lt_iff (hx : x.IsUnits u) (hy : y.IsUnits v) : x < y ↔ u < v := by
  obtain ⟨_, rfl⟩ := hx
  obtain ⟨_, rfl⟩ := hy
  change decide ((u : Int) < (v : Int)) = true ↔ u < v
  rw [decide_eq_true_iff, Int.ofNat_lt]

theorem IsUnits.truncate_eq (hx : x.IsUnits u) :
    x.truncate = min (u / oneUnits) (UInt64.size - 1) := by
  obtain ⟨_, rfl⟩ := hx
  rfl

/-! ## Proportions -/

theorem IsProportion.exists_units (h : x.IsProportion) : ∃ u ≤ oneUnits, x.IsUnits u := by
  obtain ⟨hzero, hone⟩ := h
  obtain ⟨hzeroRep, hzeroEq⟩ := isUnits_zero
  obtain ⟨honeRep, honeEq⟩ := isUnits_one
  rw [hzeroEq] at hzero
  rw [honeEq] at hone
  cases x with
  | nan => exact absurd hzero Bool.false_ne_true
  | infinite negative =>
    rcases hone with hless | hsame
    · cases negative with
      | false => exact absurd hless Bool.false_ne_true
      | true => exact absurd hzero Bool.false_ne_true
    · exact absurd hsame Bool.false_ne_true
  | finite negative u representable =>
    have hpos : signedUnits false 0 < signedUnits negative u := of_decide_eq_true hzero
    have hle : signedUnits negative u ≤ signedUnits false oneUnits := by
      rcases hone with hless | hsame
      · exact Int.le_of_lt (of_decide_eq_true hless)
      · exact Int.le_of_eq (of_decide_eq_true hsame)
    cases negative with
    | false => exact ⟨u, Int.ofNat_le.mp hle, representable, rfl⟩
    | true =>
      change (0 : Int) < -(u : Int) at hpos
      omega

/-! ## Products with whole numbers -/

theorem IsUnits.mul_ofNat (hx : x.IsUnits u) (hu : u ≤ oneUnits) (hn : n ≤ 2 ^ 53) :
    ∃ v ≤ n * oneUnits, (x * ofNat n).IsUnits v := by
  have hle : roundUnits (u * (n * oneUnits)) oneUnits ≤ n * oneUnits := by
    apply roundUnits_le oneUnits_pos (representable_mul_oneUnits hn)
    rw [Nat.mul_comm u]
    exact Nat.mul_le_mul_left _ hu
  refine ⟨_, hle, ?_⟩
  rw [hx.mul (isUnits_ofNat hn)]
  exact isUnits_roundUnits oneUnits_pos (representable_mul_oneUnits hn) hle

/-- Rounding never lifts a part below one of a whole number to that number: the part is short of one
by `2⁻⁵³` at least, and rounding adds at most one part in `2⁵³`. -/
theorem part_mul_ofNat {m : Nat} (hm : m < 2 ^ 53) (hpos : 0 < n) (hn : n ≤ 2 ^ 53) :
    ∃ v < n * oneUnits, (ofRatio false m (1 <<< 53) * ofNat n).IsUnits v := by
  have hexact : m * partUnits * (n * oneUnits) = m * (n * partUnits) * oneUnits := by
    ring
  have hlt : roundUnits (m * (n * partUnits) * oneUnits) oneUnits < n * oneUnits := by
    have herror := roundUnits_error oneUnits_pos (m * (n * partUnits))
    have hpart : 0 < n * partUnits := Nat.mul_pos hpos partUnits_pos
    apply Nat.lt_of_mul_lt_mul_left (a := 2 ^ 53)
    calc 2 ^ 53 * roundUnits (m * (n * partUnits) * oneUnits) oneUnits
        ≤ (2 ^ 53 + 1) * (m * (n * partUnits)) := herror
      _ = (2 ^ 53 + 1) * m * (n * partUnits) := by ring
      _ ≤ (2 ^ 53 + 1) * (2 ^ 53 - 1) * (n * partUnits) :=
          Nat.mul_le_mul_right _ (Nat.mul_le_mul_left _ (Nat.le_sub_one_of_lt hm))
      _ < 2 ^ 53 * 2 ^ 53 * (n * partUnits) := Nat.mul_lt_mul_of_pos_right (by decide) hpart
      _ = 2 ^ 53 * (n * oneUnits) := by
          rw [oneUnits_eq]
          ring
  rw [(isUnits_part hm.le).mul (isUnits_ofNat hn), hexact]
  exact ⟨_, hlt, isUnits_roundUnits oneUnits_pos (representable_mul_oneUnits hn) hlt.le⟩

theorem IsUnits.add_one (hx : x.IsUnits u) (hu : u ≤ n * oneUnits) (hn : n < 2 ^ 53) :
    ∃ v, oneUnits ≤ v ∧ v ≤ (n + 1) * oneUnits ∧ (x + one).IsUnits v := by
  have hupper : roundUnits (u + oneUnits) 1 ≤ (n + 1) * oneUnits := by
    apply roundUnits_le Nat.one_pos (representable_mul_oneUnits hn)
    rw [Nat.mul_one, Nat.succ_mul]
    exact Nat.add_le_add_right hu _
  have hlower : oneUnits ≤ roundUnits (u + oneUnits) 1 := by
    obtain ⟨hrepresentable, _⟩ := isUnits_one
    apply le_roundUnits Nat.one_pos hrepresentable
    rw [Nat.mul_one]
    exact Nat.le_add_left _ _
  refine ⟨_, hlower, hupper, ?_⟩
  rw [hx.add isUnits_one]
  exact isUnits_roundUnits Nat.one_pos (representable_mul_oneUnits hn) hupper

/-! ## Truncation -/

theorem IsUnits.le_truncate (hx : x.IsUnits u) (hu : n * oneUnits ≤ u) (hn : n < UInt64.size) :
    n ≤ x.truncate := by
  rw [hx.truncate_eq, Nat.le_min]
  exact ⟨(Nat.le_div_iff_mul_le oneUnits_pos).mpr hu, Nat.le_sub_one_of_lt hn⟩

theorem IsUnits.truncate_le (hx : x.IsUnits u) (hu : u ≤ n * oneUnits) : x.truncate ≤ n := by
  rw [hx.truncate_eq]
  exact (Nat.min_le_left _ _).trans (Nat.div_le_of_le_mul (by rwa [Nat.mul_comm]))

theorem IsUnits.truncate_lt (hx : x.IsUnits u) (hu : u < n * oneUnits) : x.truncate < n := by
  rw [hx.truncate_eq]
  exact Nat.lt_of_le_of_lt (Nat.min_le_left _ _) ((Nat.div_lt_iff_lt_mul oneUnits_pos).mpr hu)

end

end Binary64

end LargeNeighborhood
