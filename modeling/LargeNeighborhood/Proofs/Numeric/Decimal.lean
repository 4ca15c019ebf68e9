import LargeNeighborhood.Numeric.Decimal
import LargeNeighborhood.Proofs.Numeric.Size
import Mathlib.Algebra.Order.Field.Power
import Mathlib.Data.Rat.Cast.Order
import Mathlib.Tactic.FieldSimp
import Mathlib.Tactic.NormNum

/-!
# Decimal numerals as doubles

The bounds that keep powers of ten small do not show: a numeral is read as the double nearest to
its value. So numerals of one value are read alike, and the shortest numeral of a double is read as
that double.
-/

namespace LargeNeighborhood

namespace Binary64

variable {num den : Nat} {negative : Bool}

/-! ## Ratios -/

theorem divNearestEven_mul_right (num den : Nat) {k : Nat} (hk : 0 < k) :
    divNearestEven (num * k) (den * k) = divNearestEven num den := by
  have hless : 2 * (num % den * k) < den * k ↔ 2 * (num % den) < den := by
    rw [← Nat.mul_assoc, Nat.mul_lt_mul_right hk]
  have htie : 2 * (num % den * k) = den * k ↔ 2 * (num % den) = den := by
    rw [← Nat.mul_assoc, Nat.mul_left_inj hk.ne']
  simp only [divNearestEven, Nat.mul_div_mul_right num den hk, Nat.mul_mod_mul_right, hless, htie]

theorem roundUnits_mul_right (num den : Nat) {k : Nat} (hk : 0 < k) :
    roundUnits (num * k) (den * k) = roundUnits num den := by
  rw [roundUnits_eq, roundUnits_eq, Nat.mul_div_mul_right num den hk, Nat.mul_right_comm den k,
    divNearestEven_mul_right _ _ hk]

theorem ofRatio_congr {num' den' : Nat} (hden : 0 < den) (hden' : 0 < den')
    (h : num * den' = num' * den) : ofRatio negative num den = ofRatio negative num' den' := by
  have hround : roundUnits (num * oneUnits) den = roundUnits (num' * oneUnits) den' :=
    calc roundUnits (num * oneUnits) den
        = roundUnits (num * oneUnits * den') (den * den') :=
          (roundUnits_mul_right _ _ hden').symm
      _ = roundUnits (num' * oneUnits * den) (den' * den) := by
          rw [Nat.mul_right_comm, h, Nat.mul_right_comm, Nat.mul_comm den]
      _ = roundUnits (num' * oneUnits) den' := roundUnits_mul_right _ _ hden
  rw [ofRatio, ofRatio, hround]

theorem ofRatio_zero (hden : 0 < den) : ofRatio negative 0 den = ofRatio negative 0 1 :=
  ofRatio_congr hden Nat.one_pos (by rw [Nat.zero_mul, Nat.zero_mul])

theorem pow_mul_shiftLeft (a n k : Nat) : a * 2 ^ n * 1 <<< k = a * 2 ^ (n + k) := by
  rw [Nat.one_shiftLeft, Nat.mul_assoc, ← pow_add]

theorem pow_mul_oneUnits (a n : Nat) : a * 2 ^ n * oneUnits = a * 2 ^ (n + 1074) :=
  pow_mul_shiftLeft a n 1074

theorem ofRatio_of_large (hden : 0 < den) (h : 2 ^ 1024 * den ≤ num) :
    ofRatio negative num den = .infinite negative := by
  have hquotient : 2 ^ 2098 ≤ num * oneUnits / den := by
    rw [Nat.le_div_iff_mul_le hden]
    calc 2 ^ 2098 * den = 2 ^ 1024 * den * oneUnits := by
          rw [Nat.mul_comm, Nat.mul_comm _ den, pow_mul_oneUnits]
      _ ≤ num * oneUnits := Nat.mul_le_mul_right _ h
  have hpos : num * oneUnits / den ≠ 0 :=
    (Nat.lt_of_lt_of_le (pow_pos Nat.two_pos 2098) hquotient).ne'
  -- the power of two below the quotient is a multiple of every spacing there
  have hround : 2 ^ 2098 ≤ roundUnits (num * oneUnits) den :=
    calc 2 ^ 2098 ≤ 2 ^ (num * oneUnits / den).log2 :=
          pow_le_pow_right₀ one_le_two ((Nat.le_log2 hpos).mpr hquotient)
      _ ≤ roundUnits (num * oneUnits) den := by
          apply le_roundUnits_of_dvd hden (spacing_dvd_two_pow _)
          exact (Nat.mul_le_mul_right den (Nat.log2_self_le hpos)).trans
            (Nat.div_mul_le_self _ den)
  have hbeyond : ¬ Representable (roundUnits (num * oneUnits) den) := by
    intro hrepresentable
    have hlt := (representable_iff.mp hrepresentable).1
    rw [Nat.one_shiftLeft 2098] at hlt
    omega
  rw [ofRatio, ofUnits, dif_neg hbeyond]

theorem ofRatio_of_small (h : 2 * (num * oneUnits) < den) :
    ofRatio negative num den = ofRatio negative 0 1 := by
  have hround : roundUnits (num * oneUnits) den = 0 := by
    have hquotient : num * oneUnits / den = 0 := Nat.div_eq_of_lt (by omega)
    have hsize : num * oneUnits % den = num * oneUnits := Nat.mod_eq_of_lt (by omega)
    rw [roundUnits_eq, hquotient, spacing, Nat.log2_zero, Nat.zero_sub, Nat.pow_zero, Nat.mul_one,
      Nat.mul_one, divNearestEven, if_pos (.inl (by rwa [hsize])), hquotient]
  have hzero : roundUnits (0 * oneUnits) 1 = 0 := by
    rw [Nat.zero_mul]
    rfl
  rw [ofRatio, ofRatio, hround, hzero]

end Binary64

namespace Decimal

open Binary64

variable {negative : Bool} {tie : Tie} {units : Nat}

/-! ## The value of a numeral -/

/-- The number a numeral stands for. -/
def value (d : Decimal) : ℚ :=
  d.digits * 10 ^ d.exponent

theorem value_eq_div (d : Decimal) :
    d.value = (d.digits * 10 ^ d.exponent.toNat : Nat) / (10 ^ (-d.exponent).toNat : Nat) := by
  rw [value]
  push_cast
  rw [mul_div_assoc]
  congr 1
  rcases le_total 0 d.exponent with hnonneg | hneg
  · have hnone : (-d.exponent).toNat = 0 := by omega
    rw [hnone, pow_zero, div_one, ← zpow_natCast, Int.toNat_of_nonneg hnonneg]
  · have hnone : d.exponent.toNat = 0 := by omega
    have hexponent : d.exponent = -((-d.exponent).toNat : Int) := by omega
    rw [hnone, pow_zero, one_div, ← zpow_natCast, ← zpow_neg, ← hexponent]

/-- Every double is below the tenth power at which numerals are infinite. -/
theorem two_pow_1024_le : 2 ^ 1024 ≤ 10 ^ 310 := by decide +kernel

/-- Half the least double is above the tenth power at which numerals vanish. -/
theorem two_pow_1075_lt : 2 ^ 1075 < 10 ^ 324 := by decide +kernel

theorem lt_ten_pow (n : Nat) : n < 10 ^ (n.log2 / 3 + 1) :=
  calc n < 2 ^ (n.log2 + 1) := Nat.lt_log2_self
    _ ≤ 2 ^ (3 * (n.log2 / 3 + 1)) := Nat.pow_le_pow_right Nat.two_pos (by omega)
    _ = 8 ^ (n.log2 / 3 + 1) := Nat.pow_mul 2 3 _
    _ ≤ 10 ^ (n.log2 / 3 + 1) := Nat.pow_le_pow_left (by decide) _

/-- A numeral is read as the double nearest to its value, whatever its size. -/
theorem ofDecimal_eq_ofRatio (negative : Bool) (d : Decimal) :
    ofDecimal negative d =
      ofRatio negative (d.digits * 10 ^ d.exponent.toNat) (10 ^ (-d.exponent).toNat) := by
  have hden (n : Nat) : 0 < 10 ^ n := Nat.pow_pos (by decide)
  rw [ofDecimal]
  split
  case isTrue hzero => rw [hzero, Nat.zero_mul, ofRatio_zero (hden _)]
  case isFalse hpos =>
    split
    case isTrue hlarge =>
      have hnone : (-d.exponent).toNat = 0 := by omega
      symm
      apply ofRatio_of_large (hden _)
      calc 2 ^ 1024 * 10 ^ (-d.exponent).toNat = 1 * 2 ^ 1024 := by
            rw [hnone, Nat.pow_zero, Nat.mul_one, Nat.one_mul]
        _ ≤ d.digits * 10 ^ 310 := Nat.mul_le_mul (by omega) two_pow_1024_le
        _ ≤ d.digits * 10 ^ d.exponent.toNat :=
            Nat.mul_le_mul_left _ (pow_le_pow_right₀ (by decide) (by omega))
    case isFalse =>
      split
      case isTrue hsmall =>
        have hnone : d.exponent.toNat = 0 := by omega
        symm
        apply ofRatio_of_small
        calc 2 * (d.digits * 10 ^ d.exponent.toNat * oneUnits)
            = d.digits * 2 ^ 1 * oneUnits := by
              rw [hnone, pow_zero, pow_one, Nat.mul_one, Nat.mul_right_comm, Nat.mul_comm]
          _ = 2 ^ 1075 * d.digits := by rw [pow_mul_oneUnits, Nat.mul_comm]
          _ < 10 ^ 324 * 10 ^ (d.digits.log2 / 3 + 1) :=
              Nat.mul_lt_mul_of_lt_of_lt two_pow_1075_lt (lt_ten_pow _)
          _ = 10 ^ (324 + (d.digits.log2 / 3 + 1)) := (pow_add ..).symm
          _ ≤ 10 ^ (-d.exponent).toNat := pow_le_pow_right₀ (by decide) (by omega)
      case isFalse =>
        split
        case isTrue hnonneg =>
          have hnone : (-d.exponent).toNat = 0 := by omega
          rw [hnone, Nat.pow_zero, Nat.pow_eq]
        case isFalse hneg =>
          have hnone : d.exponent.toNat = 0 := by omega
          rw [hnone, Nat.pow_zero, Nat.mul_one, Nat.pow_eq]

theorem ofDecimal_congr {d e : Decimal} (h : d.value = e.value) :
    ofDecimal negative d = ofDecimal negative e := by
  have hden (n : Nat) : 0 < 10 ^ n := Nat.pow_pos (by decide)
  have hne (n : Nat) : ((10 ^ n : Nat) : ℚ) ≠ 0 := Nat.cast_ne_zero.mpr (hden n).ne'
  rw [ofDecimal_eq_ofRatio, ofDecimal_eq_ofRatio]
  apply ofRatio_congr (hden _) (hden _)
  rw [value_eq_div, value_eq_div, div_eq_div_iff (hne _) (hne _)] at h
  exact_mod_cast h

@[simp]
theorem value_normalize (d : Decimal) : d.normalize.value = d.value := by
  fun_induction normalize d with
  | case1 d h ih =>
    rw [ih, value, value]
    have hdigits : d.digits = 10 * (d.digits / 10) := by omega
    rw [zpow_add_one₀ (by norm_num)]
    nth_rewrite 2 [hdigits]
    push_cast
    ring
  | case2 => rfl

/-! ## The shortest numeral -/

theorem ofUnits_of_representable (h : Representable units) :
    ofUnits negative units = .finite negative units h :=
  dif_pos h

theorem ReadsAs.ofDecimal_eq {d : Decimal} (hread : d.ReadsAs units) (h : Representable units)
    (negative : Bool) : ofDecimal negative d = .finite negative units h := by
  rw [ReadsAs, ofUnits_of_representable h, ofDecimal_eq_ofRatio, ofRatio, ofUnits] at hread
  split at hread
  case isTrue =>
    injection hread with _ hround
    rw [ofDecimal_eq_ofRatio, ofRatio, hround, ofUnits_of_representable h]
  case isFalse => cases hread

theorem readsAs_of_ite {near far d : Decimal}
    (h : (if near.ReadsAs units then some near else if far.ReadsAs units then some far else none) =
      some d) : d.ReadsAs units := by
  split at h
  case isTrue hnear =>
    injection h with h
    rwa [← h]
  case isFalse =>
    split at h
    case isTrue hfar =>
      injection h with h
      rwa [← h]
    case isFalse => cases h

theorem readsAs_of_onGrid {exponent : Int} {d : Decimal}
    (h : onGrid tie units exponent = some d) : d.ReadsAs units :=
  readsAs_of_ite h

theorem readsAs_exact (h : Representable units) : (exact units).ReadsAs units := by
  have hround (k : Nat) : roundUnits (units * Nat.pow 5 k * 10 ^ 0 * 1 <<< k) (10 ^ k) = units := by
    have hten : 10 ^ k = 5 ^ k * 2 ^ k := mul_pow 5 2 k
    rw [pow_zero, Nat.mul_one, Nat.one_shiftLeft, Nat.pow_eq, Nat.mul_assoc, ← hten]
    exact roundUnits_of_representable (pow_pos (by decide) k) h
  have hwhole : (exact units).exponent.toNat = 0 := rfl
  have hpart : (-(exact units).exponent).toNat = 1074 := rfl
  rw [ReadsAs, ofDecimal_eq_ofRatio, ofRatio, hwhole, hpart]
  simp only [exact, oneUnits, hround]

/-- The shortest numeral of a double is read as that double. -/
theorem ofDecimal_shortest (tie : Tie) (h : Representable units) (negative : Bool) :
    ofDecimal negative (shortest tie units) = .finite negative units h := by
  rw [shortest, ofDecimal_congr (value_normalize _)]
  apply ReadsAs.ofDecimal_eq
  cases hfound : (gridExponents units).findSome? (onGrid tie units) with
  | none => exact readsAs_exact h
  | some d =>
    obtain ⟨exponent, _, hgrid⟩ := List.exists_of_findSome?_eq_some hfound
    exact readsAs_of_onGrid hgrid

theorem shortest_digits_pos (tie : Tie) (h : Representable units) (hpos : 0 < units) :
    0 < (shortest tie units).digits := by
  apply Nat.pos_of_ne_zero
  intro hzero
  have hread := ofDecimal_shortest tie h false
  have hvanish : ofRatio false 0 1 = zero := rfl
  rw [ofDecimal, if_pos hzero, hvanish] at hread
  obtain ⟨_, hunits⟩ := isUnits_zero
  rw [hunits] at hread
  injection hread with _ hread
  omega

end Decimal

end LargeNeighborhood
