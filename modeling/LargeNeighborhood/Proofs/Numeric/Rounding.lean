import LargeNeighborhood.Numeric.Binary64
import Mathlib.Algebra.Order.Ring.Nat
import Mathlib.Tactic.Ring

/-!
# Rounding to doubles

Rounding is monotone around the doubles: a size between two of them is rounded to a size between
them. Its error is half a spacing, and the spacing is at most the size over `2⁵²`. All sizes are
naturals, counted in units of `2⁻¹⁰⁷⁴`.
-/

namespace LargeNeighborhood.Binary64

/-- The distance of the doubles at a size. -/
def spacing (units : Nat) : Nat :=
  2 ^ (units.log2 - 52)

theorem spacing_pos (units : Nat) : 0 < spacing units :=
  Nat.two_pow_pos _

theorem representable_iff {units : Nat} :
    Representable units ↔ units < 1 <<< 2098 ∧ spacing units ∣ units := by
  rw [Representable, spacing, Nat.one_shiftLeft (units.log2 - 52), Nat.dvd_iff_mod_eq_zero]

theorem roundUnits_eq (num den : Nat) :
    roundUnits num den =
      divNearestEven num (den * spacing (num / den)) * spacing (num / den) := by
  rw [roundUnits, spacing, Nat.one_shiftLeft]

/-! ## The nearest whole number -/

section

variable {num den k : Nat}

theorem divNearestEven_cases (num den : Nat) :
    (divNearestEven num den = num / den ∧ 2 * (num % den) ≤ den) ∨
      (divNearestEven num den = num / den + 1 ∧ den ≤ 2 * (num % den)) := by
  unfold divNearestEven
  dsimp only
  split
  · exact .inl ⟨rfl, by omega⟩
  · exact .inr ⟨rfl, by omega⟩

theorem le_divNearestEven (hden : 0 < den) (h : k * den ≤ num) : k ≤ divNearestEven num den := by
  have hquotient : k ≤ num / den := (Nat.le_div_iff_mul_le hden).mpr h
  rcases divNearestEven_cases num den with ⟨hresult, _⟩ | ⟨hresult, _⟩
  · rwa [hresult]
  · rw [hresult]
    exact Nat.le_succ_of_le hquotient

theorem divNearestEven_le (hden : 0 < den) (h : num ≤ k * den) : divNearestEven num den ≤ k := by
  rcases divNearestEven_cases num den with ⟨hresult, _⟩ | ⟨hresult, hremainder⟩
  · rw [hresult]
    exact Nat.div_le_of_le_mul (by rwa [Nat.mul_comm])
  · -- a multiple of the divisor has no remainder to round up for
    rw [hresult, Nat.succ_le_iff, Nat.div_lt_iff_lt_mul hden]
    apply Nat.lt_of_le_of_ne h
    rintro rfl
    rw [Nat.mul_mod_left] at hremainder
    omega

theorem two_mul_divNearestEven_le (num den : Nat) :
    2 * (divNearestEven num den * den) ≤ 2 * num + den := by
  have hsplit := Nat.div_add_mod num den
  rw [Nat.mul_comm] at hsplit
  rcases divNearestEven_cases num den with ⟨hresult, _⟩ | ⟨hresult, hremainder⟩
  · rw [hresult]
    omega
  · rw [hresult, Nat.succ_mul (num / den) den]
    omega

end

/-! ## Spacings -/

theorem spacing_dvd_spacing {u v : Nat} (h : u.log2 ≤ v.log2) : spacing u ∣ spacing v :=
  Nat.pow_dvd_pow 2 (Nat.sub_le_sub_right h 52)

theorem spacing_dvd_two_pow (units : Nat) : spacing units ∣ 2 ^ units.log2 :=
  Nat.pow_dvd_pow 2 (Nat.sub_le _ _)

theorem log2_le_log2 {u v : Nat} (h : u ≤ v) : u.log2 ≤ v.log2 := by
  rcases Nat.eq_zero_or_pos u with rfl | hpos
  · rw [Nat.log2_zero]
    exact Nat.zero_le _
  · rw [Nat.le_log2 (Nat.lt_of_lt_of_le hpos h).ne']
    exact (Nat.log2_self_le hpos.ne').trans h

/-- A size is a whole number or wide enough for 53 bits. -/
theorem spacing_eq_one_or (units : Nat) :
    spacing units = 1 ∨ 2 ^ 52 * spacing units ≤ units := by
  rcases Nat.lt_or_ge units.log2 52 with hlt | hge
  · left
    rw [spacing, Nat.sub_eq_zero_of_le hlt.le, Nat.pow_zero]
  · right
    have hne : units ≠ 0 := by
      rintro rfl
      rw [Nat.log2_zero] at hge
      omega
    calc 2 ^ 52 * spacing units = 2 ^ units.log2 := by
          rw [spacing, ← Nat.pow_add, Nat.add_sub_cancel' hge]
      _ ≤ units := Nat.log2_self_le hne

/-! ## Rounding between doubles -/

section

variable {num den u : Nat}

theorem le_roundUnits_of_dvd (hden : 0 < den) (hdvd : spacing (num / den) ∣ u)
    (h : u * den ≤ num) : u ≤ roundUnits num den := by
  obtain ⟨k, rfl⟩ := hdvd
  rw [roundUnits_eq, Nat.mul_comm (spacing (num / den)) k]
  apply Nat.mul_le_mul_right
  apply le_divNearestEven (Nat.mul_pos hden (spacing_pos _))
  calc k * (den * spacing (num / den)) = spacing (num / den) * k * den := by ring
    _ ≤ num := h

theorem roundUnits_le_of_dvd (hden : 0 < den) (hdvd : spacing (num / den) ∣ u)
    (h : num ≤ u * den) : roundUnits num den ≤ u := by
  obtain ⟨k, rfl⟩ := hdvd
  rw [roundUnits_eq, Nat.mul_comm (spacing (num / den)) k]
  apply Nat.mul_le_mul_right
  apply divNearestEven_le (Nat.mul_pos hden (spacing_pos _))
  calc num ≤ spacing (num / den) * k * den := h
    _ = k * (den * spacing (num / den)) := by ring

theorem roundUnits_le (hden : 0 < den) (hu : Representable u) (h : num ≤ u * den) :
    roundUnits num den ≤ u := by
  have hquotient : num / den ≤ u := Nat.div_le_of_le_mul (by rwa [Nat.mul_comm])
  exact roundUnits_le_of_dvd hden
    ((spacing_dvd_spacing (log2_le_log2 hquotient)).trans (representable_iff.mp hu).2) h

theorem le_roundUnits (hden : 0 < den) (hu : Representable u) (h : u * den ≤ num) :
    u ≤ roundUnits num den := by
  have hquotient : u ≤ num / den := (Nat.le_div_iff_mul_le hden).mpr h
  rcases Nat.eq_or_lt_of_le (log2_le_log2 hquotient) with hsame | hbelow
  · have hdvd : spacing (num / den) ∣ spacing u := spacing_dvd_spacing hsame.ge
    exact le_roundUnits_of_dvd hden (hdvd.trans (representable_iff.mp hu).2) h
  · -- a power of two lies between, and every spacing below it divides it
    have hpos : num / den ≠ 0 := by
      intro hzero
      rw [hzero, Nat.log2_zero] at hbelow
      omega
    have hpower : 2 ^ (num / den).log2 * den ≤ num :=
      (Nat.mul_le_mul_right den (Nat.log2_self_le hpos)).trans (Nat.div_mul_le_self num den)
    calc u ≤ 2 ^ (u.log2 + 1) := Nat.lt_log2_self.le
      _ ≤ 2 ^ (num / den).log2 := Nat.pow_le_pow_right (by decide) hbelow
      _ ≤ roundUnits num den := le_roundUnits_of_dvd hden (spacing_dvd_two_pow _) hpower

theorem roundUnits_of_representable (hden : 0 < den) (hu : Representable u) :
    roundUnits (u * den) den = u :=
  Nat.le_antisymm (roundUnits_le hden hu (Nat.le_refl _)) (le_roundUnits hden hu (Nat.le_refl _))

theorem representable_roundUnits (hden : 0 < den) (h : roundUnits num den < 1 <<< 2098) :
    Representable (roundUnits num den) := by
  rw [representable_iff]
  refine ⟨h, ?_⟩
  have hupper : roundUnits num den ≤ 2 ^ ((num / den).log2 + 1) := by
    apply roundUnits_le_of_dvd hden
    · exact (spacing_dvd_two_pow _).trans (Nat.pow_dvd_pow 2 (Nat.le_succ _))
    · exact (Nat.lt_mul_of_div_lt Nat.lt_log2_self hden).le
  rcases Nat.eq_or_lt_of_le hupper with hcarry | hbelow
  · rw [hcarry]
    nth_rewrite 2 [← Nat.log2_two_pow (n := (num / den).log2 + 1)]
    exact spacing_dvd_two_pow _
  · have hlog : (roundUnits num den).log2 ≤ (num / den).log2 := by
      rcases Nat.eq_zero_or_pos (roundUnits num den) with hzero | hpos
      · rw [hzero, Nat.log2_zero]
        exact Nat.zero_le _
      · exact Nat.le_of_lt_succ ((Nat.log2_lt hpos.ne').mpr hbelow)
    apply (spacing_dvd_spacing hlog).trans
    rw [roundUnits_eq]
    exact Nat.dvd_mul_left _ _

/-- Rounding a whole number of units adds at most one part in `2⁵³`. -/
theorem roundUnits_error (hden : 0 < den) (u : Nat) :
    2 ^ 53 * roundUnits (u * den) den ≤ (2 ^ 53 + 1) * u := by
  have hquotient : u * den / den = u := Nat.mul_div_cancel u hden
  rcases spacing_eq_one_or u with hone | hwide
  · have hexact : roundUnits (u * den) den ≤ u := by
      apply roundUnits_le_of_dvd hden _ (Nat.le_refl _)
      rw [hquotient, hone]
      exact Nat.one_dvd u
    omega
  · have hhalf : 2 * roundUnits (u * den) den ≤ 2 * u + spacing u := by
      apply Nat.le_of_mul_le_mul_right _ hden
      have herror := two_mul_divNearestEven_le (u * den) (den * spacing u)
      rw [roundUnits_eq, hquotient]
      calc 2 * (divNearestEven (u * den) (den * spacing u) * spacing u) * den
          = 2 * (divNearestEven (u * den) (den * spacing u) * (den * spacing u)) := by ring
        _ ≤ 2 * (u * den) + den * spacing u := herror
        _ = (2 * u + spacing u) * den := by ring
    omega

end

theorem representable_mul_shiftLeft {m k : Nat} (hm : m ≤ 2 ^ 53) (hk : k ≤ 2044) :
    Representable (m * 1 <<< k) := by
  rw [representable_iff, Nat.one_shiftLeft k]
  constructor
  · calc m * 2 ^ k ≤ 2 ^ 53 * 2 ^ k := Nat.mul_le_mul_right _ hm
      _ = 2 ^ (53 + k) := (Nat.pow_add ..).symm
      _ < 2 ^ 2098 := Nat.pow_lt_pow_right (by decide) (by omega)
      _ = 1 <<< 2098 := (Nat.one_shiftLeft 2098).symm
  · rcases Nat.eq_or_lt_of_le hm with rfl | hlt
    · rw [← Nat.pow_add]
      nth_rewrite 2 [← Nat.log2_two_pow (n := 53 + k)]
      exact spacing_dvd_two_pow _
    · rcases Nat.eq_zero_or_pos m with rfl | hpos
      · rw [Nat.zero_mul]
        exact Nat.dvd_zero _
      · have hlog : (m * 2 ^ k).log2 < 53 + k := by
          rw [Nat.log2_lt (Nat.mul_pos hpos (Nat.two_pow_pos k)).ne', Nat.pow_add]
          exact Nat.mul_lt_mul_of_pos_right hlt (Nat.two_pow_pos k)
        exact (Nat.pow_dvd_pow 2 (by omega)).trans (Nat.dvd_mul_left _ _)

end LargeNeighborhood.Binary64
