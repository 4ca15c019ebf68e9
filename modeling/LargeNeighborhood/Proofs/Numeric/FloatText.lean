import LargeNeighborhood.Numeric.FloatText
import LargeNeighborhood.Proofs.Numeric.Decimal
import LargeNeighborhood.Proofs.Text.Digits

/-!
# The numerals of doubles

What a format writes for a finite double is a sign and a numeral: whole digits, digits after a point
and an exponent. With points kept, one of the last two is always there, so the text is never that of
an integer; and read as a decimal it is the double again.
-/

namespace LargeNeighborhood

/-- A numeral as it is written: its whole digits, the digits after its point and its exponent. -/
structure Numeral where
  whole : List Char
  fraction : List Char
  exponent : Option Int

namespace Numeral

def fractionChars (n : Numeral) : List Char :=
  if n.fraction.isEmpty then [] else '.' :: n.fraction

def exponentChars (n : Numeral) : List Char :=
  n.exponent.elim [] fun exponent => 'e' :: (toString exponent).toList

def chars (n : Numeral) : List Char :=
  n.whole ++ n.fractionChars ++ n.exponentChars

def decimal (n : Numeral) : Decimal :=
  ⟨ofDigits 10 (n.whole ++ n.fraction), n.exponent.getD 0 - n.fraction.length⟩

/-- The parts are digits, and something beside whole digits is written. -/
structure Valid (n : Numeral) : Prop where
  whole : WholeRun n.whole
  fraction : ∀ c ∈ n.fraction, c.isDigit = true
  marked : n.fraction ≠ [] ∨ n.exponent ≠ none

/-- A valid numeral with a text and a value. -/
structure Writes (n : Numeral) (text : List Char) (value : ℚ) : Prop extends n.Valid where
  chars_eq : n.chars = text
  value_eq : n.decimal.value = value

theorem writes_pointed {whole fraction : List Char} {value : ℚ} (hwhole : WholeRun whole)
    (hfraction : DigitRun fraction)
    (hvalue : Decimal.value ⟨ofDigits 10 (whole ++ fraction), -fraction.length⟩ = value) :
    Writes ⟨whole, fraction, none⟩ (whole ++ '.' :: fraction) value where
  whole := hwhole
  fraction := hfraction.isDigit
  marked := .inl hfraction.nonempty
  chars_eq := by
    rw [chars, fractionChars, if_neg (by rw [List.isEmpty_iff]; exact hfraction.nonempty)]
    exact List.append_nil _
  value_eq := by
    rw [← hvalue, decimal, Option.getD_none, Int.zero_sub]

end Numeral

theorem toList_toString_int (i : Int) :
    (toString i).toList = FloatText.sign (decide (i < 0)) ++ Nat.toDigits 10 i.natAbs := by
  cases i with
  | ofNat n =>
    have hnonneg : ¬ Int.ofNat n < 0 := by
      rw [Int.ofNat_eq_natCast]
      omega
    show (Nat.repr n).toList = _
    rw [decide_eq_false hnonneg, Nat.repr, String.toList_ofList]
    rfl
  | negSucc n =>
    show ("-" ++ Nat.repr (n + 1)).toList = _
    rw [decide_eq_true (Int.negSucc_lt_zero n), String.toList_append, Nat.repr,
      String.toList_ofList, String.toList_ofList]
    rfl

namespace FloatText

open Decimal

theorem digitRun_zero : DigitRun ['0'] where
  nonempty := List.cons_ne_nil _ _
  isDigit c hc := by
    rw [List.mem_singleton.mp hc]
    rfl

theorem wholeRun_zero : WholeRun ['0'] where
  toDigitRun := digitRun_zero
  leading _ := rfl

/-! ## Placing the point -/

section

variable {digits : List Char} (hdigits : DigitRun digits) (hlead : digits.head? ≠ some '0')
  (exponent : Int)

include hdigits hlead

theorem writes_filled (zeros : Nat) :
    Numeral.Writes ⟨digits ++ List.replicate zeros '0', ['0'], none⟩
      (digits ++ List.replicate zeros '0' ++ ['.', '0']) (value ⟨ofDigits 10 digits, zeros⟩) := by
  apply Numeral.writes_pointed _ digitRun_zero
  · have hzero : ofDigits 10 ['0'] = 0 := rfl
    simp only [value, ofDigits_append, ofDigits_replicate_zero, List.length_replicate,
      List.length_singleton, hzero]
    push_cast
    rw [zpow_natCast, zpow_neg_one]
    ring
  · refine ⟨hdigits.append (isDigit_replicate_zero _), fun hzero => absurd hzero ?_⟩
    rw [List.head?_append, Option.or_of_isSome (List.isSome_head?.mpr hdigits.nonempty)]
    exact hlead

theorem writes_split {point : Nat} (hpos : 0 < point) (hlt : point < digits.length) :
    Numeral.Writes ⟨digits.take point, digits.drop point, none⟩
      (digits.take point ++ '.' :: digits.drop point)
      (value ⟨ofDigits 10 digits, point - digits.length⟩) := by
  apply Numeral.writes_pointed
  · refine ⟨⟨?_, fun c hc => hdigits.isDigit c (List.mem_of_mem_take hc)⟩,
      fun hzero => absurd hzero ?_⟩
    · rw [Ne, List.take_eq_nil_iff]
      rintro (hnone | hnil)
      · omega
      · exact hdigits.nonempty hnil
    · rwa [List.head?_take, if_neg hpos.ne']
  · refine ⟨?_, fun c hc => hdigits.isDigit c (List.mem_of_mem_drop hc)⟩
    rw [Ne, List.drop_eq_nil_iff]
    omega
  · have hexponent : -((digits.drop point).length : Int) = point - digits.length := by
      rw [List.length_drop]
      omega
    rw [List.take_append_drop, hexponent]

omit hlead in
theorem writes_small (zeros : Nat) :
    Numeral.Writes ⟨['0'], List.replicate zeros '0' ++ digits, none⟩
      ('0' :: '.' :: List.replicate zeros '0' ++ digits)
      (value ⟨ofDigits 10 digits, -(zeros + digits.length : Nat)⟩) := by
  apply Numeral.writes_pointed wholeRun_zero
  · refine ⟨List.append_ne_nil_of_right_ne_nil _ hdigits.nonempty, fun c hc => ?_⟩
    exact (List.mem_append.mp hc).elim (isDigit_replicate_zero zeros c) (hdigits.isDigit c)
  · have hzero : ofDigits 10 ['0'] = 0 := rfl
    rw [ofDigits_append, ofDigits_append, ofDigits_replicate_zero, hzero, Nat.zero_mul,
      Nat.zero_mul, Nat.zero_add, Nat.zero_add, List.length_append, List.length_replicate]

theorem exists_writes_placePoint :
    ∃ m : Numeral, m.exponent = none ∧ m.Writes (placePoint true digits (digits.length + exponent))
      (value ⟨ofDigits 10 digits, exponent⟩) := by
  rw [placePoint]
  split
  case isTrue hwhole =>
    obtain ⟨zeros, rfl⟩ := Int.eq_ofNat_of_zero_le (a := exponent) (by omega)
    have hzeros : (digits.length + zeros : Int).toNat - digits.length = zeros := by omega
    rw [hzeros]
    exact ⟨_, rfl, writes_filled hdigits hlead zeros⟩
  case isFalse hpoint =>
    split
    case isTrue hpos =>
      obtain ⟨point, hplace⟩ := Int.eq_ofNat_of_zero_le hpos.le
      have hexponent : exponent = point - digits.length := by omega
      rw [hplace] at hpos hpoint ⊢
      rw [hexponent]
      exact ⟨_, rfl, writes_split hdigits hlead (by omega) (by omega)⟩
    case isFalse hsmall =>
      obtain ⟨zeros, hplace⟩ :=
        Int.eq_ofNat_of_zero_le (a := -(digits.length + exponent)) (by omega)
      have hexponent : exponent = -(zeros + digits.length : Nat) := by omega
      rw [hplace, Int.toNat_natCast, hexponent]
      exact ⟨_, rfl, writes_small hdigits zeros⟩

theorem exists_writes_withExponent :
    ∃ m : Numeral, m.Writes (withExponent digits (digits.length + exponent))
      (value ⟨ofDigits 10 digits, exponent⟩) := by
  obtain ⟨first, rest, rfl⟩ := List.exists_cons_of_ne_nil hdigits.nonempty
  have hwhole : WholeRun [first] := by
    refine ⟨⟨List.cons_ne_nil _ _, fun c hc => hdigits.isDigit c ?_⟩,
      fun hzero => absurd hzero hlead⟩
    rw [List.mem_singleton.mp hc]
    exact List.mem_cons_self
  refine ⟨⟨[first], rest, some ((first :: rest).length + exponent - 1)⟩, ⟨hwhole, ?_, .inr ?_⟩,
    ?_, ?_⟩
  · exact fun c hc => hdigits.isDigit c (List.mem_cons_of_mem _ hc)
  · exact Option.some_ne_none _
  · cases rest <;>
      simp [withExponent, Numeral.chars, Numeral.fractionChars, Numeral.exponentChars]
  · have hexponent : ((first :: rest).length + exponent - 1 - rest.length : Int) = exponent := by
      rw [List.length_cons]
      push_cast
      omega
    rw [Numeral.decimal, List.singleton_append, Option.getD_some, hexponent]

end

/-! ## Finite doubles -/

theorem exists_writes_magnitude (format : FloatText) (hpointed : format.pointed = true)
    {units : Nat} (representable : Binary64.Representable units) (hpos : 0 < units) :
    ∃ m : Numeral, (format.positional = none → m.exponent = none) ∧
      m.Writes (format.magnitude units) (shortest format.tie units).value := by
  have hdigits := shortest_digits_pos format.tie representable hpos
  rw [magnitude, hpointed]
  generalize shortest format.tie units = d at hdigits ⊢
  obtain ⟨digits, exponent⟩ := d
  have hvalue : digits = ofDigits 10 (Nat.toDigits 10 digits) := (ofDigits_toDigits digits).symm
  have hrun := digitRun_toDigits digits
  have hlead : (Nat.toDigits 10 digits).head? ≠ some '0' := head?_toDigits_ne hdigits
  obtain ⟨m, hexponent, hplaced⟩ := exists_writes_placePoint hrun hlead exponent
  rw [← hvalue] at hplaced
  cases hpositional : format.positional with
  | none => exact ⟨m, fun _ => hexponent, hplaced⟩
  | some range =>
    obtain ⟨least, greatest⟩ := range
    dsimp only
    split
    case isTrue => exact ⟨m, fun _ => hexponent, hplaced⟩
    case isFalse =>
      obtain ⟨m', hwritten⟩ := exists_writes_withExponent hrun hlead exponent
      rw [← hvalue] at hwritten
      exact ⟨m', fun hnone => absurd hnone (Option.some_ne_none _), hwritten⟩

/-- A finite double is written as a sign and a numeral that is read as the double. -/
theorem exists_numeral (format : FloatText) (hpointed : format.pointed = true) (negative : Bool)
    {units : Nat} (representable : Binary64.Representable units) :
    ∃ m : Numeral, m.Valid ∧ (format.positional = none → m.exponent = none) ∧
      format.chars (.finite negative units representable) = sign negative ++ m.chars ∧
      Binary64.ofDecimal negative m.decimal = .finite negative units representable := by
  rw [chars]
  split
  case isTrue hzero =>
    subst hzero
    have hwritten : Numeral.Writes ⟨['0'], ['0'], none⟩ ['0', '.', '0'] (value ⟨0, -1⟩) :=
      Numeral.writes_pointed wholeRun_zero digitRun_zero rfl
    rw [hpointed]
    refine ⟨_, hwritten.toValid, fun _ => rfl, by rw [hwritten.chars_eq]; rfl, ?_⟩
    rw [ofDecimal_congr hwritten.value_eq, Binary64.ofDecimal, if_pos rfl, Binary64.ofRatio,
      Nat.zero_mul]
    exact dif_pos representable
  case isFalse hne =>
    obtain ⟨m, hexponent, hwritten⟩ :=
      exists_writes_magnitude format hpointed representable (Nat.pos_of_ne_zero hne)
    refine ⟨m, hwritten.toValid, hexponent, by rw [hwritten.chars_eq], ?_⟩
    rw [ofDecimal_congr hwritten.value_eq, ofDecimal_shortest format.tie representable]

end FloatText

end LargeNeighborhood
