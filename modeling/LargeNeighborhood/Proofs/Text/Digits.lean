import LargeNeighborhood.Text.Digits
import Mathlib.Algebra.Order.Ring.Nat
import Mathlib.Data.List.Induction
import Mathlib.Tactic.Ring

/-!
# Decimal digits

The digits of a number are read as that number, and the first of them is a zero only if there are
no others.
-/

namespace LargeNeighborhood

variable {base d n : Nat} {c : Char}

/-! ## Single digits -/

theorem isDigitOf_ten (c : Char) : isDigitOf 10 c = c.isDigit := by
  have hdigit : c.isDigit = true ↔ '0' ≤ c ∧ c ≤ '9' := by
    rw [Char.isDigit_iff_toNat]
    exact Iff.rfl
  rw [Bool.eq_iff_iff, hdigit, isDigitOf, digit?, hexDigit?]
  split
  case isTrue h =>
    have hlow : '0'.toNat ≤ c.toNat := h.1
    have hhigh : c.toNat ≤ '9'.toNat := h.2
    have hten : c.toNat - '0'.toNat < 10 := by
      have hzero : '0'.toNat = 48 := rfl
      have hnine : '9'.toNat = 57 := rfl
      omega
    rw [Option.filter_some, if_pos (decide_eq_true hten)]
    simp [h]
  case isFalse h => split <;> (try split) <;> simp [h]

theorem digit?_digitChar (h : d < 10) : digit? 10 d.digitChar = some d := by
  have hsize : d.digitChar.toNat = 48 + d := Nat.toNat_digitChar_of_lt_ten h
  have hrange : '0' ≤ d.digitChar ∧ d.digitChar ≤ '9' := by
    have hdigit : d.digitChar.isDigit = true := by rw [Nat.isDigit_digitChar, decide_eq_true h]
    exact Char.isDigit_iff_toNat.mp hdigit
  have hvalue : d.digitChar.toNat - '0'.toNat = d := by
    rw [hsize]
    exact Nat.add_sub_cancel_left 48 d
  rw [digit?, hexDigit?, if_pos hrange, hvalue]
  simp [h]

/-! ## Runs of digits -/

structure DigitRun (cs : List Char) : Prop where
  nonempty : cs ≠ []
  isDigit : ∀ c ∈ cs, c.isDigit = true

/-- The digits of a whole number: no zero stands before others. -/
structure WholeRun (cs : List Char) : Prop extends DigitRun cs where
  leading : cs.head? = some '0' → cs = ['0']

theorem DigitRun.digits?_eq {cs : List Char} (h : DigitRun cs) :
    digits? 10 cs = some (ofDigits 10 cs) := by
  have hall : cs.all (isDigitOf 10) = true := by
    rw [List.all_eq_true]
    intro c hc
    rw [isDigitOf_ten, h.isDigit c hc]
  rw [digits?, hall, if_pos]
  simp [h.nonempty]

theorem DigitRun.append {xs ys : List Char} (hx : DigitRun xs) (hy : ∀ c ∈ ys, c.isDigit = true) :
    DigitRun (xs ++ ys) where
  nonempty := List.append_ne_nil_of_left_ne_nil hx.nonempty ys
  isDigit c hc := (List.mem_append.mp hc).elim (hx.isDigit c) (hy c)

theorem isDigit_replicate_zero (k : Nat) : ∀ c ∈ List.replicate k '0', c.isDigit = true := by
  intro c hc
  rw [List.eq_of_mem_replicate hc]
  rfl

/-! ## The value of digits -/

theorem ofDigits_concat (base : Nat) (cs : List Char) (c : Char) :
    ofDigits base (cs ++ [c]) = ofDigits base cs * base + (digit? base c).getD 0 := by
  rw [ofDigits, List.foldl_append, List.foldl_cons, List.foldl_nil, ofDigits]

theorem ofDigits_append (base : Nat) (xs ys : List Char) :
    ofDigits base (xs ++ ys) = ofDigits base xs * base ^ ys.length + ofDigits base ys := by
  induction ys using List.reverseRecOn with
  | nil =>
    rw [List.append_nil, List.length_nil, Nat.pow_zero, Nat.mul_one]
    rfl
  | append_singleton ys c ih =>
    rw [← List.append_assoc, ofDigits_concat, ofDigits_concat, ih, List.length_append,
      List.length_singleton]
    ring

theorem ofDigits_replicate_zero (base k : Nat) : ofDigits base (List.replicate k '0') = 0 := by
  have hzero : (digit? base '0').getD 0 = 0 := by
    cases h : digit? base '0' with
    | none => rfl
    | some v =>
      have hsome : some 0 = some v := (Option.filter_eq_some_iff.mp h).1
      injection hsome with hsome
      exact hsome.symm
  induction k with
  | zero => rfl
  | succ k ih => rw [List.replicate_succ', ofDigits_concat, ih, hzero, Nat.zero_mul]

/-- The digits of a number are read as that number. -/
theorem ofDigits_toDigits (n : Nat) : ofDigits 10 (Nat.toDigits 10 n) = n := by
  induction n using Nat.strongRecOn with
  | ind n ih =>
    have hsingle (d : Nat) (hd : d < 10) : ofDigits 10 [d.digitChar] = d := by
      rw [← List.nil_append [d.digitChar], ofDigits_concat, digit?_digitChar hd, Option.getD_some]
      exact Nat.zero_add d
    rw [Nat.toDigits_eq_if (by decide)]
    split
    case isTrue h => exact hsingle n h
    case isFalse h =>
      rw [ofDigits_append, ih (n / 10) (by omega), hsingle (n % 10) (Nat.mod_lt n (by decide)),
        List.length_singleton, Nat.pow_one]
      omega

theorem digitRun_toDigits (n : Nat) : DigitRun (Nat.toDigits 10 n) where
  nonempty := Nat.toDigits_ne_nil
  isDigit _ hc := Nat.isDigit_of_mem_toDigits (by decide) (by decide) hc

theorem head?_toDigits_ne (h : 0 < n) : (Nat.toDigits 10 n).head? ≠ some '0' := by
  induction n using Nat.strongRecOn with
  | ind n ih =>
    rw [Nat.toDigits_eq_if (by decide)]
    split
    case isTrue hlt =>
      intro hhead
      injection hhead with hzero
      have hsize : n.digitChar.toNat = 48 + n := Nat.toNat_digitChar_of_lt_ten hlt
      rw [hzero] at hsize
      have hzeroSize : '0'.toNat = 48 := rfl
      omega
    case isFalse hge =>
      rw [List.head?_append, Option.or_of_isSome (List.isSome_head?.mpr Nat.toDigits_ne_nil)]
      exact ih (n / 10) (by omega) (by omega)

theorem wholeRun_toDigits (n : Nat) : WholeRun (Nat.toDigits 10 n) where
  toDigitRun := digitRun_toDigits n
  leading hzero := by
    rcases Nat.eq_zero_or_pos n with rfl | hpos
    · rfl
    · exact absurd hzero (head?_toDigits_ne hpos)

end LargeNeighborhood
