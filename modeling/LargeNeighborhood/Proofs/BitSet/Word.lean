import LargeNeighborhood.BitSet
import Mathlib.Data.Nat.Bitwise

/-!
# The bits of a word

Every word operation of a bit set as an equation between single bits, and the scan for the lowest
bit as a search among the bits.
-/

namespace LargeNeighborhood.BitSet

theorem bit_eq_getLsbD (word : UInt64) {i : Nat} (hi : i < 64) :
    bit word i = word.toBitVec.getLsbD i := by
  have hone : ∀ x : UInt64, ((x &&& 1) != 0) = x.toBitVec.getLsbD 0 := by
    intro x
    rw [Bool.eq_iff_iff, bne_iff_ne, ne_eq, ← UInt64.toNat_inj, UInt64.toNat_and]
    simp [BitVec.getLsbD, Nat.testBit_zero]
  rw [bit, hone]
  simp [Nat.mod_eq_of_lt hi]

@[simp] theorem bit_zero (i : Nat) : bit 0 i = false := by
  simp [bit]

theorem bit_or (a b : UInt64) {i : Nat} (hi : i < 64) :
    bit (a ||| b) i = (bit a i || bit b i) := by
  simp [bit_eq_getLsbD _ hi]

theorem bit_and (a b : UInt64) {i : Nat} (hi : i < 64) :
    bit (a &&& b) i = (bit a i && bit b i) := by
  simp [bit_eq_getLsbD _ hi]

theorem bit_not (a : UInt64) {i : Nat} (hi : i < 64) : bit (~~~a) i = !bit a i := by
  simp [bit_eq_getLsbD _ hi, hi]

theorem bit_ones {i : Nat} (hi : i < 64) : bit 0xffffffffffffffff i = true := by
  have hones : (0xffffffffffffffff : UInt64) = ~~~0 := by decide
  rw [hones, bit_not _ hi, bit_zero, Bool.not_false]

theorem bit_one {i : Nat} (hi : i < 64) : bit 1 i = decide (i = 0) := by
  simp [bit_eq_getLsbD _ hi]

theorem bit_shiftLeft (a : UInt64) {j i : Nat} (hj : j < 64) (hi : i < 64) :
    bit (a <<< UInt64.ofNat j) i = (decide (j ≤ i) && bit a (i - j)) := by
  have hsub : i - j < 64 := by omega
  rw [bit_eq_getLsbD _ hi, bit_eq_getLsbD _ hsub]
  simp [Nat.mod_eq_of_lt hj, hi, hsub, ← decide_not]

theorem bit_shiftRight (a : UInt64) {j i : Nat} (hj : j < 64) (hi : i < 64) :
    bit (a >>> UInt64.ofNat j) i = (decide (i + j < 64) && bit a (i + j)) := by
  by_cases hlt : i + j < 64
  · rw [bit_eq_getLsbD _ hi, bit_eq_getLsbD _ hlt]
    simp [Nat.mod_eq_of_lt hj, Nat.add_comm j i, hlt]
  · rw [bit_eq_getLsbD _ hi]
    simp [Nat.mod_eq_of_lt hj, hlt]
    exact BitVec.getLsbD_of_ge _ _ (by omega)

/-- A mask has the bits of its word that lie in the range. -/
theorem bit_wordMask (first stop w : Nat) {i : Nat} (hi : i < 64) :
    bit (wordMask first stop w) i = decide (first ≤ 64 * w + i ∧ 64 * w + i < stop) := by
  rw [wordMask]
  generalize hlow : first - 64 * w = low
  generalize hhigh : min 64 (stop - 64 * w) = high
  by_cases hlt : low < high
  · rw [if_pos hlt, bit_shiftLeft _ (by omega) hi, bit_shiftRight _ (by omega) (by omega)]
    by_cases hin : i - low + (64 - (high - low)) < 64
    · rw [bit_ones hin, Bool.and_true, ← Bool.decide_and, decide_eq_decide]
      omega
    · rw [decide_eq_false hin, Bool.false_and, Bool.and_false, eq_comm, decide_eq_false_iff_not]
      omega
  · rw [if_neg hlt, bit_zero, eq_comm, decide_eq_false_iff_not]
    omega

theorem bit_clearMask (word : UInt64) {j i : Nat} (hj : j < 64) (hi : i < 64) :
    bit (word &&& ~~~(1 <<< UInt64.ofNat j)) i = (bit word i && decide (i ≠ j)) := by
  rw [bit_and _ _ hi, bit_not _ hi, bit_shiftLeft _ hj hi, bit_one (by omega), ← Bool.decide_and,
    ← decide_not]
  congr 1
  rw [decide_eq_decide]
  omega

theorem bit_scanMask (word : UInt64) {j i : Nat} (hj : j < 64) (hi : i < 64) :
    bit (word &&& (0xffffffffffffffff <<< UInt64.ofNat j)) i = (bit word i && decide (j ≤ i)) := by
  rw [bit_and _ _ hi, bit_shiftLeft _ hj hi, bit_ones (by omega), Bool.and_true]

theorem word_ext {a b : UInt64} (h : ∀ i < 64, bit a i = bit b i) : a = b := by
  rw [← UInt64.toBitVec_inj]
  apply BitVec.eq_of_getLsbD_eq
  intro i hi
  rw [← bit_eq_getLsbD _ hi, ← bit_eq_getLsbD _ hi]
  exact h i hi

theorem exists_bit_of_ne_zero {word : UInt64} (h : word ≠ 0) : ∃ i < 64, bit word i = true := by
  by_contra hnone
  apply h
  apply word_ext
  intro i hi
  rw [bit_zero]
  by_contra hbit
  exact hnone ⟨i, hi, by simpa using hbit⟩

theorem lowestBit_lt {word : UInt64} (h : word ≠ 0) : lowestBit word < 64 := by
  obtain ⟨i, hi, hbit⟩ := exists_bit_of_ne_zero h
  have hlt : (List.range 64).findIdx (bit word) < (List.range 64).length :=
    List.findIdx_lt_length_of_exists ⟨i, by simpa using hi, hbit⟩
  simpa [lowestBit] using hlt

theorem bit_lowestBit {word : UInt64} (h : word ≠ 0) : bit word (lowestBit word) = true := by
  have hlt : (List.range 64).findIdx (bit word) < (List.range 64).length := by
    simpa [lowestBit] using lowestBit_lt h
  have hbit := List.findIdx_getElem (w := hlt)
  simpa [lowestBit] using hbit

theorem bit_eq_false_of_lt_lowestBit {word : UInt64} {i : Nat} (h : i < lowestBit word) :
    bit word i = false := by
  have hbit := List.not_of_lt_findIdx h
  simpa using hbit

end LargeNeighborhood.BitSet
