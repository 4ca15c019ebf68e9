import LargeNeighborhood.Proofs.BitSet.Word

/-!
# Membership in a bit set

Marking and clearing are set operations on the indices below the capacity. A set is tidy if no bit
is set beyond its capacity; tidy sets are determined by their elements, and every operation keeps
a set tidy.
-/

namespace LargeNeighborhood.BitSet

/-- Bit `i` of some words; beyond the last word no bit is set. -/
def wordBit (words : Array UInt64) (i : Nat) : Bool :=
  (words[i / 64]?).any (bit · (i % 64))

/-- No bit at or beyond the capacity is set. -/
def Tidy (s : BitSet) : Prop :=
  ∀ i, s.capacity ≤ i → wordBit s.words i = false

theorem contains_eq_wordBit (s : BitSet) (i : Nat) :
    s.contains i = (decide (i < s.capacity) && wordBit s.words i) := by
  unfold contains wordBit
  by_cases hi : i < s.capacity
  · rw [dif_pos hi, Array.getElem?_eq_getElem (index_lt_size hi)]
    simp [hi]
  · simp [hi]

theorem lt_capacity_of_contains {s : BitSet} {i : Nat} (h : s.contains i = true) :
    i < s.capacity := by
  rw [contains_eq_wordBit] at h
  simp at h
  exact h.1

theorem Tidy.wordBit_eq {s : BitSet} (h : s.Tidy) (i : Nat) :
    wordBit s.words i = s.contains i := by
  rw [contains_eq_wordBit]
  by_cases hi : i < s.capacity
  · simp [hi]
  · rw [h i (by omega), Bool.and_false]

/-! ## The operations, bit by bit -/

theorem wordBit_empty (capacity i : Nat) : wordBit (empty capacity).words i = false := by
  unfold wordBit empty
  simp [Array.getElem?_replicate]
  split <;> simp

theorem wordBit_clear (s : BitSet) (i : Nat) : wordBit s.clear.words i = false := by
  unfold wordBit clear
  cases h : s.words[i / 64]? <;> simp [h]

theorem getElem?_markWords (first stop : Nat) (touched : List Nat) (words : Array UInt64)
    (w : Nat) :
    (markWords first stop touched words)[w]? =
      if w ∈ touched then words[w]?.map (· ||| wordMask first stop w) else words[w]? := by
  induction touched generalizing words with
  | nil => simp [markWords]
  | cons v touched ih =>
    simp only [markWords, List.foldl_cons] at ih ⊢
    rw [ih, Array.getElem?_modify]
    by_cases hv : v = w
    · subst v
      cases words[w]? <;> simp [UInt64.or_assoc]
    · simp [hv, Ne.symm hv]

theorem wordBit_markRange (s : BitSet) (first stop i : Nat) :
    wordBit (s.markRange first stop).words i =
      (wordBit s.words i || decide (first ≤ i ∧ i < stop ∧ i < s.capacity)) := by
  have hi : i % 64 < 64 := Nat.mod_lt _ (by decide)
  have hsplit : 64 * (i / 64) + i % 64 = i := Nat.div_add_mod i 64
  unfold markRange
  by_cases hrange : first < min stop s.capacity
  · simp only [if_pos hrange, wordBit, getElem?_markWords, List.mem_range'_1]
    by_cases hin : i / 64 < s.words.size
    · rw [Array.getElem?_eq_getElem hin]
      by_cases htouched : first / 64 ≤ i / 64 ∧
          i / 64 < first / 64 + ((min stop s.capacity - 1) / 64 + 1 - first / 64)
      · rw [if_pos htouched]
        simp only [Option.map_some, Option.any_some, bit_or _ _ hi, bit_wordMask _ _ _ hi, hsplit]
        congr 1
        rw [decide_eq_decide]
        omega
      · rw [if_neg htouched, eq_comm, Bool.or_eq_left_iff_imp, decide_eq_true_eq]
        omega
    · have hsize := s.size_words
      rw [Array.getElem?_eq_none (by omega)]
      simp
      omega
  · simp only [if_neg hrange]
    rw [eq_comm, Bool.or_eq_left_iff_imp, decide_eq_true_eq]
    omega

theorem wordBit_clearBit (s : BitSet) (j i : Nat) :
    wordBit (s.clearBit j).words i =
      (wordBit s.words i && decide (i ≠ j ∨ s.capacity ≤ j)) := by
  have hi : i % 64 < 64 := Nat.mod_lt _ (by decide)
  unfold clearBit
  by_cases hj : j < s.capacity
  · simp only [if_pos hj, wordBit, Array.getElem?_modify]
    by_cases hword : j / 64 = i / 64
    · rw [if_pos hword]
      cases s.words[i / 64]? with
      | none => simp
      | some word =>
        simp only [Option.map_some, Option.any_some,
          bit_clearMask word (Nat.mod_lt j (by decide)) hi]
        congr 1
        rw [decide_eq_decide]
        omega
    · rw [if_neg hword, decide_eq_true (by omega), Bool.and_true]
  · simp only [if_neg hj]
    rw [decide_eq_true (by omega), Bool.and_true]

/-! ## Membership after an operation -/

@[simp] theorem capacity_empty (capacity : Nat) : (empty capacity).capacity = capacity := rfl

@[simp] theorem capacity_clear (s : BitSet) : s.clear.capacity = s.capacity := rfl

@[simp] theorem capacity_markRange (s : BitSet) (first stop : Nat) :
    (s.markRange first stop).capacity = s.capacity := by
  unfold markRange
  dsimp only
  split <;> rfl

@[simp] theorem capacity_clearBit (s : BitSet) (i : Nat) :
    (s.clearBit i).capacity = s.capacity := by
  unfold clearBit
  split <;> rfl

@[simp] theorem contains_empty (capacity i : Nat) : (empty capacity).contains i = false := by
  rw [contains_eq_wordBit, wordBit_empty, Bool.and_false]

@[simp] theorem contains_clear (s : BitSet) (i : Nat) : s.clear.contains i = false := by
  rw [contains_eq_wordBit, wordBit_clear, Bool.and_false]

theorem contains_markRange (s : BitSet) (first stop i : Nat) :
    (s.markRange first stop).contains i =
      (s.contains i || decide (first ≤ i ∧ i < stop ∧ i < s.capacity)) := by
  rw [contains_eq_wordBit, contains_eq_wordBit, wordBit_markRange, capacity_markRange,
    Bool.and_or_distrib_left]
  congr 1
  rw [← Bool.decide_and, decide_eq_decide]
  omega

theorem contains_clearBit (s : BitSet) (j i : Nat) :
    (s.clearBit j).contains i = (s.contains i && decide (i ≠ j)) := by
  rw [contains_eq_wordBit, contains_eq_wordBit, wordBit_clearBit, capacity_clearBit]
  by_cases hi : i < s.capacity
  · rw [Bool.and_assoc]
    congr 2
    rw [decide_eq_decide]
    omega
  · simp [hi]

/-! ## Tidy sets -/

theorem tidy_empty (capacity : Nat) : (empty capacity).Tidy :=
  fun i _ => wordBit_empty capacity i

theorem tidy_clear (s : BitSet) : s.clear.Tidy :=
  fun i _ => wordBit_clear s i

theorem Tidy.markRange {s : BitSet} (h : s.Tidy) (first stop : Nat) :
    (s.markRange first stop).Tidy := by
  intro i hi
  rw [capacity_markRange] at hi
  rw [wordBit_markRange, h i hi, Bool.false_or, decide_eq_false_iff_not]
  omega

theorem Tidy.clearBit {s : BitSet} (h : s.Tidy) (j : Nat) : (s.clearBit j).Tidy := by
  intro i hi
  rw [capacity_clearBit] at hi
  rw [wordBit_clearBit, h i hi, Bool.false_and]

/-- Tidy sets of one capacity with the same elements are equal. -/
theorem Tidy.ext {s t : BitSet} (hs : s.Tidy) (ht : t.Tidy) (hcapacity : s.capacity = t.capacity)
    (h : ∀ i < s.capacity, s.contains i = t.contains i) : s = t := by
  have hsize : s.words.size = t.words.size := by
    rw [s.size_words, t.size_words, hcapacity]
  have hbits : ∀ i, wordBit s.words i = wordBit t.words i := by
    intro i
    by_cases hi : i < s.capacity
    · rw [hs.wordBit_eq, ht.wordBit_eq, h i hi]
    · rw [hs i (by omega), ht i (by omega)]
  have hwords : s.words = t.words := by
    apply Array.ext hsize
    intro w hws hwt
    apply word_ext
    intro i hi
    have hdiv : (64 * w + i) / 64 = w := by omega
    have hmod : (64 * w + i) % 64 = i := by omega
    have hbit := hbits (64 * w + i)
    rw [wordBit, wordBit, hdiv, hmod, Array.getElem?_eq_getElem hws,
      Array.getElem?_eq_getElem hwt] at hbit
    exact hbit
  cases s
  cases t
  simp_all

end LargeNeighborhood.BitSet
