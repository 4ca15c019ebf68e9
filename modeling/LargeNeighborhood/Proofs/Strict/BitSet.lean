import LargeNeighborhood.Fault
import LargeNeighborhood.Proofs.BitSet.Scan

/-!
# Strict bit sets

The operations of a bit set once more, with every access to a word, every shift and every sum and
difference checked on the way. None of the checks fails, whatever the arguments: the strict
operations give what the operations give. Scans need a capacity that is a 64-bit integer, counts a
number of bits that is one.
-/

namespace LargeNeighborhood.Strict

/-! ## Checked steps -/

def sub (a b : Nat) : Checked Nat :=
  if b ≤ a then .ok (a - b) else .error .overflow

def subWord (a b : UInt64) : Checked UInt64 :=
  if b ≤ a then .ok (a - b) else .error .overflow

/-- A word moved by fewer places than it has. -/
def shiftLeft (word : UInt64) (places : Nat) : Checked UInt64 :=
  if places < 64 then .ok (word <<< UInt64.ofNat places) else .error .overflow

def modify (xs : Array α) (i : Nat) (f : α → α) : Checked (Array α) :=
  if i < xs.size then .ok (xs.modify i f) else .error .indexOutOfBounds

def ofWords (capacity : Nat) (words : Array UInt64) : Checked BitSet :=
  if h : words.size = (capacity + 63) / 64 then .ok ⟨capacity, words, h⟩
  else .error .lengthMismatch

theorem sub_eq {a b : Nat} (h : b ≤ a) : sub a b = .ok (a - b) :=
  if_pos h

theorem shiftLeft_eq (word : UInt64) {places : Nat} (h : places < 64) :
    shiftLeft word places = .ok (word <<< UInt64.ofNat places) :=
  if_pos h

theorem modify_eq {xs : Array α} {i : Nat} (h : i < xs.size) (f : α → α) :
    modify xs i f = .ok (xs.modify i f) :=
  if_pos h

theorem word_eq {n : Nat} (h : n < UInt64.size) : Checked.word n = .ok n :=
  if_pos h

theorem ofWords_words (s : BitSet) : ofWords s.capacity s.words = .ok s :=
  dif_pos s.size_words

/-! ## Masks -/

def wordMask (first stop w : Nat) : Checked UInt64 := do
  let last ← sub stop 1
  let low := if w = first / 64 then first % 64 else 0
  let high := if w = last / 64 then last % 64 + 1 else 64
  let width ← sub high low
  if width = 64 then
    return 0xffffffffffffffff
  else
    let above ← shiftLeft 1 width
    shiftLeft (← subWord above 1) low

/-- The lowest bits of a word, by a shift to the left and by one to the right. -/
theorem lowestBits_eq : ∀ width < 64, 0 < width →
    (1 : UInt64) ≤ 1 <<< UInt64.ofNat width ∧
      (1 <<< UInt64.ofNat width) - 1 =
        (0xffffffffffffffff : UInt64) >>> UInt64.ofNat (64 - width) := by
  decide

theorem shiftRight_zero (word : UInt64) : word >>> UInt64.ofNat 0 = word :=
  UInt64.shiftRight_zero

theorem wordMask_eq {first stop w : Nat} (hrange : first < stop) (hfirst : first / 64 ≤ w)
    (hlast : w ≤ (stop - 1) / 64) :
    wordMask first stop w = .ok (BitSet.wordMask first stop w) := by
  have hlow : (if w = first / 64 then first % 64 else 0) = first - 64 * w := by
    split <;> omega
  have hhigh : (if w = (stop - 1) / 64 then (stop - 1) % 64 + 1 else 64) =
      min 64 (stop - 64 * w) := by
    split <;> omega
  have hlt : first - 64 * w < min 64 (stop - 64 * w) := by
    omega
  unfold wordMask BitSet.wordMask
  rw [sub_eq (by omega), Checked.ok_bind]
  simp only [hlow, hhigh]
  generalize first - 64 * w = low at *
  have hhigh64 : min 64 (stop - 64 * w) ≤ 64 := Nat.min_le_left _ _
  generalize min 64 (stop - 64 * w) = high at *
  rw [sub_eq (by omega), Checked.ok_bind, if_pos hlt]
  by_cases hwidth : high - low = 64
  · rw [if_pos hwidth, hwidth, Nat.sub_self, shiftRight_zero, show low = 0 by omega]
    rfl
  · obtain ⟨hone, hbits⟩ := lowestBits_eq (high - low) (by omega) (by omega)
    have hbelow : subWord (1 <<< UInt64.ofNat (high - low)) 1 = .ok _ := if_pos hone
    rw [if_neg hwidth, shiftLeft_eq _ (by omega), Checked.ok_bind, hbelow, Checked.ok_bind,
      shiftLeft_eq _ (by omega), hbits]

/-! ## Marking and clearing -/

def markWords (first stop : Nat) : List Nat → Array UInt64 → Checked (Array UInt64)
  | [], words => return words
  | w :: touched, words => do
    let mask ← wordMask first stop w
    markWords first stop touched (← modify words w (· ||| mask))

def markRange (s : BitSet) (first stop : Nat) : Checked BitSet := do
  let stop := min stop s.capacity
  if first < stop then
    let touched := List.range' (first / 64) ((stop - 1) / 64 + 1 - first / 64)
    ofWords s.capacity (← markWords first stop touched s.words)
  else
    return s

def clearBit (s : BitSet) (i : Nat) : Checked BitSet := do
  if i < s.capacity then
    let mask ← shiftLeft 1 (i % 64)
    ofWords s.capacity (← modify s.words (i / 64) (· &&& ~~~mask))
  else
    return s

theorem markWords_eq {first stop : Nat} (hrange : first < stop) {touched : List Nat}
    {words : Array UInt64} (htouched : ∀ w ∈ touched, first / 64 ≤ w ∧ w ≤ (stop - 1) / 64)
    (hwords : (stop - 1) / 64 < words.size) :
    markWords first stop touched words = .ok (BitSet.markWords first stop touched words) := by
  induction touched generalizing words with
  | nil => rfl
  | cons w touched ih =>
    rw [List.forall_mem_cons] at htouched
    obtain ⟨⟨hfirst, hlast⟩, hlater⟩ := htouched
    rw [markWords, wordMask_eq hrange hfirst hlast, Checked.ok_bind, modify_eq (by omega),
      Checked.ok_bind, ih hlater (by rwa [Array.size_modify])]
    rfl

/-- Marking touches words of the set alone and shifts by less than a word, for all ranges. -/
theorem markRange_eq (s : BitSet) (first stop : Nat) :
    markRange s first stop = .ok (s.markRange first stop) := by
  have hsize := s.size_words
  unfold markRange BitSet.markRange
  dsimp only
  by_cases hrange : first < min stop s.capacity
  · rw [if_pos hrange, if_pos hrange, markWords_eq hrange _ (by omega), Checked.ok_bind]
    · exact ofWords_words { s with words := _, size_words := _ }
    · intro w hw
      rw [List.mem_range'_1] at hw
      omega
  · rw [if_neg hrange, if_neg hrange]
    rfl

theorem clearBit_eq (s : BitSet) (i : Nat) : clearBit s i = .ok (s.clearBit i) := by
  unfold clearBit BitSet.clearBit
  by_cases hi : i < s.capacity
  · rw [if_pos hi, if_pos hi, shiftLeft_eq _ (Nat.mod_lt i (by decide)), Checked.ok_bind,
      modify_eq (BitSet.index_lt_size hi), Checked.ok_bind]
    exact ofWords_words { s with words := _, size_words := _ }
  · rw [if_neg hi, if_neg hi]
    rfl

/-! ## Counting -/

def countBits : List UInt64 → (total : Nat) → Checked Nat
  | [], total => return total
  | word :: words, total => do countBits words (← Checked.word (total + BitSet.popcount word))

def cardinality (s : BitSet) : Checked Nat :=
  countBits s.words.toList 0

theorem popcount_le (word : UInt64) : BitSet.popcount word ≤ 64 := by
  have hcount : (List.range 64).countP (BitSet.bit word) ≤ (List.range 64).length :=
    List.countP_le_length
  simpa [BitSet.popcount] using hcount

theorem le_foldl_popcount (words : List UInt64) (total : Nat) :
    total ≤ words.foldl (fun total word => total + BitSet.popcount word) total ∧
      words.foldl (fun total word => total + BitSet.popcount word) total ≤
        total + 64 * words.length := by
  induction words generalizing total with
  | nil => exact ⟨Nat.le_refl _, Nat.le_refl _⟩
  | cons word words ih =>
    have hword := popcount_le word
    have hrest := ih (total + BitSet.popcount word)
    rw [List.foldl_cons, List.length_cons]
    omega

theorem countBits_eq {words : List UInt64} {total : Nat}
    (htotal : words.foldl (fun total word => total + BitSet.popcount word) total < UInt64.size) :
    countBits words total =
      .ok (words.foldl (fun total word => total + BitSet.popcount word) total) := by
  induction words generalizing total with
  | nil => rfl
  | cons word words ih =>
    rw [List.foldl_cons] at htotal
    have hpartial := le_foldl_popcount words (total + BitSet.popcount word)
    rw [countBits, word_eq (by omega), Checked.ok_bind, ih htotal]
    rfl

theorem cardinality_eq {s : BitSet} (hcount : s.cardinality < UInt64.size) :
    cardinality s = .ok s.cardinality := by
  rw [BitSet.cardinality, ← Array.foldl_toList] at hcount
  rw [cardinality, countBits_eq hcount, BitSet.cardinality, ← Array.foldl_toList]

theorem cardinality_lt {s : BitSet} (hcapacity : s.capacity + 64 ≤ UInt64.size) :
    s.cardinality < UInt64.size := by
  have hsize := s.size_words
  have hcount := le_foldl_popcount s.words.toList 0
  rw [Array.length_toList, Array.foldl_toList, ← BitSet.cardinality] at hcount
  omega

/-! ## Scanning -/

def scan (words : Array UInt64) : (left w : Nat) → (word : UInt64) → Checked (Option Nat)
  | 0, w, word =>
    if word = 0 then return none
    else return some (← Checked.word (64 * w + BitSet.lowestBit word))
  | left + 1, w, word => do
    if word = 0 then
      let w ← Checked.word (w + 1)
      scan words left w (← Checked.get words w)
    else
      return some (← Checked.word (64 * w + BitSet.lowestBit word))

def nextSetBit (s : BitSet) (first : Nat) : Checked (Option Nat) := do
  if first < s.capacity then
    let w := first / 64
    let mask ← shiftLeft 0xffffffffffffffff (first % 64)
    let word ← Checked.get s.words w
    let found ← scan s.words (← sub s.words.size (w + 1)) w (word &&& mask)
    return found.filter (· < s.capacity)
  else
    return none

theorem scan_eq {words : Array UInt64} (hsize : 64 * words.size ≤ UInt64.size) {left w : Nat}
    (hleft : w + (left + 1) = words.size) (word : UInt64) :
    scan words left w word = .ok (
      if word = 0 then BitSet.firstBit words left (by omega)
      else some (64 * w + BitSet.lowestBit word)) := by
  induction left generalizing w word with
  | zero =>
    rw [scan]
    by_cases hword : word = 0
    · rw [if_pos hword, if_pos hword]
      rfl
    · have hbit := BitSet.lowestBit_lt hword
      rw [if_neg hword, if_neg hword, word_eq (by omega)]
      rfl
  | succ left ih =>
    rw [scan]
    by_cases hword : word = 0
    · have hnext : w + 1 < words.size := by omega
      have hget : Checked.get words (w + 1) = .ok words[w + 1] :=
        Checked.get_eq_ok_iff.mpr (Array.getElem?_eq_getElem hnext)
      have hw : words.size - (left + 1) = w + 1 := by omega
      rw [if_pos hword, if_pos hword, word_eq (by omega), Checked.ok_bind, hget, Checked.ok_bind,
        ih (by omega)]
      simp only [BitSet.firstBit, hw]
    · have hbit := BitSet.lowestBit_lt hword
      rw [if_neg hword, if_neg hword, word_eq (by omega)]
      rfl

/-- Scanning reads words of the set alone; the indices of the last word are 64-bit integers. -/
theorem nextSetBit_eq {s : BitSet} (hcapacity : s.capacity ≤ UInt64.size) (first : Nat) :
    nextSetBit s first = .ok (s.nextSetBit first) := by
  have hsize := s.size_words
  have hwords : 64 * s.words.size ≤ UInt64.size := by
    simp only [UInt64.size] at hcapacity ⊢
    omega
  unfold nextSetBit BitSet.nextSetBit
  by_cases hfirst : first < s.capacity
  · have hw : first / 64 < s.words.size := BitSet.index_lt_size hfirst
    have hget : Checked.get s.words (first / 64) = .ok s.words[first / 64] :=
      Checked.get_eq_ok_iff.mpr (Array.getElem?_eq_getElem hw)
    rw [if_pos hfirst, dif_pos hfirst]
    dsimp only
    rw [shiftLeft_eq _ (Nat.mod_lt first (by decide)), Checked.ok_bind, hget, Checked.ok_bind,
      sub_eq (by omega), Checked.ok_bind, scan_eq hwords (by omega), Checked.ok_bind]
    rfl
  · rw [if_neg hfirst, dif_neg hfirst]
    rfl

end LargeNeighborhood.Strict
