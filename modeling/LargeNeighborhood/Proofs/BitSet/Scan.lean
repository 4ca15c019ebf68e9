import LargeNeighborhood.Proofs.BitSet.Membership
import Mathlib.Data.List.Induction
import Mathlib.Data.Nat.Find
import Mathlib.Order.Bounds.Basic

/-!
# Scans and counts of a bit set

A scan answers with the least element from its start on, a count with the number of elements, and
scan after scan lists them all. They are stated against `elements`, the increasing list of the
members.
-/

namespace LargeNeighborhood.BitSet

/-- The elements in increasing order, read off membership alone. -/
def elements (s : BitSet) : List Nat :=
  (List.range s.capacity).filter s.contains

theorem mem_elements {s : BitSet} {i : Nat} : i ∈ s.elements ↔ s.contains i = true := by
  unfold elements
  rw [List.mem_filter, List.mem_range]
  exact ⟨fun h => h.2, fun h => ⟨lt_capacity_of_contains h, h⟩⟩

theorem pairwise_elements (s : BitSet) : s.elements.Pairwise (· < ·) :=
  List.pairwise_lt_range.filter _

/-! ## The scan for the next element -/

/-- The answer of a scan: the least index from `first` on with the property, if there is one. -/
def FindsFrom (p : Nat → Bool) (first : Nat) : Option Nat → Prop
  | some i => first ≤ i ∧ p i = true ∧ ∀ j, first ≤ j → j < i → p j = false
  | none => ∀ j, first ≤ j → p j = false

theorem FindsFrom.extend {p : Nat → Bool} {first start : Nat} {found : Option Nat}
    (h : FindsFrom p start found) (hle : first ≤ start)
    (hskip : ∀ j, first ≤ j → j < start → p j = false) : FindsFrom p first found := by
  cases found with
  | none =>
    intro j hj
    by_cases hjs : j < start
    · exact hskip j hj hjs
    · exact h j (by omega)
  | some i =>
    obtain ⟨hstart, hi, hleast⟩ := h
    refine ⟨by omega, hi, ?_⟩
    intro j hj hji
    by_cases hjs : j < start
    · exact hskip j hj hjs
    · exact hleast j (by omega) hji

theorem FindsFrom.filter_lt {p : Nat → Bool} {first bound : Nat} {found : Option Nat}
    (h : FindsFrom p first found) :
    FindsFrom (fun i => decide (i < bound) && p i) first (found.filter (· < bound)) := by
  cases found with
  | none =>
    intro j hj
    simp [h j hj]
  | some i =>
    obtain ⟨hfirst, hi, hleast⟩ := h
    by_cases hbound : i < bound
    · rw [Option.filter_some_pos (by simpa using hbound)]
      refine ⟨hfirst, by simp [hbound, hi], ?_⟩
      intro j hj hji
      simp [hleast j hj hji]
    · rw [Option.filter_some_neg (by simpa using hbound)]
      intro j hj
      by_cases hji : j < i
      · simp [hleast j hj hji]
      · simp
        omega

theorem FindsFrom.congr {p q : Nat → Bool} {first : Nat} {found : Option Nat}
    (h : FindsFrom p first found) (hpq : ∀ i, p i = q i) : FindsFrom q first found := by
  have hfun : p = q := funext hpq
  exact hfun ▸ h

theorem findsFrom_lowestBit {words : Array UInt64} {w : Nat} (hw : w < words.size) {first : Nat}
    {word : UInt64} (hfirst : first / 64 = w)
    (hword : ∀ i < 64, bit word i = (bit words[w] i && decide (first % 64 ≤ i)))
    (hne : word ≠ 0) : FindsFrom (wordBit words) first (some (64 * w + lowestBit word)) := by
  have hlow := lowestBit_lt hne
  have hdiv : (64 * w + lowestBit word) / 64 = w := by omega
  have hmod : (64 * w + lowestBit word) % 64 = lowestBit word := by omega
  have hbit := hword _ hlow
  rw [bit_lowestBit hne, eq_comm, Bool.and_eq_true, decide_eq_true_eq] at hbit
  refine ⟨by omega, ?_, ?_⟩
  · rw [wordBit, hdiv, hmod, Array.getElem?_eq_getElem hw]
    exact hbit.1
  · intro j hj hji
    have hjdiv : j / 64 = w := by omega
    have hjbit := hword (j % 64) (by omega)
    rw [bit_eq_false_of_lt_lowestBit (by omega), decide_eq_true (by omega), Bool.and_true] at hjbit
    rw [wordBit, hjdiv, Array.getElem?_eq_getElem hw]
    exact hjbit.symm

theorem wordBit_eq_false_of_zero {words : Array UInt64} {w : Nat} (hw : w < words.size)
    {first : Nat} {word : UInt64} (hfirst : first / 64 = w)
    (hword : ∀ i < 64, bit word i = (bit words[w] i && decide (first % 64 ≤ i)))
    (hzero : word = 0) : ∀ j, first ≤ j → j < 64 * (w + 1) → wordBit words j = false := by
  intro j hj hjw
  have hjdiv : j / 64 = w := by omega
  have hjbit := hword (j % 64) (by omega)
  rw [hzero, bit_zero, decide_eq_true (by omega), Bool.and_true] at hjbit
  rw [wordBit, hjdiv, Array.getElem?_eq_getElem hw]
  exact hjbit.symm

theorem findsFrom_firstBit (words : Array UInt64) (left : Nat) (h : left ≤ words.size) :
    FindsFrom (wordBit words) (64 * (words.size - left)) (firstBit words left h) := by
  induction left with
  | zero =>
    intro j hj
    rw [wordBit, Array.getElem?_eq_none (by omega)]
    rfl
  | succ left ih =>
    have hw : words.size - (left + 1) < words.size := by omega
    have hfirst : 64 * (words.size - (left + 1)) / 64 = words.size - (left + 1) := by omega
    have hword : ∀ i < 64, bit words[words.size - (left + 1)] i =
        (bit words[words.size - (left + 1)] i &&
          decide (64 * (words.size - (left + 1)) % 64 ≤ i)) := by
      intro i _
      simp
    simp only [firstBit]
    by_cases hzero : words[words.size - (left + 1)] = 0
    · rw [if_pos hzero]
      apply (ih (by omega)).extend (by omega)
      intro j hj hjw
      exact wordBit_eq_false_of_zero hw hfirst hword hzero j hj (by omega)
    · rw [if_neg hzero]
      exact findsFrom_lowestBit hw hfirst hword hzero

/-- The scan answers with the least element from `first` on. -/
theorem findsFrom_nextSetBit (s : BitSet) (first : Nat) :
    FindsFrom s.contains first (s.nextSetBit first) := by
  unfold nextSetBit
  by_cases hfirst : first < s.capacity
  · have hw := index_lt_size hfirst
    have hword : ∀ i < 64,
        bit (s.words[first / 64] &&& (0xffffffffffffffff <<< UInt64.ofNat (first % 64))) i =
          (bit s.words[first / 64] i && decide (first % 64 ≤ i)) :=
      fun i hi => bit_scanMask _ (by omega) hi
    rw [dif_pos hfirst]
    refine FindsFrom.congr (FindsFrom.filter_lt ?_) fun i => (contains_eq_wordBit s i).symm
    split
    · rename_i hzero
      refine (findsFrom_firstBit s.words _ (by omega)).extend (by omega) ?_
      intro j hj hjw
      exact wordBit_eq_false_of_zero hw rfl hword hzero j hj (by omega)
    · rename_i hne
      exact findsFrom_lowestBit hw rfl hword hne
  · rw [dif_neg hfirst]
    intro j hj
    rw [contains_eq_wordBit, decide_eq_false (by omega), Bool.false_and]

theorem bounds_of_nextSetBit {s : BitSet} {first i : Nat} (h : s.nextSetBit first = some i) :
    first ≤ i ∧ i < s.capacity := by
  have hfinds := s.findsFrom_nextSetBit first
  rw [h] at hfinds
  exact ⟨hfinds.1, lt_capacity_of_contains hfinds.2.1⟩

theorem FindsFrom.unique {p : Nat → Bool} {first : Nat} {a b : Option Nat}
    (ha : FindsFrom p first a) (hb : FindsFrom p first b) : a = b := by
  cases a with
  | none =>
    cases b with
    | none => rfl
    | some j => simpa [hb.2.1] using ha j hb.1
  | some i =>
    cases b with
    | none => simpa [ha.2.1] using hb i ha.1
    | some j =>
      obtain ⟨hi, hpi, hleasti⟩ := ha
      obtain ⟨hj, hpj, hleastj⟩ := hb
      rcases Nat.lt_trichotomy i j with hij | hij | hij
      · simpa [hpi] using hleastj i hi hij
      · rw [hij]
      · simpa [hpj] using hleasti j hj hij

theorem findsFrom_find? {p : Nat → Bool} {ids : List Nat} (hsorted : ids.Pairwise (· < ·))
    (hmem : ∀ i, i ∈ ids ↔ p i = true) (first : Nat) :
    FindsFrom p first (ids.find? fun i => decide (first ≤ i)) := by
  cases hfind : ids.find? fun i => decide (first ≤ i) with
  | none =>
    rw [List.find?_eq_none] at hfind
    intro j hj
    rw [Bool.eq_false_iff, ne_eq, ← hmem]
    intro hjmem
    exact hfind j hjmem (by simpa using hj)
  | some i =>
    obtain ⟨hfirst, before, after, rfl, hbefore⟩ := List.find?_eq_some_iff_append.mp hfind
    refine ⟨by simpa using hfirst, (hmem i).mp (by simp), ?_⟩
    intro j hj hji
    rw [Bool.eq_false_iff, ne_eq, ← hmem]
    intro hjmem
    rw [List.pairwise_append, List.pairwise_cons] at hsorted
    rcases List.mem_append.mp hjmem with hjb | hja
    · have hlt := hbefore j hjb
      simp at hlt
      omega
    · rcases List.mem_cons.mp hja with rfl | hja
      · omega
      · have hlt := hsorted.2.1.1 j hja
        omega

theorem nextSetBit_eq_find? (s : BitSet) (first : Nat) :
    s.nextSetBit first = s.elements.find? fun i => decide (first ≤ i) :=
  (findsFrom_nextSetBit s first).unique
    (findsFrom_find? s.pairwise_elements (fun _ => mem_elements) first)

theorem FindsFrom.eq_none_iff {p : Nat → Bool} {first : Nat} {found : Option Nat}
    (h : FindsFrom p first found) : found = none ↔ ∀ j, first ≤ j → p j = false := by
  cases found with
  | none => exact iff_of_true rfl h
  | some i =>
    refine iff_of_false nofun fun hnone => ?_
    simpa [h.2.1] using hnone i h.1

theorem exists_findsFrom (p : Nat → Bool) (first : Nat) : ∃ found, FindsFrom p first found := by
  by_cases h : ∃ j, first ≤ j ∧ p j = true
  · obtain ⟨hfirst, hp⟩ := Nat.find_spec h
    refine ⟨some (Nat.find h), hfirst, hp, fun j hj hlt => ?_⟩
    simpa [hj] using Nat.find_min h hlt
  · exact ⟨none, by simpa [FindsFrom] using h⟩

theorem isLeast_iff_findsFrom {p : Nat → Bool} {first i : Nat} :
    IsLeast {j | first ≤ j ∧ p j = true} i ↔ FindsFrom p first (some i) := by
  constructor
  · rintro ⟨⟨hfirst, hp⟩, hlower⟩
    refine ⟨hfirst, hp, fun j hj hlt => ?_⟩
    by_contra hpj
    exact Nat.not_le_of_lt hlt (hlower ⟨hj, by simpa using hpj⟩)
  · rintro ⟨hfirst, hp, hskipped⟩
    refine ⟨⟨hfirst, hp⟩, fun j hj => Nat.le_of_not_lt fun hlt => ?_⟩
    simpa [hj.2] using hskipped j hj.1 hlt

theorem findsFrom_iff_isLeast {p : Nat → Bool} {first : Nat} {found : Option Nat} :
    FindsFrom p first found ↔
      ∀ i, found = some i ↔ IsLeast {j | first ≤ j ∧ p j = true} i := by
  simp only [isLeast_iff_findsFrom]
  constructor
  · intro h i
    exact ⟨fun heq => heq ▸ h, fun hi => h.unique hi⟩
  · intro h
    obtain ⟨found', hfound'⟩ := exists_findsFrom p first
    cases found' with
    | some i => exact (h i).mpr hfound' ▸ hfound'
    | none =>
      cases found with
      | none => exact hfound'
      | some k => exact (h k).mp rfl

/-! ## Scan after scan -/

theorem filter_le_of_find? {ids : List Nat} (hsorted : ids.Pairwise (· < ·)) {first i : Nat}
    (hfound : (ids.find? fun id => decide (first ≤ id)) = some i) :
    (ids.filter fun id => decide (first ≤ id)) =
      i :: ids.filter fun id => decide (i + 1 ≤ id) := by
  induction ids with
  | nil => cases hfound
  | cons id ids ih =>
    obtain ⟨hid, hrest⟩ := List.pairwise_cons.mp hsorted
    by_cases hle : first ≤ id
    · rw [List.find?_cons_of_pos (by simpa using hle), Option.some.injEq] at hfound
      subst hfound
      rw [List.filter_cons_of_pos (by simpa using hle), List.filter_cons_of_neg (by simp)]
      congr 1
      apply List.filter_congr
      intro later hlater
      have hlt := hid later hlater
      rw [decide_eq_decide]
      omega
    · rw [List.find?_cons_of_neg (by simpa using hle)] at hfound
      have hlt := hid i (List.mem_of_find?_eq_some hfound)
      rw [List.filter_cons_of_neg (by simpa using hle), ih hrest hfound,
        List.filter_cons_of_neg (by simp; omega)]

theorem onesFrom_eq_filter (s : BitSet) {count first : Nat} (hcount : s.capacity ≤ first + count) :
    s.onesFrom count first = s.elements.filter fun i => decide (first ≤ i) := by
  induction count generalizing first with
  | zero =>
    symm
    rw [onesFrom, List.filter_eq_nil_iff]
    intro i hi
    have hlt := lt_capacity_of_contains (mem_elements.mp hi)
    simp
    omega
  | succ count ih =>
    rw [onesFrom, s.nextSetBit_eq_find?]
    cases hfound : s.elements.find? fun i => decide (first ≤ i) with
    | none =>
      symm
      rw [List.filter_eq_nil_iff]
      exact List.find?_eq_none.mp hfound
    | some i =>
      have hle : first ≤ i := by simpa using List.find?_some hfound
      rw [filter_le_of_find? s.pairwise_elements hfound]
      exact congrArg (i :: ·) (ih (by omega))

/-- The capacity bounds the number of scans it takes to list a set. -/
theorem ones_eq_elements (s : BitSet) : s.ones = s.elements := by
  rw [ones, s.onesFrom_eq_filter (Nat.le_add_left _ _), List.filter_eq_self]
  simp

/-! ## Counting -/

theorem foldl_popcount (words : List UInt64) :
    words.foldl (fun total word => total + popcount word) 0 =
      (List.range (64 * words.length)).countP (wordBit words.toArray) := by
  induction words using List.reverseRecOn with
  | nil => rfl
  | append_singleton words word ih =>
    have hlast : ∀ i < 64,
        wordBit (words ++ [word]).toArray (64 * words.length + i) = bit word i := by
      intro i hi
      have hdiv : (64 * words.length + i) / 64 = words.length := by omega
      have hmod : (64 * words.length + i) % 64 = i := by omega
      simp [wordBit, hdiv, hmod]
    have hinit : ∀ i ∈ List.range (64 * words.length),
        wordBit words.toArray i = wordBit (words ++ [word]).toArray i := by
      intro i hi
      rw [List.mem_range] at hi
      have hdiv : i / 64 < words.length := by omega
      simp [wordBit, List.getElem?_append_left hdiv]
    have hrange : List.range (64 * (words ++ [word]).length) =
        List.range (64 * words.length) ++ (List.range 64).map (64 * words.length + ·) := by
      rw [List.length_append, Nat.mul_add, List.range_add]
      rfl
    have hcount : (List.range 64).countP
        (wordBit (words ++ [word]).toArray ∘ (64 * words.length + ·)) = popcount word := by
      apply List.countP_congr
      intro i hi
      rw [Function.comp_apply, hlast i (by simpa using hi)]
    rw [List.foldl_append, ih, hrange, List.countP_append, List.countP_map, hcount,
      List.countP_congr fun i hi => by rw [hinit i hi]]
    rfl

theorem Tidy.cardinality_eq {s : BitSet} (h : s.Tidy) : s.cardinality = s.elements.length := by
  have hsize : s.capacity ≤ 64 * s.words.size := by
    rw [s.size_words]
    omega
  have hrange : List.range (64 * s.words.size) =
      List.range s.capacity ++
        (List.range (64 * s.words.size - s.capacity)).map (s.capacity + ·) := by
    rw [← List.range_add]
    congr 1
    omega
  have htail : (List.range (64 * s.words.size - s.capacity)).countP
      (wordBit s.words ∘ (s.capacity + ·)) = 0 := by
    rw [List.countP_eq_zero]
    intro i _
    rw [Function.comp_apply, h _ (by omega)]
    decide
  have hcount : s.cardinality = (List.range (64 * s.words.size)).countP (wordBit s.words) := by
    have hfold := foldl_popcount s.words.toList
    rw [Array.foldl_toList, Array.length_toList, Array.toArray_toList] at hfold
    exact hfold
  rw [hcount, hrange, List.countP_append, List.countP_map, htail, Nat.add_zero, elements,
    ← List.countP_eq_length_filter]
  apply List.countP_congr
  intro i _
  rw [h.wordBit_eq]

theorem Tidy.cardinality_le {s : BitSet} (h : s.Tidy) : s.cardinality ≤ s.capacity := by
  rw [h.cardinality_eq, elements]
  exact (List.length_filter_le _ _).trans_eq List.length_range

theorem Tidy.isEmpty_iff {s : BitSet} (h : s.Tidy) :
    s.isEmpty = true ↔ ∀ i, s.contains i = false := by
  rw [isEmpty, beq_iff_eq, h.cardinality_eq, List.length_eq_zero_iff,
    List.eq_nil_iff_forall_not_mem]
  apply forall_congr'
  intro i
  rw [mem_elements, Bool.not_eq_true]

theorem isEmpty_empty (capacity : Nat) : (empty capacity).isEmpty = true :=
  (tidy_empty capacity).isEmpty_iff.mpr (contains_empty capacity)

end LargeNeighborhood.BitSet
