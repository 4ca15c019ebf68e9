/-!
# Bit sets of a fixed capacity

Bits are packed into 64-bit words. The number of words is fixed by the capacity, so every word an
operation touches exists; marking clips its range to the capacity.
-/

namespace LargeNeighborhood

/-- A set of indices below `capacity`. -/
structure BitSet where
  capacity : Nat
  words : Array UInt64
  size_words : words.size = (capacity + 63) / 64
deriving DecidableEq

namespace BitSet

def bit (word : UInt64) (i : Nat) : Bool :=
  (word >>> UInt64.ofNat i) &&& 1 != 0

def popcount (word : UInt64) : Nat :=
  (List.range 64).countP (bit word)

/-- The position of the lowest bit set in a word; 64 if there is none. -/
def lowestBit (word : UInt64) : Nat :=
  (List.range 64).findIdx (bit word)

/-- The bits of word `w` whose index lies in `[first, stop)`. -/
def wordMask (first stop w : Nat) : UInt64 :=
  let low := first - 64 * w
  let high := min 64 (stop - 64 * w)
  if low < high then
    (0xffffffffffffffff >>> UInt64.ofNat (64 - (high - low))) <<< UInt64.ofNat low
  else
    0

def empty (capacity : Nat) : BitSet where
  capacity := capacity
  words := Array.replicate ((capacity + 63) / 64) 0
  size_words := Array.size_replicate

theorem index_lt_size {s : BitSet} {i : Nat} (h : i < s.capacity) : i / 64 < s.words.size := by
  rw [s.size_words]
  omega

def contains (s : BitSet) (i : Nat) : Bool :=
  if h : i < s.capacity then
    have := index_lt_size h
    bit s.words[i / 64] (i % 64)
  else
    false

def markWords (first stop : Nat) (touched : List Nat) (words : Array UInt64) : Array UInt64 :=
  touched.foldl (fun words w => words.modify w (· ||| wordMask first stop w)) words

theorem size_markWords (first stop : Nat) (touched : List Nat) (words : Array UInt64) :
    (markWords first stop touched words).size = words.size := by
  induction touched generalizing words with
  | nil => rfl
  | cons w touched ih => simp only [markWords, List.foldl_cons] at ih ⊢; simp [ih]

/-- Adds the indices of `[first, stop)` below the capacity. -/
def markRange (s : BitSet) (first stop : Nat) : BitSet :=
  let stop := min stop s.capacity
  if first < stop then
    let touched := List.range' (first / 64) ((stop - 1) / 64 + 1 - first / 64)
    { s with
      words := markWords first stop touched s.words
      size_words := (size_markWords ..).trans s.size_words }
  else
    s

def clearBit (s : BitSet) (i : Nat) : BitSet :=
  if i < s.capacity then
    { s with
      words := s.words.modify (i / 64) (· &&& ~~~(1 <<< UInt64.ofNat (i % 64)))
      size_words := Array.size_modify.trans s.size_words }
  else
    s

def clear (s : BitSet) : BitSet :=
  { s with
    words := s.words.map fun _ => 0
    size_words := by rw [Array.size_map, s.size_words] }

def cardinality (s : BitSet) : Nat :=
  s.words.foldl (fun total word => total + popcount word) 0

def isEmpty (s : BitSet) : Bool :=
  s.cardinality == 0

def firstBit (words : Array UInt64) : (left : Nat) → left ≤ words.size → Option Nat
  | 0, _ => none
  | left + 1, h =>
    let w := words.size - (left + 1)
    let word := words[w]
    if word = 0 then
      firstBit words left (by omega)
    else
      some (64 * w + lowestBit word)

/-- The least index from `first` on that is in the set. -/
def nextSetBit (s : BitSet) (first : Nat) : Option Nat :=
  if h : first < s.capacity then
    let w := first / 64
    have inBounds : w < s.words.size := index_lt_size h
    let word := s.words[w] &&& (0xffffffffffffffff <<< UInt64.ofNat (first % 64))
    let found :=
      if word = 0 then
        firstBit s.words (s.words.size - (w + 1)) (by omega)
      else
        some (64 * w + lowestBit word)
    found.filter (· < s.capacity)
  else
    none

/-- At most `count` elements from `first` on, in increasing order. -/
def onesFrom (s : BitSet) : (count : Nat) → (first : Nat) → List Nat
  | 0, _ => []
  | count + 1, first =>
    match s.nextSetBit first with
    | none => []
    | some i => i :: s.onesFrom count (i + 1)

def ones (s : BitSet) : List Nat :=
  s.onesFrom s.capacity 0

end BitSet

end LargeNeighborhood
