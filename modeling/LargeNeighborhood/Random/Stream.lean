import LargeNeighborhood.Random.Source

/-!
# The seeded random stream

A stream is the ChaCha keystream with eight rounds of a key expanded from a 64-bit seed, and the
number of words already taken from it. The word at a position depends on the key alone.
-/

namespace LargeNeighborhood.Random

abbrev Block := Vector UInt32 16

abbrev Key := Vector UInt32 8

def rotateLeft (x : UInt32) (n : UInt32) : UInt32 :=
  (x <<< n) ||| (x >>> (32 - n))

def quarterRound (s : Block) (a b c d : Fin 16) : Block :=
  let s := s.set a (s[a] + s[b])
  let s := s.set d (rotateLeft (s[d] ^^^ s[a]) 16)
  let s := s.set c (s[c] + s[d])
  let s := s.set b (rotateLeft (s[b] ^^^ s[c]) 12)
  let s := s.set a (s[a] + s[b])
  let s := s.set d (rotateLeft (s[d] ^^^ s[a]) 8)
  let s := s.set c (s[c] + s[d])
  s.set b (rotateLeft (s[b] ^^^ s[c]) 7)

def doubleRound (s : Block) : Block :=
  let s := quarterRound s 0 4 8 12
  let s := quarterRound s 1 5 9 13
  let s := quarterRound s 2 6 10 14
  let s := quarterRound s 3 7 11 15
  let s := quarterRound s 0 5 10 15
  let s := quarterRound s 1 6 11 12
  let s := quarterRound s 2 7 8 13
  quarterRound s 3 4 9 14

/-- Constants, key, block number and an empty stream id. -/
def initialBlock (key : Key) (number : UInt64) : Block :=
  #v[0x61707865, 0x3320646e, 0x79622d32, 0x6b206574,
    key[0], key[1], key[2], key[3], key[4], key[5], key[6], key[7],
    number.toUInt32, (number >>> 32).toUInt32, 0, 0]

def block (key : Key) (number : UInt64) : Block :=
  let start := initialBlock key number
  let mixed := doubleRound (doubleRound (doubleRound (doubleRound start)))
  Vector.ofFn fun i => start[i] + mixed[i]

def expandStep (state : UInt64) : UInt64 :=
  state * 6364136223846793005 + 11634580027462260723

/-- The key word read off an expansion state: a xorshift rotated by the top bits. -/
def expandWord (state : UInt64) : UInt32 :=
  let x := (((state >>> 18) ^^^ state) >>> 27).toUInt32
  let turn := (state >>> 59).toUInt32
  (x >>> turn) ||| (x <<< ((32 - turn) % 32))

def keyOfSeed (seed : UInt64) : Key :=
  let s₀ := expandStep seed
  let s₁ := expandStep s₀
  let s₂ := expandStep s₁
  let s₃ := expandStep s₂
  let s₄ := expandStep s₃
  let s₅ := expandStep s₄
  let s₆ := expandStep s₅
  let s₇ := expandStep s₆
  #v[expandWord s₀, expandWord s₁, expandWord s₂, expandWord s₃,
    expandWord s₄, expandWord s₅, expandWord s₆, expandWord s₇]

/-- A keystream and how many of its words are used up. -/
structure Stream where
  key : Key
  position : Nat
deriving DecidableEq

namespace Stream

def ofSeed (seed : UInt64) : Stream :=
  ⟨keyOfSeed seed, 0⟩

def word (s : Stream) : Nat × Stream :=
  let words := block s.key (UInt64.ofNat (s.position / 16))
  (words[s.position % 16].toNat, { s with position := s.position + 1 })

def long (s : Stream) : Nat × Stream :=
  let (low, s) := s.word
  let (high, s) := s.word
  (low + UInt32.size * high, s)

/-- An index below `bound`; bounds under `2³²` use single words. -/
def below (bound : Nat) (s : Stream) : Nat × Stream :=
  if bound < UInt32.size then
    RandomSource.boundedDraw word UInt32.size bound s
  else
    RandomSource.boundedDraw long UInt64.size bound s

theorem word_lt (s : Stream) : s.word.1 < UInt32.size := by
  unfold word
  dsimp only
  exact UInt32.toNat_lt_size _

theorem long_lt (s : Stream) : s.long.1 < UInt64.size := by
  have hlow := s.word_lt
  have hhigh := s.word.2.word_lt
  simp only [UInt32.size] at hlow hhigh
  simp only [long, UInt32.size, UInt64.size]
  omega

theorem below_lt {bound : Nat} (s : Stream) (hbound : 0 < bound) : (s.below bound).1 < bound := by
  unfold below
  split
  · exact RandomSource.boundedDraw_lt s hbound word_lt
  · exact RandomSource.boundedDraw_lt s hbound long_lt

/-- A multiple of `2⁻⁵³` below one. -/
def unit (s : Stream) : Binary64 × Stream :=
  let (x, s) := s.long
  (Binary64.ofRatio false (x >>> 11) (1 <<< 53), s)

instance : RandomSource Stream where
  below := below
  below_lt := below_lt
  unit := unit

end Stream

end LargeNeighborhood.Random
