/-!
# Readers

A reader takes a value off the front of a text or fails. Loops are bounded by the length of the
text, which is enough because every round that goes on takes at least one character.
-/

namespace LargeNeighborhood

/-- At most `fuel` rounds of a step that either goes on or ends with a result. -/
def rounds (step : σ → StateT τ Option (σ ⊕ α)) : (fuel : Nat) → σ → StateT τ Option α
  | 0, _ => failure
  | fuel + 1, state => do
    match ← step state with
    | .inl state => rounds step fuel state
    | .inr result => return result

/-- Takes a value off the front of a text. -/
abbrev Reader := StateT (List Char) Option

namespace Reader

def peek : Reader (Option Char) :=
  fun cs => some (cs.head?, cs)

def remaining : Reader (List Char) :=
  fun cs => some (cs, cs)

def next : Reader Char
  | [] => none
  | c :: cs => some (c, cs)

def satisfy (p : Char → Bool) : Reader Char
  | [] => none
  | c :: cs => if p c then some (c, cs) else none

def char (expected : Char) : Reader Unit := do
  let _ ← satisfy (· == expected)

def text (expected : List Char) : Reader Unit :=
  fun cs => if expected.isPrefixOf cs then some ((), cs.drop expected.length) else none

def takeWhile (p : Char → Bool) : Reader (List Char) :=
  fun cs => some (cs.span p)

def skipWhile (p : Char → Bool) : Reader Unit :=
  fun cs => some ((), cs.dropWhile p)

/-- The given text comes next; it stays there. -/
def startsWith (expected : List Char) : Reader Bool :=
  fun cs => some (expected.isPrefixOf cs, cs)

/-- Repeats a step until it ends with a result. -/
def loop (step : σ → Reader (σ ⊕ α)) (state : σ) : Reader α :=
  fun cs => rounds step (cs.length + 1) state cs

def readAll (reader : Reader α) (cs : List Char) : Option α :=
  match reader cs with
  | some (x, []) => some x
  | _ => none

end Reader

end LargeNeighborhood
