import LargeNeighborhood.Numeric.Decimal
import LargeNeighborhood.Text.Digits
import LargeNeighborhood.Text.Reader
import LargeNeighborhood.Toml.Item

/-!
# TOML numbers

Integers of 64 bits in four bases, and floats. An underscore may stand between two digits. A float
beyond the largest double is refused unless it is negative.
-/

namespace LargeNeighborhood.Toml

/-- The digits after the first one; an underscore must be followed by a digit. -/
def moreDigits (base : Nat) : Reader (List Char)
  | '_' :: c :: rest =>
    if isDigitOf base c then do
      let (digits, rest) ← moreDigits base rest
      return (c :: digits, rest)
    else
      none
  | ['_'] => none
  | c :: rest =>
    if isDigitOf base c then do
      let (digits, rest) ← moreDigits base rest
      return (c :: digits, rest)
    else
      some ([], c :: rest)
  | [] => some ([], [])

def digitRun (base : Nat) : Reader (List Char) := do
  let first ← Reader.satisfy (isDigitOf base)
  return first :: (← moreDigits base)

/-- Decimal digits of which the first is a zero only if it is the only one. -/
def wholeDigits : Reader (List Char) := do
  match ← Reader.peek with
  | some '0' => return [← Reader.next]
  | _ => digitRun 10

def sign : Reader (Option Bool) := do
  match ← Reader.peek with
  | some '+' => Reader.char '+'; return some false
  | some '-' => Reader.char '-'; return some true
  | _ => return none

/-- An integer must fit 64 bits with a sign. -/
def integer (value : Int) : Reader Item :=
  if Int64.minValue.toInt ≤ value ∧ value ≤ Int64.maxValue.toInt then return .integer value
  else failure

def exponent : Reader (Option Int) := do
  match ← Reader.peek with
  | some 'e' | some 'E' =>
    let _ ← Reader.next
    let negative := (← sign).getD false
    let size := ofDigits 10 (← digitRun 10)
    return some (if negative then -(size : Int) else size)
  | _ => return none

def float (negative : Bool) (digits : List Char) (exponent : Int) : Reader Item :=
  match Binary64.ofDecimal negative ⟨ofDigits 10 digits, exponent⟩ with
  | .infinite false => failure
  | x => return .float x

/-- The number after its sign. -/
def unsigned (negative : Bool) : Reader Item := do
  let whole ← wholeDigits
  if ← Reader.startsWith ['.'] then
    Reader.char '.'
    let fraction ← digitRun 10
    let exponent := (← exponent).getD 0
    float negative (whole ++ fraction) (exponent - fraction.length)
  else
    match ← exponent with
    | some exponent => float negative whole exponent
    | none =>
      let size : Int := ofDigits 10 whole
      integer (if negative then -size else size)

/-- Digits in a base other than ten, after a zero and a letter. -/
def based (base : Nat) (letter : Char) : Reader Item := do
  Reader.text ['0', letter]
  integer (ofDigits base (← digitRun base))

def number : Reader Item := do
  if ← Reader.startsWith ['0', 'x'] then based 16 'x'
  else if ← Reader.startsWith ['0', 'o'] then based 8 'o'
  else if ← Reader.startsWith ['0', 'b'] then based 2 'b'
  else
    let negative := (← sign).getD false
    match ← Reader.peek with
    | some 'i' => Reader.text ['i', 'n', 'f']; return .float (.infinite negative)
    | some 'n' => Reader.text ['n', 'a', 'n']; return .float .nan
    | _ => unsigned negative

end LargeNeighborhood.Toml
