import LargeNeighborhood.Numeric.Decimal

/-!
# The text of a double

A `FloatText` holds one format's decisions: the words for the values without digits, which
magnitudes are written positionally, whether a whole number keeps a point, and where ties go.
-/

namespace LargeNeighborhood

structure FloatText where
  /-- The word for "not a number". -/
  nan : String
  /-- The word for an infinity, after its sign. -/
  infinity : String
  /-- A whole number ends in a point and a zero. -/
  pointed : Bool
  /-- The least and greatest decimal point positions written without an exponent; all if absent. -/
  positional : Option (Int × Int)
  tie : Decimal.Tie

namespace FloatText

/-- Digits with the decimal point after `point` of them. -/
def placePoint (pointed : Bool) (digits : List Char) (point : Int) : List Char :=
  if digits.length ≤ point then
    digits ++ List.replicate (point.toNat - digits.length) '0' ++
      (if pointed then ['.', '0'] else [])
  else if 0 < point then
    digits.take point.toNat ++ '.' :: digits.drop point.toNat
  else
    '0' :: '.' :: List.replicate (-point).toNat '0' ++ digits

/-- One digit before the point, then an exponent of ten. -/
def withExponent (digits : List Char) (point : Int) : List Char :=
  let mantissa :=
    match digits with
    | first :: second :: rest => first :: '.' :: second :: rest
    | digits => digits
  mantissa ++ 'e' :: (toString (point - 1)).toList

def magnitude (format : FloatText) (units : Nat) : List Char :=
  let d := Decimal.shortest format.tie units
  let digits := Nat.toDigits 10 d.digits
  let point := digits.length + d.exponent
  match format.positional with
  | none => placePoint format.pointed digits point
  | some (least, greatest) =>
    if least ≤ point ∧ point ≤ greatest then
      placePoint format.pointed digits point
    else
      withExponent digits point

def sign (negative : Bool) : List Char :=
  if negative then ['-'] else []

def chars (format : FloatText) : Binary64 → List Char
  | .nan => format.nan.toList
  | .infinite negative => sign negative ++ format.infinity.toList
  | .finite negative units _ =>
    sign negative ++
      if units = 0 then placePoint format.pointed ['0'] 1 else format.magnitude units

def render (format : FloatText) (x : Binary64) : String :=
  String.ofList (format.chars x)

/-- The form used in messages: always positional, a whole number without a point. -/
def message : FloatText where
  nan := "NaN"
  infinity := "inf"
  pointed := false
  positional := none
  tie := .up

end FloatText

end LargeNeighborhood
