/-!
# Double-precision numbers

A finite double is a whole number of units of `2⁻¹⁰⁷⁴` with at most 53 significant bits.
Sums, products and quotients are formed exactly on naturals and rounded once, to the nearest
double, a tie going to the even neighbour.
-/

namespace LargeNeighborhood

namespace Binary64

/-- The units of `2⁻¹⁰⁷⁴` in the number one. -/
def oneUnits : Nat := 1 <<< 1074

/-- Some double has this many units: 53 significant bits suffice and the size is below `2¹⁰²⁴`. -/
def Representable (units : Nat) : Prop :=
  units < 1 <<< 2098 ∧ units % (1 <<< (units.log2 - 52)) = 0

instance (units : Nat) : Decidable (Representable units) :=
  inferInstanceAs (Decidable (_ ∧ _))

end Binary64

/-- A double, with all payloads of "not a number" identified. -/
inductive Binary64
  | nan
  | infinite (negative : Bool)
  | finite (negative : Bool) (units : Nat) (representable : Binary64.Representable units)
deriving DecidableEq

namespace Binary64

/-- The nearest whole number to `num / den`; a tie goes to the even neighbour. -/
def divNearestEven (num den : Nat) : Nat :=
  let quotient := num / den
  let remainder := num % den
  if 2 * remainder < den ∨ (2 * remainder = den ∧ quotient % 2 = 0) then
    quotient
  else
    quotient + 1

/-- `num / den` units, rounded to 53 significant bits or to a whole unit if that is coarser. -/
def roundUnits (num den : Nat) : Nat :=
  let spacing := 1 <<< ((num / den).log2 - 52)
  divNearestEven num (den * spacing) * spacing

/-- A size beyond the largest finite double becomes an infinity. -/
def ofUnits (negative : Bool) (units : Nat) : Binary64 :=
  if representable : Representable units then
    .finite negative units representable
  else
    .infinite negative

def ofRatio (negative : Bool) (num den : Nat) : Binary64 :=
  ofUnits negative (roundUnits (num * oneUnits) den)

def ofNat (n : Nat) : Binary64 :=
  ofRatio false n 1

def ofInt (i : Int) : Binary64 :=
  ofRatio (decide (i < 0)) i.natAbs 1

def zero : Binary64 := ofNat 0

def one : Binary64 := ofNat 1

instance : Inhabited Binary64 := ⟨zero⟩

def signedUnits (negative : Bool) (units : Nat) : Int :=
  if negative then -(units : Int) else units

def add : Binary64 → Binary64 → Binary64
  | .nan, _ => .nan
  | _, .nan => .nan
  | .infinite a, .infinite b => if a = b then .infinite a else .nan
  | .infinite a, .finite .. => .infinite a
  | .finite .., .infinite b => .infinite b
  | .finite a u _, .finite b v _ =>
    if a = b then
      ofUnits a (roundUnits (u + v) 1)
    else
      let total := signedUnits a u + signedUnits b v
      ofUnits (decide (total < 0)) (roundUnits total.natAbs 1)

def mul : Binary64 → Binary64 → Binary64
  | .nan, _ => .nan
  | _, .nan => .nan
  | .infinite a, .infinite b => .infinite (a != b)
  | .infinite a, .finite b v _ => if v = 0 then .nan else .infinite (a != b)
  | .finite a u _, .infinite b => if u = 0 then .nan else .infinite (a != b)
  | .finite a u _, .finite b v _ => ofUnits (a != b) (roundUnits (u * v) oneUnits)

instance : Add Binary64 := ⟨add⟩

instance : Mul Binary64 := ⟨mul⟩

def less : Binary64 → Binary64 → Bool
  | .nan, _ => false
  | _, .nan => false
  | .infinite a, .infinite b => a && !b
  | .infinite a, .finite .. => a
  | .finite .., .infinite b => !b
  | .finite a u _, .finite b v _ => decide (signedUnits a u < signedUnits b v)

def same : Binary64 → Binary64 → Bool
  | .nan, _ => false
  | _, .nan => false
  | .infinite a, .infinite b => a == b
  | .infinite _, .finite .. => false
  | .finite .., .infinite _ => false
  | .finite a u _, .finite b v _ => decide (signedUnits a u = signedUnits b v)

instance : LT Binary64 := ⟨fun x y => less x y = true⟩

instance : LE Binary64 := ⟨fun x y => less x y = true ∨ same x y = true⟩

instance (x y : Binary64) : Decidable (x < y) := inferInstanceAs (Decidable (_ = _))

instance (x y : Binary64) : Decidable (x ≤ y) := inferInstanceAs (Decidable (_ ∨ _))

/-- Strictly positive and at most one. -/
def IsProportion (x : Binary64) : Prop := zero < x ∧ x ≤ one

instance (x : Binary64) : Decidable x.IsProportion := inferInstanceAs (Decidable (_ ∧ _))

/-- The whole part as a 64-bit count: clamped at both ends, zero for "not a number". -/
def truncate : Binary64 → Nat
  | .nan => 0
  | .infinite true => 0
  | .infinite false => UInt64.size - 1
  | .finite true _ _ => 0
  | .finite false u _ => min (u / oneUnits) (UInt64.size - 1)

def magnitudeBits (units : Nat) : Nat :=
  let shift := units.log2 - 52
  (shift <<< 52) + (units >>> shift)

def bits : Binary64 → Nat
  | .nan => 0x7ff8000000000000
  | .infinite negative => (negative.toNat <<< 63) + 0x7ff0000000000000
  | .finite negative units _ => (negative.toNat <<< 63) + magnitudeBits units

end Binary64

end LargeNeighborhood
