import LargeNeighborhood.Numeric.Binary64

/-!
# Decimal numerals

A decimal numeral is a natural scaled by a power of ten. `Binary64.ofDecimal` reads one as the
nearest double, and `Decimal.shortest` finds the fewest digits that read back as a given size.
-/

namespace LargeNeighborhood

/-- The number `digits × 10 ^ exponent`. -/
structure Decimal where
  digits : Nat
  exponent : Int
deriving DecidableEq

namespace Binary64

/-- The double nearest to a signed decimal numeral.

Numerals of at least `10³¹⁰` are infinite and those below `10⁻³²⁴` vanish, so no power of ten is
formed that the answer does not need. -/
def ofDecimal (negative : Bool) (d : Decimal) : Binary64 :=
  if d.digits = 0 then
    ofRatio negative 0 1
  else if 310 ≤ d.exponent then
    .infinite negative
  else if d.exponent + (d.digits.log2 / 3 + 1 : Nat) ≤ -324 then
    ofRatio negative 0 1
  else if 0 ≤ d.exponent then
    ofRatio negative (d.digits * Nat.pow 10 d.exponent.toNat) 1
  else
    ofRatio negative d.digits (Nat.pow 10 (-d.exponent).toNat)

end Binary64

namespace Decimal

/-- Which neighbour an exact tie between two numerals goes to. -/
inductive Tie
  | up
  | even
deriving DecidableEq

def normalize (d : Decimal) : Decimal :=
  if 0 < d.digits ∧ d.digits % 10 = 0 then
    normalize ⟨d.digits / 10, d.exponent + 1⟩
  else
    d
termination_by d.digits
decreasing_by omega

def ReadsAs (d : Decimal) (units : Nat) : Prop :=
  Binary64.ofDecimal false d = Binary64.ofUnits false units

instance (d : Decimal) (units : Nat) : Decidable (d.ReadsAs units) :=
  inferInstanceAs (Decidable (_ = _))

/-- The multiple of `10 ^ exponent` next to `units` that reads back as `units`, the nearer one if
both neighbours do. -/
def onGrid (tie : Tie) (units : Nat) (exponent : Int) : Option Decimal :=
  let num := units * Nat.pow 10 (-exponent).toNat
  let den := Binary64.oneUnits * Nat.pow 10 exponent.toNat
  let below : Decimal := ⟨num / den, exponent⟩
  let above : Decimal := ⟨num / den + 1, exponent⟩
  let remainder := num % den
  let preferAbove :=
    decide (den < 2 * remainder) ||
      (decide (2 * remainder = den) && (tie == .up || below.digits % 2 == 1))
  let near := if preferAbove then above else below
  let far := if preferAbove then below else above
  if near.ReadsAs units then some near
  else if far.ReadsAs units then some far
  else none

/-- All digits of a size: a unit is `5¹⁰⁷⁴ × 10⁻¹⁰⁷⁴`. -/
def exact (units : Nat) : Decimal :=
  ⟨units * Nat.pow 5 1074, -1074⟩

/-- The exponents of the grids to try, coarsest first. The first is above every power of ten up to
`units`, and seventeen digits always suffice. -/
def gridExponents (units : Nat) : List Int :=
  let top := ((units.log2 : Int) - 1073) * 30103 / 100000 + 1
  (List.range 20).map fun (i : Nat) => top - i

/-- The fewest digits that read back as `units`, the nearest of those. -/
def shortest (tie : Tie) (units : Nat) : Decimal :=
  ((gridExponents units).findSome? (onGrid tie units)).getD (exact units) |>.normalize

end Decimal

end LargeNeighborhood
