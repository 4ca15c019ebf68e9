import LargeNeighborhood.Numeric.Binary64

/-!
# Sources of randomness

A search draws two kinds of numbers: an index below a bound and a double in `[0, 1)`.
`boundedDraw` turns words into an index by widening multiplication with one correction.
-/

namespace LargeNeighborhood

/-- A state that yields random indices and random doubles. -/
class RandomSource (ρ : Type) where
  /-- An index below a positive bound. -/
  below : Nat → ρ → Nat × ρ
  below_lt : ∀ {bound : Nat} (source : ρ), 0 < bound → (below bound source).1 < bound
  /-- A double in `[0, 1)`. -/
  unit : ρ → Binary64 × ρ

namespace RandomSource

/-- Scales a word below `radix` to an index below `bound`. The low part of the product tells
whether the fraction that was cut off could still carry; `correction` settles that. -/
def scale (radix bound word correction : Nat) : Nat :=
  let product := word * bound
  if product % radix + correction * bound / radix < radix then
    product / radix
  else
    product / radix + 1

/-- The index needs a correction word. -/
def needsCorrection (radix bound word : Nat) : Bool :=
  decide (radix - bound < word * bound % radix)

/-- An index below `bound` from one word of `draw`, or two if the first leaves a carry open. -/
def boundedDraw (draw : ρ → Nat × ρ) (radix bound : Nat) (source : ρ) : Nat × ρ :=
  let (word, source) := draw source
  if needsCorrection radix bound word then
    let (correction, source) := draw source
    (scale radix bound word correction, source)
  else
    (word * bound / radix, source)

theorem scale_lt {radix bound word correction : Nat} (hbound : 0 < bound) (hword : word < radix)
    (hcorrection : correction < radix) : scale radix bound word correction < bound := by
  have hproduct : word * bound + bound ≤ radix * bound := by
    rw [← Nat.succ_mul]
    exact Nat.mul_le_mul_right bound hword
  have hcarry : correction * bound / radix < bound :=
    Nat.div_lt_of_lt_mul (Nat.mul_lt_mul_of_pos_right hcorrection hbound)
  have hquotient : word * bound / radix < bound :=
    Nat.div_lt_of_lt_mul (Nat.mul_lt_mul_of_pos_right hword hbound)
  have hsplit := Nat.div_add_mod (word * bound) radix
  unfold scale
  generalize word * bound = product at *
  dsimp only
  split
  · exact hquotient
  · -- a last quotient of `bound - 1` leaves too small a remainder for a carry
    by_cases hlast : product / radix + 1 < bound
    · exact hlast
    · have hbound' : bound = product / radix + 1 := by omega
      have hrow : radix * bound = radix * (product / radix) + radix := by
        rw [hbound', Nat.mul_succ]
      omega

theorem boundedDraw_lt {draw : ρ → Nat × ρ} {radix bound : Nat} (source : ρ) (hbound : 0 < bound)
    (hdraw : ∀ source, (draw source).1 < radix) :
    (boundedDraw draw radix bound source).1 < bound := by
  unfold boundedDraw
  dsimp only
  split
  · exact scale_lt hbound (hdraw _) (hdraw _)
  · exact Nat.div_lt_of_lt_mul (Nat.mul_lt_mul_of_pos_right (hdraw _) hbound)

end RandomSource

end LargeNeighborhood
