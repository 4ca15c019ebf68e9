/-!
# Faults

A fault is the use of an operation outside its precondition. It is not an answer of the search:
it stops the run. `Checked` computations name the preconditions they rely on.
-/

namespace LargeNeighborhood

/-- The precondition that was broken. -/
inductive Fault
  /-- A position, group or variable that does not exist. -/
  | indexOutOfBounds
  /-- A machine integer that would leave its range. -/
  | overflow
  | emptyRange
  | valueOutOfRange
  | lengthMismatch
  | impossibleValue
deriving DecidableEq, Repr

/-- A computation that may fault. -/
abbrev Checked := Except Fault

namespace Checked

/-- The element at an index that must exist. -/
def get (xs : Array α) (i : Nat) : Checked α :=
  match xs[i]? with
  | some x => .ok x
  | none => .error .indexOutOfBounds

/-- A natural that must fit 64 bits. -/
def word (n : Nat) : Checked Nat :=
  if n < UInt64.size then .ok n else .error .overflow

/-- An integer that must fit 64 bits with a sign. -/
def signedWord (i : Int) : Checked Int :=
  if Int64.minValue.toInt ≤ i ∧ i ≤ Int64.maxValue.toInt then .ok i else .error .overflow

theorem get_eq_ok_iff {xs : Array α} {i : Nat} {x : α} : get xs i = .ok x ↔ xs[i]? = some x := by
  unfold get
  cases xs[i]? <;> simp

theorem ok_bind (a : α) (f : α → Checked β) : (.ok a : Checked α) >>= f = f a :=
  rfl

theorem bind_eq_ok_iff {x : Checked α} {f : α → Checked β} {b : β} :
    x >>= f = .ok b ↔ ∃ a, x = .ok a ∧ f a = .ok b := by
  cases x with
  | error fault => simp [bind, Except.bind]
  | ok a => simp [bind, Except.bind]

theorem map_eq_ok_iff {x : Checked α} {f : α → β} {b : β} :
    x.map f = .ok b ↔ ∃ a, x = .ok a ∧ f a = b := by
  cases x with
  | error fault => simp [Except.map]
  | ok a => simp [Except.map]

end Checked

end LargeNeighborhood
