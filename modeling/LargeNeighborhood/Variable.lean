/-!
# Variables

Decision variables are named by their position in a model; their values are 32-bit integers.
-/

namespace LargeNeighborhood

/-- A decision variable, by its position in the model. -/
@[ext]
structure VarId where
  index : Nat
deriving DecidableEq

def VarId.name (var : VarId) : String :=
  "x" ++ toString var.index

/-- Fixing `var` to `value` would leave the variable without values. -/
structure Contradiction where
  var : VarId
  value : Int32
deriving DecidableEq

def Contradiction.message (c : Contradiction) : String :=
  "Contradiction: cannot instantiate " ++ c.var.name ++ " to " ++ toString c.value

end LargeNeighborhood
