/-!
# Console logging

Logging to the console is switched on once; switching it on again changes nothing.
-/

namespace LargeNeighborhood

structure Console where
  initialized : Bool
deriving DecidableEq

namespace Console

def off : Console := ⟨false⟩

def init (c : Console) : Console :=
  if c.initialized then c else ⟨true⟩

end Console

end LargeNeighborhood
