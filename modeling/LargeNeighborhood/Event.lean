import LargeNeighborhood.Settings
import LargeNeighborhood.Variable

/-!
# Events

What a neighborhood reports while it works. Operations return their events in order.
-/

namespace LargeNeighborhood

inductive EventLevel
  | info
  | debug
  | trace
deriving DecidableEq

inductive Event
  /-- A neighborhood of `count` variables is about to be built from a checked configuration. -/
  | neighborBuild (count : Nat) (settings : Settings) (seed : UInt64)
  /-- An assignment of `count` values was recorded. -/
  | snapshot (count usedValues : Nat) (fixedValues : Binary64)
  /-- The fragment size was redrawn; the fields are the new ones. -/
  | relax (calls limit : Nat) (fixedValues : Binary64) (usedValues : Nat)
  /-- A group was drawn and is about to be frozen. -/
  | draw (value : Int32) (members : Nat)
  | fix (target drawn frozen : Nat)
  | fixFailed (c : Contradiction)
deriving DecidableEq

def Event.level : Event → EventLevel
  | .neighborBuild .. => .info
  | .draw .. => .trace
  | .snapshot .. | .relax .. | .fix .. | .fixFailed .. => .debug

end LargeNeighborhood
