/-!
# Domains

The values a variable can still take, as a strictly increasing list. The bounds of an emptied
domain are the neutral elements of minimum and maximum.
-/

namespace LargeNeighborhood

structure Domain where
  values : List Int32
  increasing : values.Pairwise (· < ·)
deriving DecidableEq

namespace Domain

def empty : Domain := ⟨[], List.Pairwise.nil⟩

def singleton (value : Int32) : Domain := ⟨[value], List.pairwise_singleton ..⟩

def interval (lower upper : Int32) : Domain where
  values :=
    (List.range (upper.toInt - lower.toInt + 1).toNat).map fun (i : Nat) =>
      Int32.ofInt (lower.toInt + i)
  increasing := by
    have hl := lower.le_toInt
    have hu := upper.toInt_lt
    rw [List.pairwise_map]
    refine List.Pairwise.imp_of_mem ?_ List.pairwise_lt_range
    intro i j hi hj hij
    rw [List.mem_range] at hi hj
    rw [Int32.lt_iff_toInt_lt, Int32.toInt_ofInt_of_le (by omega) (by omega),
      Int32.toInt_ofInt_of_le (by omega) (by omega)]
    omega

def size (d : Domain) : Nat :=
  d.values.length

def contains (d : Domain) (value : Int32) : Bool :=
  d.values.contains value

def erase (d : Domain) (value : Int32) : Domain where
  values := d.values.erase value
  increasing := d.increasing.sublist List.erase_sublist

/-- The least value, or the greatest 32-bit integer if there is none. -/
def lower (d : Domain) : Int32 :=
  d.values.head?.getD Int32.maxValue

/-- The greatest value, or the least 32-bit integer if there is none. -/
def upper (d : Domain) : Int32 :=
  d.values.getLast?.getD Int32.minValue

end Domain

end LargeNeighborhood
