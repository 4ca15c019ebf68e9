import LargeNeighborhood.Proofs.Strict.BitSet
import LargeNeighborhood.Proofs.ValueGroups.Index

/-!
# Strict groupings

A rebuild once more, with every access to a bucket and every difference of machine integers checked.
A grouping lists existing buckets alone, so from an index the only check that can fail is the one
for values outside the range.
-/

namespace LargeNeighborhood.Strict

def groupOf (g : ValueGroups) (value : Int32) : Checked Nat := do
  let offset ← Checked.signedWord (value.toInt - g.min.toInt)
  return (offset % UInt64.size).toNat

def emptyBuckets : List Nat → Array (Array Nat) → Checked (Array (Array Nat))
  | [], buckets => return buckets
  | id :: ids, buckets => do emptyBuckets ids (← modify buckets id fun _ => #[])

def cleared (g : ValueGroups) : Checked ValueGroups := do
  return { g with buckets := ← emptyBuckets g.occupied.toList g.buckets, occupied := #[] }

def insert (g : ValueGroups) (position : Nat) (value : Int32) : Checked ValueGroups := do
  let id ← groupOf g value
  if id < g.buckets.size then
    let bucket ← Checked.get g.buckets id
    return { g with
      buckets := ← modify g.buckets id fun bucket => bucket.push position
      occupied := if bucket.isEmpty then g.occupied.push id else g.occupied }
  else
    throw .valueOutOfRange

def insertAll (g : ValueGroups) (position : Nat) : List Int32 → Checked ValueGroups
  | [] => return g
  | value :: values => do insertAll (← insert g position value) (position + 1) values

def rebuild (g : ValueGroups) (values : Array Int32) : Checked ValueGroups := do
  insertAll (← cleared g) 0 values.toList

theorem groupOf_eq (g : ValueGroups) (value : Int32) : groupOf g value = .ok (g.groupOf value) := by
  have hvalue := value.le_toInt
  have hvalue' := value.toInt_lt
  have hmin := g.min.le_toInt
  have hmin' := g.min.toInt_lt
  have hoffset : Checked.signedWord (value.toInt - g.min.toInt) =
      .ok (value.toInt - g.min.toInt) := by
    apply if_pos
    rw [Int64.toInt_minValue, Int64.toInt_maxValue]
    omega
  rw [groupOf, hoffset]
  rfl

theorem emptyBuckets_eq {ids : List Nat} {buckets : Array (Array Nat)}
    (hids : ∀ id ∈ ids, id < buckets.size) :
    emptyBuckets ids buckets =
      .ok (ids.foldl (fun buckets id => buckets.modify id fun _ => #[]) buckets) := by
  induction ids generalizing buckets with
  | nil => rfl
  | cons id ids ih =>
    rw [List.forall_mem_cons] at hids
    rw [emptyBuckets, modify_eq hids.1, Checked.ok_bind, List.foldl_cons,
      ih (by rw [Array.size_modify]; exact hids.2)]

theorem insert_eq (g : ValueGroups) (position : Nat) (value : Int32) :
    insert g position value = g.insert position value := by
  rw [insert, groupOf_eq, Checked.ok_bind, ValueGroups.insert]
  by_cases hid : g.groupOf value < g.buckets.size
  · have hbucket := Array.getElem?_eq_getElem hid
    rw [if_pos hid, Checked.get_eq_ok_iff.mpr hbucket, Checked.ok_bind, modify_eq hid,
      Checked.ok_bind, hbucket]
  · rw [if_neg hid, Array.getElem?_eq_none (by omega)]

theorem insertAll_eq (g : ValueGroups) (position : Nat) (values : List Int32) :
    insertAll g position values = g.insertAll position values := by
  induction values generalizing g position with
  | nil => rfl
  | cons value values ih =>
    rw [insertAll, ValueGroups.insertAll, insert_eq]
    congr 1
    funext g'
    exact ih g' (position + 1)

/-- The buckets that a rebuild empties exist. -/
theorem rebuild_eq {g : ValueGroups} {old : List Int32} (h : g.Indexes old)
    (values : Array Int32) : rebuild g values = g.rebuild values := by
  have hids : ∀ id ∈ g.occupied.toList, id < g.buckets.size :=
    fun id hid => h.occupied_lt (Array.mem_toList_iff.mp hid)
  rw [rebuild, cleared, emptyBuckets_eq hids, Array.foldl_toList, Checked.ok_bind]
  exact insertAll_eq _ 0 values.toList

end LargeNeighborhood.Strict
