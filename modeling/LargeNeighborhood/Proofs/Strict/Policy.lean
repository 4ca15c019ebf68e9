import LargeNeighborhood.Proofs.Policy.Cycle
import LargeNeighborhood.Proofs.Strict.ValueGroups

/-!
# Strict policies

The operations of a policy once more, on strict bit sets and strict groupings. From a settled policy
they give what the operations give.
-/

namespace LargeNeighborhood.Strict

/-! ## Draws -/

def walk (fragment : BitSet) : (rank : Nat) → (id : Nat) → Checked (Option Nat)
  | 0, id => return some id
  | rank + 1, id => do
    match ← nextSetBit fragment (← Checked.word (id + 1)) with
    | none => return none
    | some next => walk fragment rank next

def select [RandomSource ρ] (fragment : BitSet) (source : ρ) : Checked (Option Nat × ρ) := do
  let count ← cardinality fragment
  if count = 0 then
    return (none, source)
  else
    let (rank, source) := RandomSource.below count source
    match ← nextSetBit fragment 0 with
    | none => return (none, source)
    | some first => return (← walk fragment rank first, source)

def drawGroups [RandomSource ρ] (groups : ValueGroups) (freeze : Freeze σ) :
    (target : Nat) → BitSet → ρ → σ → Checked (Draws ρ σ)
  | 0, fragment, source, state => return ⟨fragment, source, state, .ok .empty, []⟩
  | target + 1, fragment, source, state => do
    match ← select fragment source with
    | (none, source) => return ⟨fragment, source, state, .ok .empty, []⟩
    | (some id, source) =>
      let value ← groups.valueOf id
      let members ← groups.members id
      let event := Event.draw value members.size
      match ← freezeMembers freeze members.toList state with
      | (.error c, state) => return ⟨fragment, source, state, .error c, [event]⟩
      | (.ok frozen, state) =>
        let rest ← drawGroups groups freeze target (← clearBit fragment id) source state
        return { rest with
          result := rest.result.map (Outcome.cons value frozen)
          events := event :: rest.events }

theorem walk_eq {fragment : BitSet} (hcapacity : fragment.capacity + 64 ≤ UInt64.size)
    (rank id : Nat) : walk fragment rank id = LargeNeighborhood.walk fragment rank id := by
  induction rank generalizing id with
  | zero => rfl
  | succ rank ih =>
    rw [walk, LargeNeighborhood.walk]
    congr 1
    funext first
    rw [nextSetBit_eq (by omega), Checked.ok_bind]
    simp only [ih]
    rfl

theorem select_eq [RandomSource ρ] {fragment : BitSet}
    (hcapacity : fragment.capacity + 64 ≤ UInt64.size) (source : ρ) :
    select fragment source = LargeNeighborhood.select fragment source := by
  have hscan : ∀ first, nextSetBit fragment first = .ok (fragment.nextSetBit first) :=
    fun first => nextSetBit_eq (by omega) first
  rw [select, cardinality_eq (cardinality_lt hcapacity), Checked.ok_bind, LargeNeighborhood.select]
  simp only [hscan, Checked.ok_bind, walk_eq hcapacity]
  rfl

/-- Drawing scans and clears words of the fragment alone; clearing keeps its capacity. -/
theorem drawGroups_eq [RandomSource ρ] (groups : ValueGroups) (freeze : Freeze σ) (target : Nat)
    {fragment : BitSet} (hcapacity : fragment.capacity + 64 ≤ UInt64.size) (source : ρ)
    (state : σ) :
    drawGroups groups freeze target fragment source state =
      LargeNeighborhood.drawGroups groups freeze target fragment source state := by
  induction target generalizing fragment source state with
  | zero => rfl
  | succ target ih =>
    have hlater : ∀ id, (fragment.clearBit id).capacity + 64 ≤ UInt64.size := by
      intro id
      rwa [BitSet.capacity_clearBit]
    rw [drawGroups, LargeNeighborhood.drawGroups, select_eq hcapacity]
    congr 1
    funext drawn
    obtain ⟨id, source⟩ := drawn
    cases id with
    | none => rfl
    | some id =>
      dsimp only
      congr 1
      funext value
      congr 1
      funext members
      congr 1
      funext reply
      obtain ⟨result, state⟩ := reply
      cases result with
      | error c => rfl
      | ok frozen =>
        dsimp only
        rw [clearBit_eq, Checked.ok_bind, ih (hlater id)]

/-! ## Cycles -/

def markAll : List Nat → BitSet → Checked BitSet
  | [], fragment => return fragment
  | id :: ids, fragment => do markAll ids (← markRange fragment id (← Checked.word (id + 1)))

def clearAll : List Nat → BitSet → Checked BitSet
  | [], fragment => return fragment
  | id :: ids, fragment => do clearAll ids (← clearBit fragment id)

def snapshot (p : Policy) (values : Array Int32) : Checked Policy.Regrouped := do
  let groups ← rebuild p.groups values
  let schedule := p.schedule.reset groups.usedValues
  return {
    policy := { p with groups := groups, schedule := schedule }
    events := [.snapshot values.size groups.usedValues schedule.fixedValues] }

def selectAndFreeze [RandomSource ρ] (p : Policy) (target : Nat) (source : ρ) (freeze : Freeze σ)
    (state : σ) : Checked (Policy.Cycle ρ σ) := do
  let marked ← markAll p.groups.occupied.toList p.fragment
  let draws ← drawGroups p.groups freeze target marked source state
  let cleared ← clearAll p.groups.occupied.toList draws.fragment
  let ending :=
    match draws.result with
    | .ok o => [Event.fix target o.drawn.length o.frozen.length]
    | .error _ => []
  return {
    policy := { p with fragment := cleared }
    source := draws.source
    state := draws.state
    result := draws.result
    events := draws.events ++ ending }

theorem markAll_eq {ids : List Nat} (hids : ∀ id ∈ ids, id + 1 < UInt64.size) (fragment : BitSet) :
    markAll ids fragment =
      .ok (ids.foldl (fun fragment id => fragment.markRange id (id + 1)) fragment) := by
  induction ids generalizing fragment with
  | nil => rfl
  | cons id ids ih =>
    rw [List.forall_mem_cons] at hids
    rw [markAll, word_eq hids.1, Checked.ok_bind, markRange_eq, Checked.ok_bind, List.foldl_cons,
      ih hids.2]

theorem clearAll_eq (ids : List Nat) (fragment : BitSet) :
    clearAll ids fragment = .ok (ids.foldl BitSet.clearBit fragment) := by
  induction ids generalizing fragment with
  | nil => rfl
  | cons id ids ih => rw [clearAll, clearBit_eq, Checked.ok_bind, List.foldl_cons, ih]

variable {p : Policy} {values : List Int32}

theorem snapshot_eq (h : p.Settled values) (next : Array Int32) :
    snapshot p next = p.snapshot next := by
  rw [snapshot, Policy.snapshot, rebuild_eq h.indexes]

/-- The range of a policy is far from the end of the 64-bit integers. -/
theorem selectAndFreeze_eq [RandomSource ρ] (h : p.Settled values) (target : Nat) (source : ρ)
    (freeze : Freeze σ) (state : σ) :
    selectAndFreeze p target source freeze state =
      p.selectAndFreeze target source freeze state := by
  have hsize := h.indexes.fits.size_le
  obtain ⟨_, hcapacity, _⟩ := h.markOccupied
  have hroom : p.markOccupied.capacity + 64 ≤ UInt64.size := by
    rw [hcapacity]
    simp only [UInt32.size, UInt64.size] at hsize ⊢
    omega
  have hids : ∀ id ∈ p.groups.occupied.toList, id + 1 < UInt64.size := by
    intro id hid
    have hlt := h.indexes.occupied_lt (Array.mem_toList_iff.mp hid)
    simp only [UInt32.size, UInt64.size] at hsize ⊢
    omega
  have hmarked : markAll p.groups.occupied.toList p.fragment = .ok p.markOccupied := by
    rw [markAll_eq hids, Array.foldl_toList]
    rfl
  rw [selectAndFreeze, Policy.selectAndFreeze, hmarked, Checked.ok_bind,
    drawGroups_eq p.groups freeze target hroom]
  congr 1
  funext draws
  rw [clearAll_eq, Array.foldl_toList, Checked.ok_bind]
  rfl

end LargeNeighborhood.Strict
