import LargeNeighborhood.Fragment
import LargeNeighborhood.Proofs.BitSet.Scan

/-!
# Walks to a rank

A draw from a fragment walks by scans to the id of a random rank in the increasing list of its ids.
It scans once for every id on the way, each time from the index after it, which must be a 64-bit
integer.
-/

namespace LargeNeighborhood

/-- The scans of a fragment walk through a list. -/
def Scans [FragmentSet φ] (fragment : φ) (ids : List Nat) : Prop :=
  ∀ first, FragmentSet.nextSetBit fragment first = ids.find? fun id => decide (first ≤ id)

theorem scans_elements (s : BitSet) : Scans s s.elements :=
  s.nextSetBit_eq_find?

theorem find?_succ_eq_getElem? {ids : List Nat} (hsorted : ids.Pairwise (· < ·)) {k id : Nat}
    (hid : ids[k]? = some id) : (ids.find? fun other => decide (id + 1 ≤ other)) = ids[k + 1]? := by
  induction ids generalizing k with
  | nil => simp at hid
  | cons first ids ih =>
    obtain ⟨hfirst, hrest⟩ := List.pairwise_cons.mp hsorted
    cases k with
    | zero =>
      rw [List.getElem?_cons_zero, Option.some.injEq] at hid
      subst hid
      rw [List.find?_cons_of_neg (by simp), List.getElem?_cons_succ]
      cases ids with
      | nil => rfl
      | cons second ids =>
        have hsecond := hfirst second List.mem_cons_self
        rw [List.find?_cons_of_pos (by simp; omega), List.getElem?_cons_zero]
    | succ k =>
      rw [List.getElem?_cons_succ] at hid
      have hlt := hfirst id (List.mem_of_getElem? hid)
      rw [List.find?_cons_of_neg (by simp; omega), List.getElem?_cons_succ]
      exact ih hrest hid

theorem find?_zero_eq_getElem? (ids : List Nat) :
    (ids.find? fun id => decide (0 ≤ id)) = ids[0]? := by
  cases ids <;> simp

/-! ## Walks with their scans -/

def walkLogged [FragmentSet φ] (fragment : φ) :
    (rank : Nat) → (id : Nat) → Checked (Option Nat × List Nat)
  | 0, id => return (some id, [])
  | rank + 1, id => do
    let first ← Checked.word (id + 1)
    match FragmentSet.nextSetBit fragment first with
    | none => return (none, [first])
    | some next =>
      let (found, starts) ← walkLogged fragment rank next
      return (found, first :: starts)

def selectLogged [FragmentSet φ] [RandomSource ρ] (fragment : φ) (source : ρ) :
    Checked ((Option Nat × ρ) × List Nat) :=
  if FragmentSet.cardinality fragment = 0 then
    return ((none, source), [])
  else
    let (rank, source) := RandomSource.below (FragmentSet.cardinality fragment) source
    match FragmentSet.nextSetBit fragment 0 with
    | none => return ((none, source), [0])
    | some first => do
      let (found, starts) ← walkLogged fragment rank first
      return ((found, source), 0 :: starts)

theorem map_fst_walkLogged [FragmentSet φ] (fragment : φ) (rank id : Nat) :
    (walkLogged fragment rank id).map Prod.fst = walk fragment rank id := by
  induction rank generalizing id with
  | zero => rfl
  | succ rank ih =>
    rw [walkLogged, walk]
    cases Checked.word (id + 1) with
    | error fault => rfl
    | ok first =>
      simp only [Checked.ok_bind]
      cases FragmentSet.nextSetBit fragment first with
      | none => rfl
      | some next =>
        dsimp only
        rw [← ih next]
        cases walkLogged fragment rank next <;> rfl

theorem map_fst_selectLogged [FragmentSet φ] [RandomSource ρ] (fragment : φ) (source : ρ) :
    (selectLogged fragment source).map Prod.fst = select fragment source := by
  unfold selectLogged select
  split
  · rfl
  · dsimp only
    cases FragmentSet.nextSetBit fragment 0 with
    | none => rfl
    | some first =>
      dsimp only
      rw [← map_fst_walkLogged]
      cases walkLogged fragment (RandomSource.below (FragmentSet.cardinality fragment) source).1
        first <;> rfl

/-- From the id at place `k`, a walk of some ranks leads to the id that many places on, scanning
from the index after each id that it leaves. -/
theorem walkLogged_eq [FragmentSet φ] {fragment : φ} {ids : List Nat}
    (hscans : Scans fragment ids) (hsorted : ids.Pairwise (· < ·)) {k id rank : Nat}
    (hid : ids[k]? = some id)
    (hroom : ∀ place left, k ≤ place → place < k + rank → ids[place]? = some left →
      left + 1 < UInt64.size) :
    walkLogged fragment rank id =
      .ok (ids[k + rank]?, ((ids.drop k).take rank).map (· + 1)) := by
  induction rank generalizing k id with
  | zero => rw [Nat.add_zero, hid, List.take_zero]; rfl
  | succ rank ih =>
    obtain ⟨hk, hget⟩ := List.getElem?_eq_some_iff.mp hid
    have hword : Checked.word (id + 1) = .ok (id + 1) :=
      if_pos (hroom k id (Nat.le_refl k) (by omega) hid)
    have hnext := (hscans (id + 1)).trans (find?_succ_eq_getElem? hsorted hid)
    have hplace : k + (rank + 1) = k + 1 + rank := by omega
    rw [walkLogged, hword, Checked.ok_bind, hnext, hplace, List.drop_eq_getElem_cons hk,
      List.take_succ_cons, List.map_cons, hget]
    cases hsecond : ids[k + 1]? with
    | none =>
      have hend := List.getElem?_eq_none_iff.mp hsecond
      rw [List.getElem?_eq_none (by omega), List.drop_eq_nil_of_le hend, List.take_nil,
        List.map_nil]
      rfl
    | some next =>
      dsimp only
      rw [ih hsecond fun place left hle hlt => hroom place left (by omega) (by omega)]
      rfl

/-- A rank decides a draw: it takes the id of the rank, after a scan for each id before it and one
to start with. -/
theorem selectLogged_eq [FragmentSet φ] [RandomSource ρ] {fragment : φ} {ids : List Nat}
    (hscans : Scans fragment ids) (hsorted : ids.Pairwise (· < ·)) {source rest : ρ} {rank : Nat}
    (hcount : FragmentSet.cardinality fragment ≠ 0)
    (hdraw : RandomSource.below (FragmentSet.cardinality fragment) source = (rank, rest))
    (hroom : ∀ place left, place < rank → ids[place]? = some left → left + 1 < UInt64.size) :
    selectLogged fragment source =
      .ok ((ids[rank]?, rest), 0 :: (ids.take rank).map (· + 1)) := by
  have hfirst := (hscans 0).trans (find?_zero_eq_getElem? ids)
  rw [selectLogged, if_neg hcount, hdraw]
  dsimp only
  rw [hfirst]
  cases hid : ids[0]? with
  | none =>
    have hnil : ids = [] := by simpa using hid
    rw [hnil, List.getElem?_nil, List.take_nil, List.map_nil]
    rfl
  | some first =>
    dsimp only
    rw [walkLogged_eq hscans hsorted hid fun place left _ hlt => hroom place left (by omega),
      Nat.zero_add, List.drop_zero]
    rfl

theorem select_eq [FragmentSet φ] [RandomSource ρ] {fragment : φ} {ids : List Nat}
    (hscans : Scans fragment ids) (hsorted : ids.Pairwise (· < ·))
    (hbound : ∀ id ∈ ids, id + 1 < UInt64.size) (source : ρ) :
    select fragment source = .ok (
      if FragmentSet.cardinality fragment = 0 then (none, source)
      else (ids[(RandomSource.below (FragmentSet.cardinality fragment) source).1]?,
        (RandomSource.below (FragmentSet.cardinality fragment) source).2)) := by
  by_cases hzero : FragmentSet.cardinality fragment = 0
  · rw [select, if_pos hzero, if_pos hzero]
    rfl
  · rw [if_neg hzero, ← map_fst_selectLogged, selectLogged_eq hscans hsorted hzero rfl
      fun _ left _ hleft => hbound left (List.mem_of_getElem? hleft)]
    rfl

end LargeNeighborhood
