import LargeNeighborhood.Proofs.Draws.Walk
import LargeNeighborhood.Proofs.Random.Words
import Mathlib.Data.Finset.Sort

/-!
# Draws by rank

A draw asks a fragment for its count and for scans, and the two need not agree. Whatever they are,
it takes one index below the count from the source and ends with the member of that rank, or with
none if there are too few members.
-/

namespace LargeNeighborhood

/-- A draw of a rank ends with the member that has as many members below it, if there is one, after
at most one scan more than the rank. -/
structure TakesRank [FragmentSet φ] [RandomSource ρ] (fragment : φ) (members : Finset Nat)
    (source : ρ) (rank : Nat) (found : Option Nat) (rest : ρ) : Prop where
  selected : select fragment source = .ok (found, rest)
  scans : ∃ starts, selectLogged fragment source = .ok ((found, rest), starts) ∧
    starts.length ≤ rank + 1
  ranked : rank < members.card →
    ∃ id ∈ members, found = some id ∧ (members.filter (· < id)).card = rank
  missed : members.card ≤ rank → found = none

variable {ids : List Nat}

/-! ## Increasing lists -/

theorem card_toFinset_of_increasing (hsorted : ids.Pairwise (· < ·)) :
    ids.toFinset.card = ids.length :=
  List.toFinset_card_of_nodup (hsorted.imp Nat.ne_of_lt)

theorem card_filter_lt_getElem? (hsorted : ids.Pairwise (· < ·)) {k id : Nat}
    (hid : ids[k]? = some id) : (ids.toFinset.filter (· < id)).card = k := by
  induction ids generalizing k with
  | nil => cases hid
  | cons first ids ih =>
    obtain ⟨hfirst, hrest⟩ := List.pairwise_cons.mp hsorted
    rw [List.toFinset_cons]
    cases k with
    | zero =>
      obtain rfl : first = id := by simpa using hid
      rw [Finset.card_eq_zero, Finset.filter_eq_empty_iff]
      intro later hlater
      rcases Finset.mem_insert.mp hlater with rfl | hlater
      · exact Nat.lt_irrefl _
      · exact Nat.not_lt_of_lt (hfirst later (List.mem_toFinset.mp hlater))
    | succ k =>
      rw [List.getElem?_cons_succ] at hid
      have hlt := hfirst id (List.mem_of_getElem? hid)
      have hnew : first ∉ ids.toFinset.filter (· < id) := by
        intro hmem
        have hlater := hfirst first (List.mem_toFinset.mp (Finset.mem_filter.mp hmem).1)
        exact Nat.lt_irrefl _ hlater
      rw [Finset.filter_insert, if_pos hlt, Finset.card_insert_of_notMem hnew, ih hrest hid]

theorem exists_increasing (members : Finset Nat) :
    ∃ ids : List Nat, ids.Pairwise (· < ·) ∧ ids.toFinset = members :=
  ⟨members.sort, (Finset.sortedLT_sort members).pairwise, Finset.sort_toFinset members _⟩

theorem scans_iff_isLeast [FragmentSet φ] {fragment : φ} (hsorted : ids.Pairwise (· < ·)) :
    Scans fragment ids ↔ ∀ first i, FragmentSet.nextSetBit fragment first = some i ↔
      IsLeast {id | first ≤ id ∧ id ∈ ids.toFinset} i := by
  have hlist : ∀ first, BitSet.FindsFrom (fun id => decide (id ∈ ids)) first
      (ids.find? fun id => decide (first ≤ id)) :=
    BitSet.findsFrom_find? hsorted fun _ => decide_eq_true_iff.symm
  have hfinds : ∀ first, FragmentSet.nextSetBit fragment first =
      (ids.find? fun id => decide (first ≤ id)) ↔
      BitSet.FindsFrom (fun id => decide (id ∈ ids)) first
        (FragmentSet.nextSetBit fragment first) :=
    fun first => ⟨fun heq => heq ▸ hlist first, fun h => h.unique (hlist first)⟩
  simp only [Scans, hfinds, BitSet.findsFrom_iff_isLeast, decide_eq_true_eq, List.mem_toFinset]

/-! ## Draws -/

theorem takesRank [FragmentSet φ] [RandomSource ρ] {fragment : φ} (hscans : Scans fragment ids)
    (hsorted : ids.Pairwise (· < ·)) {source rest : ρ} {rank : Nat}
    (hcount : FragmentSet.cardinality fragment ≠ 0)
    (hdraw : RandomSource.below (FragmentSet.cardinality fragment) source = (rank, rest))
    (hroom : ∀ place left, place < rank → ids[place]? = some left → left + 1 < UInt64.size) :
    TakesRank fragment ids.toFinset source rank ids[rank]? rest := by
  have hlogged := selectLogged_eq hscans hsorted hcount hdraw hroom
  refine ⟨?_, ⟨_, hlogged, ?_⟩, ?_, ?_⟩
  · rw [← map_fst_selectLogged, hlogged]
    rfl
  · rw [List.length_cons, List.length_map]
    exact Nat.succ_le_succ (List.length_take_le _ _)
  · intro hrank
    rw [card_toFinset_of_increasing hsorted] at hrank
    have hid := List.getElem?_eq_getElem hrank
    exact ⟨_, List.mem_toFinset.mpr (List.getElem_mem hrank), hid,
      card_filter_lt_getElem? hsorted hid⟩
  · intro hrank
    rw [card_toFinset_of_increasing hsorted] at hrank
    exact List.getElem?_eq_none hrank

/-- A draw from a fragment that scans a finite set of indices but may declare any count. Without a
count it takes nothing, also from the source. Otherwise it takes one index below the count from the
words of the source, by widening multiplication with at most one correction, and ends with the
member of that rank. If the count is right there is one, and the last 64-bit integer may be a
member. -/
theorem select_takes_rank [FragmentSet φ] [RandomSource ρ] (words : RandomSource.Words ρ)
    {fragment : φ} {members : Finset Nat}
    (hscans : ∀ first i, FragmentSet.nextSetBit fragment first = some i ↔
      IsLeast {id | first ≤ id ∧ id ∈ members} i) (source : ρ) :
    (FragmentSet.cardinality fragment = 0 → select fragment source = .ok (none, source)) ∧
    (FragmentSet.cardinality fragment ≠ 0 → ∃ rank rest,
      words.Draws (FragmentSet.cardinality fragment) source rank rest ∧
      rank < FragmentSet.cardinality fragment ∧
      ((∀ id ∈ members, id < UInt64.size - 1) →
        ∃ found, TakesRank fragment members source rank found rest) ∧
      (FragmentSet.cardinality fragment = members.card → (∀ id ∈ members, id < UInt64.size) →
        ∃ id ∈ members, TakesRank fragment members source rank (some id) rest)) := by
  obtain ⟨ids, hsorted, rfl⟩ := exists_increasing members
  have hwalks := (scans_iff_isLeast hsorted).mpr hscans
  refine ⟨fun hnone => ?_, fun hcount => ?_⟩
  · rw [select, if_pos hnone]
    rfl
  · obtain ⟨rank, rest, hbelow, hdraws, hlt⟩ :=
      words.exists_draws (Nat.pos_of_ne_zero hcount) source
    refine ⟨rank, rest, hdraws, hlt, ?_, ?_⟩
    · intro hmembers
      refine ⟨_, takesRank hwalks hsorted hcount hbelow fun place left _ hleft => ?_⟩
      have hroom := hmembers left (List.mem_toFinset.mpr (List.mem_of_getElem? hleft))
      omega
    · intro hconsistent hmembers
      rw [hconsistent, card_toFinset_of_increasing hsorted] at hlt
      have hmember : ids[rank] ∈ ids.toFinset := List.mem_toFinset.mpr (List.getElem_mem hlt)
      refine ⟨_, hmember, ?_⟩
      rw [← List.getElem?_eq_getElem hlt]
      -- what the walk leaves is below the member that it gets to
      refine takesRank hwalks hsorted hcount hbelow fun place left hplace hleft => ?_
      obtain ⟨hbefore, rfl⟩ := List.getElem?_eq_some_iff.mp hleft
      have hless := List.pairwise_iff_getElem.mp hsorted place rank hbefore hlt hplace
      have hlast := hmembers _ hmember
      omega

/-- Three ids and their count, the last id being the greatest 64-bit integer. -/
def upToLast : DeclaredSet :=
  ⟨3, [5, 9, 18446744073709551615]⟩

theorem select_takes_rank_upToLast :
    (∀ first i, FragmentSet.nextSetBit upToLast first = some i ↔
      IsLeast {id | first ≤ id ∧ id ∈ upToLast.ids.toFinset} i) ∧
    FragmentSet.cardinality upToLast = upToLast.ids.toFinset.card ∧
    (∀ id ∈ upToLast.ids.toFinset, id < UInt64.size) ∧
    ∃ rank rest, Random.Stream.words.Draws 3 (.ofSeed 4) rank rest ∧ rank < 3 ∧
      TakesRank upToLast upToLast.ids.toFinset (.ofSeed 4) rank (some 18446744073709551615)
        rest := by
  have hsorted : upToLast.ids.Pairwise (· < ·) := by decide
  have hwalks : Scans upToLast upToLast.ids := fun _ => rfl
  have hscans := (scans_iff_isLeast hsorted).mp hwalks
  have hcount : FragmentSet.cardinality upToLast = upToLast.ids.toFinset.card := by decide
  have hmembers : ∀ id ∈ upToLast.ids.toFinset, id < UInt64.size := by decide
  obtain ⟨rank, rest, hdraws, hlt, _, htakes⟩ :=
    (select_takes_rank Random.Stream.words hscans (.ofSeed 4)).2 (by decide)
  obtain ⟨id, _, htakes⟩ := htakes hcount hmembers
  have hfound : (select upToLast (Random.Stream.ofSeed 4)).map Prod.fst =
      .ok (some 18446744073709551615) := by
    decide +kernel
  rw [htakes.selected] at hfound
  obtain rfl : id = 18446744073709551615 := by simpa [Except.map] using hfound
  exact ⟨hscans, hcount, hmembers, rank, rest, hdraws, hlt, htakes⟩

end LargeNeighborhood
