import LargeNeighborhood.Neighbor
import LargeNeighborhood.Proofs.StoredSolution.Lookup
import Mathlib.Data.Finset.Card

/-!
# Histories of a stored solution

However a stored solution came about, it gives each variable the value written for it last. Its
entries are in order, one per variable, so nothing else is left of the writes: solutions that give
the same values are equal, and a neighborhood that loads one reads the values of its own variables
alone.
-/

namespace LargeNeighborhood

namespace StoredSolution

inductive Origin
  | listed (pairs : List (VarId × Int32))
  | captured (m : Model) (vars : List VarId)

namespace Origin

def store : Origin → Checked StoredSolution
  | .listed pairs => return ofList pairs
  | .captured m vars => record m vars

/-- The pairs, or the variables to capture that have a single value. -/
def writes : Origin → List (VarId × Int32)
  | .listed pairs => pairs
  | .captured m vars => vars.filterMap fun var =>
    (m.domains[var.index]?.bind Domain.value?).map fun value => (var, value)

def Covers : Origin → Prop
  | .listed _ => True
  | .captured m vars => ∀ var ∈ vars, var.index < m.domains.size

end Origin

/-- A stored solution is made and then written to, in place or by way of copies. -/
structure History where
  origin : Origin
  later : List (VarId × Int32)

namespace History

def store (h : History) : Checked StoredSolution := do
  return h.later.foldl (fun s (var, value) => s.insert var value) (← h.origin.store)

def writes (h : History) : List (VarId × Int32) :=
  h.origin.writes ++ h.later

end History

/-- A stored solution is the map in which the last of some writes win. -/
structure LastWins (s : StoredSolution) (writes : List (VarId × Int32)) : Prop where
  value?_eq : ∀ var, s.value? var = lastWrite writes var
  size_eq : s.size = (writes.map Prod.fst).toFinset.card
  isEmpty_iff : s.isEmpty = true ↔ writes = []

variable {s t : StoredSolution} {m : Model} {var : VarId} {vars : List VarId} {value : Int32}
  {writes : List (VarId × Int32)}

/-! ## Equality -/

theorem mem_entries_iff : (var, value) ∈ s.entries ↔ s.value? var = some value := by
  obtain ⟨entries, increasing⟩ := s
  change (var, value) ∈ entries ↔ entries.lookup var = some value
  induction entries with
  | nil => simp
  | cons entry rest ih =>
    obtain ⟨first, old⟩ := entry
    obtain ⟨hbelow, hrest⟩ := List.pairwise_cons.mp increasing
    rw [lookup_cons_eq, List.mem_cons, Prod.mk.injEq, ih hrest]
    split
    · rename_i hsame
      subst hsame
      -- the entries after the first one are of greater variables
      have hnone : rest.lookup var ≠ some value := by
        intro hvalue
        exact Nat.lt_irrefl _ (hbelow (var, value) ((ih hrest).mpr hvalue))
      simp [hnone, eq_comm]
    · rename_i hdiffer
      simp [hdiffer]

theorem nodup_vars (s : StoredSolution) : (s.entries.map Prod.fst).Nodup := by
  rw [List.Nodup, List.pairwise_map]
  exact s.increasing.imp fun hlt hsame => Nat.ne_of_lt hlt (congrArg VarId.index hsame)

theorem eq_iff_value?_eq : s = t ↔ ∀ var, s.value? var = t.value? var := by
  constructor
  · rintro rfl var
    rfl
  · intro hvalues
    have hmem : ∀ entry, entry ∈ s.entries ↔ entry ∈ t.entries := by
      rintro ⟨var, value⟩
      rw [mem_entries_iff, mem_entries_iff, hvalues]
    have hperm : s.entries.Perm t.entries :=
      (List.perm_ext_iff_of_nodup s.nodup_vars.of_map t.nodup_vars.of_map).mpr hmem
    -- both lists are in the one order of the variables
    have hentries : s.entries = t.entries := by
      refine hperm.eq_of_pairwise ?_ s.increasing t.increasing
      intro a b _ _ hab hba
      exact absurd hab (Nat.lt_asymm hba)
    cases s
    cases t
    cases hentries
    rfl

theorem lastWins_of_value?_eq (hvalues : ∀ var, s.value? var = lastWrite writes var) :
    s.LastWins writes := by
  have hwritten : ∀ var,
      var ∈ writes.map Prod.fst ↔ ∃ value, s.value? var = some value := by
    intro var
    rw [hvalues, ← isSome_lastWrite, Option.isSome_iff_exists]
  have hvars : (s.entries.map Prod.fst).toFinset = (writes.map Prod.fst).toFinset := by
    ext var
    rw [List.mem_toFinset, List.mem_toFinset, hwritten]
    simp only [← mem_entries_iff, List.mem_map, Prod.exists, exists_and_right, exists_eq_right]
  have hsize : s.size = (writes.map Prod.fst).toFinset.card := by
    rw [← hvars, List.toFinset_card_of_nodup s.nodup_vars, List.length_map, size]
  refine ⟨hvalues, hsize, ?_⟩
  rw [isEmpty, List.isEmpty_iff, ← List.length_eq_zero_iff, ← size, hsize, Finset.card_eq_zero,
    List.toFinset_eq_empty_iff, List.map_eq_nil_iff]

theorem lastWins_ofList (pairs : List (VarId × Int32)) : (ofList pairs).LastWins pairs :=
  lastWins_of_value?_eq (value?_ofList_eq pairs)

/-! ## Histories -/

theorem instantiated_eq (hvars : ∀ var ∈ vars, var.index < m.domains.size) :
    instantiated m vars = .ok (Origin.captured m vars).writes := by
  induction vars with
  | nil => rfl
  | cons var vars ih =>
    obtain ⟨hvar, hrest⟩ := List.forall_mem_cons.mp hvars
    have hdomain : m.domains[var.index]? = some m.domains[var.index] :=
      Array.getElem?_eq_getElem hvar
    rw [instantiated, Model.value_eq (Model.domain_eq_ok_iff.mpr hdomain), Checked.ok_bind,
      ih hrest, Checked.ok_bind, Origin.writes, Origin.writes, List.filterMap_cons, hdomain,
      Option.bind_some]
    cases m.domains[var.index].value? <;> rfl

theorem Origin.store_eq {origin : Origin} (hcovers : origin.Covers) :
    origin.store = .ok (ofList origin.writes) := by
  cases origin with
  | listed pairs => rfl
  | captured m vars =>
    rw [store, record, instantiated_eq hcovers]
    rfl

theorem History.store_eq {h : History} (hcovers : h.origin.Covers) :
    h.store = .ok (ofList h.writes) := by
  rw [store, Origin.store_eq hcovers, Checked.ok_bind, writes, ofList, ofList, List.foldl_append]
  rfl

end StoredSolution

/-! ## Loading -/

namespace Neighbor

variable {n : Neighbor} {read read' : VarId → Checked (Except NeighborError Int32)}

theorem readValues_congr {vars : List VarId} (h : ∀ var ∈ vars, read var = read' var) :
    n.readValues read vars = n.readValues read' vars := by
  induction vars with
  | nil => rfl
  | cons var vars ih =>
    obtain ⟨hvar, hrest⟩ := List.forall_mem_cons.mp h
    rw [readValues, readValues, hvar, ih hrest]

/-- A loading asks for the values of the variables of the neighborhood and for nothing else. -/
theorem load_congr {s t : StoredSolution} (h : ∀ var ∈ n.vars, s.value? var = t.value? var) :
    n.load s = n.load t := by
  have hread : ∀ var ∈ n.vars.toList, storedValue s var = storedValue t var := by
    intro var hvar
    rw [storedValue, storedValue, h var (Array.mem_toList_iff.mp hvar)]
  rw [load, load, recordWith, recordWith, readValues_congr hread]

end Neighbor

namespace StoredSolution

/-- Whatever two stored solutions were made from and however they were written to since, each gives
the variables their last values and counts the variables written. They are equal exactly if they
give the same values, and a neighborhood cannot tell them apart if they give its variables the same
values. -/
theorem last_write_wins {a b : History} (ha : a.origin.Covers) (hb : b.origin.Covers) :
    ∃ s t, a.store = .ok s ∧ b.store = .ok t ∧ s.LastWins a.writes ∧ t.LastWins b.writes ∧
      (s = t ↔ ∀ var, s.value? var = t.value? var) ∧
      (s = t ↔ ∀ var, lastWrite a.writes var = lastWrite b.writes var) ∧
      ∀ n : Neighbor, (∀ var ∈ n.vars, s.value? var = t.value? var) →
        n.load s = n.load t := by
  refine ⟨_, _, History.store_eq ha, History.store_eq hb, lastWins_ofList _, lastWins_ofList _,
    eq_iff_value?_eq, ?_, fun n => Neighbor.load_congr⟩
  simp only [eq_iff_value?_eq, value?_ofList_eq]

def capturedHistory : History where
  origin := .captured { Model.empty with domains := #[.singleton 1, .interval 0 3] }
    [⟨0⟩, ⟨1⟩, ⟨0⟩]
  later := [(⟨1⟩, 2), (⟨0⟩, 3)]

def listedHistory : History where
  origin := .listed [(⟨1⟩, 7), (⟨0⟩, 3), (⟨1⟩, 2)]
  later := []

/-- Two histories of one solution, and a longer one of another solution, which a neighborhood
without the variable written last does not tell from the first. -/
theorem last_write_wins_captured :
    capturedHistory.origin.Covers ∧ listedHistory.origin.Covers ∧
    (∃ s, capturedHistory.store = .ok s ∧ listedHistory.store = .ok s ∧ s.size = 2 ∧
      s.value? ⟨0⟩ = some 3 ∧ s.value? ⟨2⟩ = none) ∧
    ∃ s t, capturedHistory.store = .ok s ∧
      { listedHistory with later := [(⟨2⟩, 5)] }.store = .ok t ∧ s ≠ t ∧
      ∀ n : Neighbor, n.vars = #[⟨1⟩, ⟨0⟩, ⟨1⟩] → n.load s = n.load t := by
  have hcovers : capturedHistory.origin.Covers := by
    change ∀ var ∈ ([⟨0⟩, ⟨1⟩, ⟨0⟩] : List VarId), var.index < 2
    decide
  have hlisted : listedHistory.origin.Covers := trivial
  refine ⟨hcovers, hlisted, ?_, ?_⟩
  · obtain ⟨s, t, hs, ht, hlast, _, _, hequal, _⟩ := last_write_wins hcovers hlisted
    have hsame : s = t := by
      apply hequal.mpr
      intro var
      by_cases hzero : var = ⟨0⟩
      · rw [hzero]
        decide
      · by_cases hone : var = ⟨1⟩
        · rw [hone]
          decide
        · have hother : var ∉ [(⟨0⟩ : VarId), ⟨1⟩] := by simp [hzero, hone]
          have hwritten : ∀ h : History, h.writes.map Prod.fst ⊆ [⟨0⟩, ⟨1⟩] →
              lastWrite h.writes var = none :=
            fun h hsubset => lastWrite_eq_none_iff.mpr fun hmem => hother (hsubset hmem)
          rw [hwritten capturedHistory (by decide), hwritten listedHistory (by decide)]
    rw [← hsame] at ht
    exact ⟨s, hs, ht, hlast.size_eq, hlast.value?_eq _, hlast.value?_eq _⟩
  · have hlonger : { listedHistory with later := [(⟨2⟩, 5)] }.origin.Covers := hlisted
    obtain ⟨s, t, hs, ht, hlast, hlast', hequal, _, hload⟩ := last_write_wins hcovers hlonger
    refine ⟨s, t, hs, ht, ?_, ?_⟩
    · intro hsame
      have hvalue := hequal.mp hsame ⟨2⟩
      rw [hlast.value?_eq, hlast'.value?_eq] at hvalue
      cases hvalue
    · intro n hvars
      apply hload
      rw [hvars]
      simp only [hlast.value?_eq, hlast'.value?_eq]
      decide

end StoredSolution

end LargeNeighborhood
