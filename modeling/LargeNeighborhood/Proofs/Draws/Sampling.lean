import LargeNeighborhood.Proofs.Draws.Walk
import Mathlib.Data.List.Perm.Subperm

/-!
# Draws without replacement

A draw takes the item of a random rank and leaves the others. Drawing again and again from what is
left is `drawFrom`, on any list.
-/

namespace LargeNeighborhood

/-- Draws without replacement: each draw takes a rank below the length of what is left. -/
def drawFrom [RandomSource ρ] : (count : Nat) → List α → ρ → List α × ρ
  | 0, _, source => ([], source)
  | count + 1, items, source =>
    let (rank, source) := RandomSource.below items.length source
    match items[rank]? with
    | none => ([], source)
    | some item =>
      let (drawn, source) := drawFrom count (items.eraseIdx rank) source
      (item :: drawn, source)

section

variable [RandomSource ρ]

theorem exists_drawFrom_succ {items : List α} (hne : items ≠ []) (source : ρ) :
    ∃ rank item, (RandomSource.below items.length source).1 = rank ∧ items[rank]? = some item ∧
      ∀ count, drawFrom (count + 1) items source =
        (item :: (drawFrom count (items.eraseIdx rank)
            (RandomSource.below items.length source).2).1,
          (drawFrom count (items.eraseIdx rank) (RandomSource.below items.length source).2).2) := by
  have hrank := RandomSource.below_lt source (List.length_pos_of_ne_nil hne)
  refine ⟨_, _, rfl, List.getElem?_eq_getElem hrank, ?_⟩
  intro count
  simp only [drawFrom, List.getElem?_eq_getElem hrank]

theorem length_drawFrom {count : Nat} {items : List α} (h : count ≤ items.length) (source : ρ) :
    (drawFrom count items source).1.length = count := by
  induction count generalizing items source with
  | zero => rfl
  | succ count ih =>
    have hne : items ≠ [] := List.ne_nil_of_length_pos (by omega)
    obtain ⟨rank, item, _, hitem, hdraw⟩ := exists_drawFrom_succ hne source
    have hrank := (List.getElem?_eq_some_iff.mp hitem).1
    rw [hdraw, List.length_cons, ih]
    rw [List.length_eraseIdx_of_lt hrank]
    omega

theorem subperm_drawFrom (count : Nat) (items : List α) (source : ρ) :
    (drawFrom count items source).1.Subperm items := by
  induction count generalizing items source with
  | zero => exact List.nil_subperm
  | succ count ih =>
    cases items with
    | nil => simp [drawFrom]
    | cons first items =>
      obtain ⟨rank, item, _, hitem, hdraw⟩ :=
        exists_drawFrom_succ (List.cons_ne_nil first items) source
      obtain ⟨hrank, rfl⟩ := List.getElem?_eq_some_iff.mp hitem
      rw [hdraw]
      exact ((List.subperm_cons _).mpr (ih _ _)).trans
        (List.getElem_cons_eraseIdx_perm hrank).subperm

theorem take_drawFrom {count more : Nat} (h : count ≤ more) (items : List α) (source : ρ) :
    (drawFrom more items source).1.take count = (drawFrom count items source).1 := by
  induction count generalizing more items source with
  | zero => rfl
  | succ count ih =>
    obtain ⟨more, rfl⟩ := Nat.exists_eq_succ_of_ne_zero (by omega : more ≠ 0)
    cases items with
    | nil => simp [drawFrom]
    | cons first items =>
      obtain ⟨rank, item, _, _, hdraw⟩ :=
        exists_drawFrom_succ (List.cons_ne_nil first items) source
      rw [Nat.succ_eq_add_one, hdraw, hdraw, List.take_succ_cons, ih (by omega)]

/-- After some draws the source has given one rank below each of the lengths in turn. -/
theorem source_drawFrom {count : Nat} {items : List α} (h : count ≤ items.length)
    (source : ρ) :
    (drawFrom count items source).2 =
      (List.range count).foldl
        (fun source done => (RandomSource.below (items.length - done) source).2) source := by
  induction count generalizing items source with
  | zero => rfl
  | succ count ih =>
    have hne : items ≠ [] := List.ne_nil_of_length_pos (by omega)
    obtain ⟨rank, item, _, hitem, hdraw⟩ := exists_drawFrom_succ hne source
    have hlength := List.length_eraseIdx_of_lt (List.getElem?_eq_some_iff.mp hitem).1
    rw [hdraw, ih (by omega), hlength, List.range_succ_eq_map, List.foldl_cons, List.foldl_map,
      Nat.sub_zero]
    congr 1
    funext source done
    rw [Nat.succ_eq_add_one, Nat.sub_sub, Nat.add_comm]

theorem drawFrom_map (f : α → β) (count : Nat) (items : List α) (source : ρ) :
    drawFrom count (items.map f) source =
      ((drawFrom count items source).1.map f, (drawFrom count items source).2) := by
  induction count generalizing items source with
  | zero => rfl
  | succ count ih =>
    simp only [drawFrom, List.length_map, List.getElem?_map]
    cases items[(RandomSource.below items.length source).1]? with
    | none => rfl
    | some item => simp only [Option.map_some, List.eraseIdx_map, ih, List.map_cons]

end

end LargeNeighborhood
