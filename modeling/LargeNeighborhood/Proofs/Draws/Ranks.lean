import LargeNeighborhood.Proofs.Draws.Sampling
import Mathlib.Data.Nat.Factorial.Basic
import Mathlib.Probability.Distributions.Uniform

/-!
# Ranks and selections

Drawing without replacement turns ranks into items: a rank below the number of items, then one below
one less, and so on. Every selection of distinct items comes from exactly one sequence of ranks, so
independent uniform ranks give all selections of one length the same chance.
-/

namespace LargeNeighborhood

/-- A rank below `n`, one below `n - 1` and so on, `k` in all. -/
abbrev Ranks (n k : Nat) := (i : Fin k) → Fin (n - i)

/-- Lists of `k` distinct members of a set. -/
abbrev Selection (s : Set α) (k : Nat) :=
  { drawn : List α // drawn.length = k ∧ drawn.Nodup ∧ ∀ item ∈ drawn, item ∈ s }

/-- Takes the items of some ranks out of a list, one after the other. -/
def pick : (ranks : List Nat) → List α → List α
  | [], _ => []
  | rank :: ranks, items =>
    match items[rank]? with
    | none => []
    | some item => item :: pick ranks (items.eraseIdx rank)

def RanksBelow (n : Nat) (ranks : List Nat) : Prop :=
  ∀ i rank, ranks[i]? = some rank → rank < n - i

theorem ranksBelow_cons {n rank : Nat} {ranks : List Nat} :
    RanksBelow n (rank :: ranks) ↔ rank < n ∧ RanksBelow (n - 1) ranks := by
  constructor
  · intro h
    refine ⟨h 0 rank rfl, ?_⟩
    intro i other hother
    have hlt := h (i + 1) other (by simpa using hother)
    omega
  · rintro ⟨hrank, h⟩ i other hother
    cases i with
    | zero =>
      rw [List.getElem?_cons_zero, Option.some.injEq] at hother
      omega
    | succ i =>
      have hlt := h i other (by simpa using hother)
      omega

namespace Ranks

def toList (ranks : Ranks n k) : List Nat :=
  List.ofFn fun i => (ranks i : Nat)

theorem length_toList (ranks : Ranks n k) : ranks.toList.length = k :=
  List.length_ofFn

theorem ranksBelow_toList (ranks : Ranks n k) : RanksBelow n ranks.toList := by
  intro i rank hrank
  obtain ⟨hi, rfl⟩ := List.getElem?_eq_some_iff.mp hrank
  have hget : ranks.toList[i] = _ := List.getElem_ofFn ..
  rw [hget]
  exact Fin.isLt _

theorem toList_injective : Function.Injective (toList : Ranks n k → List Nat) := by
  intro ranks ranks' h
  funext i
  exact Fin.ext (congrFun (List.ofFn_injective h) i)

theorem exists_toList_eq {ranks : List Nat} (hlength : ranks.length = k)
    (h : RanksBelow n ranks) : ∃ ranks' : Ranks n k, ranks'.toList = ranks := by
  subst hlength
  refine ⟨fun i => ⟨ranks[i], h i ranks[i] (List.getElem?_eq_getElem i.isLt)⟩, ?_⟩
  exact List.ofFn_getElem

end Ranks

/-! ## Picking -/

theorem pick_cons {rank : Nat} {items : List α} (hrank : rank < items.length) (ranks : List Nat) :
    pick (rank :: ranks) items = items[rank] :: pick ranks (items.eraseIdx rank) := by
  simp only [pick, List.getElem?_eq_getElem hrank]

theorem length_pick {ranks : List Nat} {items : List α} (h : RanksBelow items.length ranks) :
    (pick ranks items).length = ranks.length := by
  induction ranks generalizing items with
  | nil => rfl
  | cons rank ranks ih =>
    obtain ⟨hrank, hranks⟩ := ranksBelow_cons.mp h
    rw [← List.length_eraseIdx_of_lt hrank] at hranks
    rw [pick_cons hrank, List.length_cons, List.length_cons, ih hranks]

theorem subperm_pick (ranks : List Nat) (items : List α) : (pick ranks items).Subperm items := by
  induction ranks generalizing items with
  | nil => exact List.nil_subperm
  | cons rank ranks ih =>
    by_cases hrank : rank < items.length
    · rw [pick_cons hrank]
      exact ((List.subperm_cons _).mpr (ih _)).trans
        (List.getElem_cons_eraseIdx_perm hrank).subperm
    · have hnone : items[rank]? = none := List.getElem?_eq_none (by omega)
      simp only [pick, hnone]
      exact List.nil_subperm

theorem pick_injective {ranks ranks' : List Nat} {items : List α} (hnodup : items.Nodup)
    (h : RanksBelow items.length ranks) (h' : RanksBelow items.length ranks')
    (hpick : pick ranks items = pick ranks' items) : ranks = ranks' := by
  induction ranks generalizing items ranks' with
  | nil =>
    have hlength := congrArg List.length hpick
    rw [length_pick h, length_pick h', List.length_nil, eq_comm, List.length_eq_zero_iff] at hlength
    exact hlength.symm
  | cons rank ranks ih =>
    cases ranks' with
    | nil =>
      have hlength := congrArg List.length hpick
      rw [length_pick h, length_pick h'] at hlength
      simp at hlength
    | cons rank' ranks' =>
      obtain ⟨hrank, hranks⟩ := ranksBelow_cons.mp h
      obtain ⟨hrank', hranks'⟩ := ranksBelow_cons.mp h'
      -- without duplicates the first item tells the first rank, so both go on from one list
      rw [pick_cons hrank, pick_cons hrank', List.cons.injEq, hnodup.getElem_inj_iff] at hpick
      obtain ⟨rfl, hrest⟩ := hpick
      rw [← List.length_eraseIdx_of_lt hrank] at hranks hranks'
      rw [ih (hnodup.sublist (List.eraseIdx_sublist ..)) hranks hranks' hrest]

theorem exists_pick_eq {items drawn : List α} (hdrawn : drawn.Nodup)
    (hmem : ∀ item ∈ drawn, item ∈ items) :
    ∃ ranks, RanksBelow items.length ranks ∧ pick ranks items = drawn := by
  induction drawn generalizing items with
  | nil => exact ⟨[], fun i rank h => by simp at h, rfl⟩
  | cons item drawn ih =>
    obtain ⟨hfresh, hrest⟩ := List.nodup_cons.mp hdrawn
    obtain ⟨rank, hrank, hitem⟩ := List.getElem_of_mem (hmem item List.mem_cons_self)
    -- the other items are still there once the first one is taken
    have hlater : ∀ other ∈ drawn, other ∈ items.eraseIdx rank := by
      intro other hother
      have hin := hmem other (List.mem_cons_of_mem _ hother)
      have hne : other ≠ item := fun heq => hfresh (heq ▸ hother)
      rw [← (List.getElem_cons_eraseIdx_perm hrank).mem_iff, hitem, List.mem_cons] at hin
      exact hin.resolve_left hne
    obtain ⟨ranks, hranks, hpick⟩ := ih hrest hlater
    rw [List.length_eraseIdx_of_lt hrank] at hranks
    exact ⟨rank :: ranks, ranksBelow_cons.mpr ⟨hrank, hranks⟩,
      by rw [pick_cons hrank, hpick, hitem]⟩

/-- Picking from distinct items maps ranks one to one onto selections. -/
theorem exists_bijective_pick {items : List α} (hnodup : items.Nodup) {s : Set α}
    (hs : ∀ item, item ∈ items ↔ item ∈ s) {n : Nat} (hn : items.length = n) (k : Nat) :
    ∃ selected : Ranks n k → Selection s k,
      (∀ ranks, (selected ranks).1 = pick ranks.toList items) ∧ Function.Bijective selected := by
  subst hn
  have hselection : ∀ ranks : Ranks items.length k, (pick ranks.toList items).length = k ∧
      (pick ranks.toList items).Nodup ∧ ∀ item ∈ pick ranks.toList items, item ∈ s := by
    intro ranks
    have hsubperm := subperm_pick ranks.toList items
    obtain ⟨picked, hperm, hsublist⟩ := hsubperm
    refine ⟨?_, hperm.nodup_iff.mp (hnodup.sublist hsublist), ?_⟩
    · rw [length_pick ranks.ranksBelow_toList, ranks.length_toList]
    · intro item hitem
      exact (hs item).mp (hsublist.subset (hperm.mem_iff.mpr hitem))
  refine ⟨fun ranks => ⟨_, hselection ranks⟩, fun _ => rfl, ?_, ?_⟩
  · intro ranks ranks' heq
    exact Ranks.toList_injective (pick_injective hnodup ranks.ranksBelow_toList
      ranks'.ranksBelow_toList (congrArg Subtype.val heq))
  · rintro ⟨drawn, hlength, hdrawn, hmem⟩
    obtain ⟨ranks, hranks, hpick⟩ :=
      exists_pick_eq hdrawn fun item hitem => (hs item).mpr (hmem item hitem)
    have hcount : ranks.length = k := by rw [← length_pick hranks, hpick, hlength]
    obtain ⟨ranks', rfl⟩ := Ranks.exists_toList_eq hcount hranks
    exact ⟨ranks', Subtype.ext hpick⟩

/-! ## Sources of ranks -/

def sourceAfter [RandomSource ρ] (n draws : Nat) (source : ρ) : ρ :=
  (List.range draws).foldl (fun source done => (RandomSource.below (n - done) source).2) source

def drawnRanks [RandomSource ρ] {n k : Nat} (hk : k ≤ n) (source : ρ) : Ranks n k := fun i =>
  ⟨(RandomSource.below (n - i) (sourceAfter n i source)).1,
    RandomSource.below_lt _ (by omega)⟩

theorem sourceAfter_succ [RandomSource ρ] (n draws : Nat) (source : ρ) :
    sourceAfter (n + 1) (draws + 1) source =
      sourceAfter n draws (RandomSource.below (n + 1) source).2 := by
  rw [sourceAfter, sourceAfter, List.range_succ_eq_map, List.foldl_cons, List.foldl_map]
  simp only [Nat.sub_zero, Nat.succ_eq_add_one, Nat.add_sub_add_right]

theorem toList_drawnRanks_succ [RandomSource ρ] {n k : Nat} (hk : k ≤ n) (source : ρ) :
    (drawnRanks (Nat.add_le_add_right hk 1) source).toList =
      (RandomSource.below (n + 1) source).1 ::
        (drawnRanks hk (RandomSource.below (n + 1) source).2).toList := by
  rw [Ranks.toList, List.ofFn_succ, Ranks.toList]
  refine congrArg₂ List.cons rfl (congrArg List.ofFn (funext fun i => ?_))
  simp only [drawnRanks, Fin.val_succ, sourceAfter_succ, Nat.add_sub_add_right]

theorem fst_drawFrom [RandomSource ρ] {count n : Nat} {items : List α} (hn : items.length = n)
    (hcount : count ≤ n) (source : ρ) :
    (drawFrom count items source).1 = pick (drawnRanks hcount source).toList items := by
  induction count generalizing items n source with
  | zero => rfl
  | succ count ih =>
    obtain ⟨n, rfl⟩ : ∃ m, n = m + 1 := ⟨n - 1, by omega⟩
    have hne : items ≠ [] := List.ne_nil_of_length_pos (by omega)
    have hstep := exists_drawFrom_succ hne source
    rw [hn] at hstep
    obtain ⟨rank, item, hrank, hitem, hdraw⟩ := hstep
    obtain ⟨hlt, rfl⟩ := List.getElem?_eq_some_iff.mp hitem
    have hrest : (items.eraseIdx rank).length = n := by
      rw [List.length_eraseIdx_of_lt hlt]
      omega
    have hcount' : count ≤ n := Nat.le_of_succ_le_succ hcount
    rw [hdraw, toList_drawnRanks_succ hcount', hrank, pick_cons hlt, ih hrest hcount']

/-- A draw without replacement picks by the ranks of its source and takes no others. -/
theorem drawFrom_eq_pick [RandomSource ρ] {count n : Nat} {items : List α} (hn : items.length = n)
    (hcount : count ≤ n) (source : ρ) :
    drawFrom count items source =
      (pick (drawnRanks hcount source).toList items, sourceAfter n count source) := by
  have hsource : (drawFrom count items source).2 = sourceAfter n count source := by
    rw [source_drawFrom (by omega), hn, sourceAfter]
  exact Prod.ext (fst_drawFrom hn hcount source) hsource

/-- A source that gives out prepared ranks, each cut to its bound. -/
structure Script where
  ranks : List Nat

namespace Script

def below (bound : Nat) (script : Script) : Nat × Script :=
  match script.ranks with
  | [] => (0, script)
  | rank :: ranks => (min rank (bound - 1), ⟨ranks⟩)

theorem below_lt {bound : Nat} (script : Script) (hbound : 0 < bound) :
    (script.below bound).1 < bound := by
  unfold below
  split
  · exact hbound
  · dsimp only
    omega

instance : RandomSource Script where
  below := below
  below_lt := below_lt
  unit script := (Binary64.zero, script)

theorem sourceAfter_eq (n draws : Nat) (ranks : List Nat) :
    sourceAfter n draws (⟨ranks⟩ : Script) = ⟨ranks.drop draws⟩ := by
  unfold sourceAfter
  induction draws with
  | zero => rfl
  | succ draws ih =>
    rw [List.range_succ, List.foldl_append, ih, ← List.drop_drop]
    cases ranks.drop draws <;> rfl

theorem drawnRanks_eq {n k : Nat} (hk : k ≤ n) (ranks : Ranks n k) :
    drawnRanks hk (⟨ranks.toList⟩ : Script) = ranks := by
  funext i
  have hi : (i : Nat) < ranks.toList.length := by
    rw [ranks.length_toList]
    exact i.isLt
  have hget : ranks.toList[(i : Nat)] = ranks i := List.getElem_ofFn ..
  have hlt := (ranks i).isLt
  apply Fin.ext
  simp only [drawnRanks, sourceAfter_eq, List.drop_eq_getElem_cons hi, hget]
  change min (ranks i : Nat) (n - i - 1) = ranks i
  omega

end Script

/-! ## Chances -/

theorem prod_inv_eq_descFactorial (n k : Nat) :
    ∏ i : Fin k, ((n - i : ℕ) : ENNReal)⁻¹ = (n.descFactorial k : ENNReal)⁻¹ := by
  rw [Nat.descFactorial_eq_prod_range, Nat.cast_prod,
    ENNReal.prod_inv_distrib fun i _ j _ _ => .inr (ENNReal.natCast_ne_top _),
    Fin.prod_univ_eq_prod_range fun i => ((n - i : ℕ) : ENNReal)⁻¹]

theorem exists_fair_ranks {n k : Nat} (hk : k ≤ n) :
    ∃ law : PMF (Ranks n k), ∀ ranks, law ranks = ∏ i : Fin k, ((n - i : ℕ) : ENNReal)⁻¹ := by
  have hnonempty : Nonempty (Ranks n k) := ⟨fun i => ⟨0, by omega⟩⟩
  refine ⟨PMF.uniformOfFintype (Ranks n k), fun ranks => ?_⟩
  rw [PMF.uniformOfFintype_apply, Fintype.card_pi, Nat.cast_prod,
    ENNReal.prod_inv_distrib fun i _ j _ _ => .inr (ENNReal.natCast_ne_top _)]
  simp only [Fintype.card_fin]

theorem map_apply_of_injective {f : α → β} (hf : Function.Injective f) (law : PMF α) (a : α) :
    law.map f (f a) = law a := by
  rw [PMF.map_apply, tsum_eq_single a]
  · rw [if_pos rfl]
  · intro other hother
    rw [if_neg fun heq => hother (hf heq).symm]

end LargeNeighborhood
