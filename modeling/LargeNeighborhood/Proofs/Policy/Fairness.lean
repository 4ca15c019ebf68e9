import LargeNeighborhood.Proofs.Draws.Ranks
import LargeNeighborhood.Proofs.Policy.Cycle
import LargeNeighborhood.Proofs.ValueGroups.Order

/-!
# Fair cycles

A cycle without a contradiction is a map from the ranks it draws to the values of its groups. The
map is one to one onto the selections of distinct recorded values, so fair ranks favour no group,
however large it is and wherever it first appeared.
-/

namespace LargeNeighborhood.Policy

section

variable [RandomSource ρ] {p : Policy} {values : List Int32}

theorem drawFrom_occupiedValues (p : Policy) (target : Nat) (source : ρ) :
    drawFrom (min target p.groups.usedValues) p.groups.occupiedValues source =
      ((p.drawOrder target source).1.map p.groups.valueAt, (p.drawOrder target source).2) := by
  rw [ValueGroups.occupiedValues, drawFrom_map, drawOrder]

/-- Without a contradiction the values of a cycle are picked by the ranks that it draws. -/
theorem Settled.drawOrder_eq_pick (h : p.Settled values) {k : Nat} (hk : k ≤ p.groups.usedValues)
    (source : ρ) :
    (p.drawOrder k source).1.map p.groups.valueAt =
        pick (drawnRanks hk source).toList p.groups.occupiedValues ∧
      (p.drawOrder k source).2 = sourceAfter p.groups.usedValues k source := by
  have hdrawn := p.drawFrom_occupiedValues k source
  rw [Nat.min_eq_left hk, drawFrom_eq_pick h.indexes.length_occupiedValues hk] at hdrawn
  obtain ⟨hpicked, hsource⟩ := Prod.mk.inj hdrawn
  exact ⟨hpicked.symm, hsource.symm⟩

end

/-- Cycles draw fairly. Seen as a function of the `k` ranks that it draws, the first below the
number of occupied groups, the next below one less and so on, a cycle without a contradiction maps
ranks one to one onto the lists of `k` distinct recorded values. So if the ranks are uniform and
independent, all such lists are drawn with the same chance. -/
theorem selectAndFreeze_fair {p : Policy} {values : Array Int32} (reachable : p.Reachable values)
    {k : Nat} (hk : k ≤ p.groups.usedValues) :
    ∃ selected : Ranks p.groups.usedValues k → Selection {value | value ∈ values} k,
      Function.Bijective selected ∧
      -- cycles with any source and any callback without a contradiction
      (∀ {ρ σ : Type} [RandomSource ρ] (source : ρ) (answer : Nat → σ → Bool × σ) (state : σ),
        ∃ final frozen events, p.selectAndFreeze k source (.calm answer) state =
          .ok ⟨p, sourceAfter p.groups.usedValues k source, final,
            .ok ⟨(selected (drawnRanks hk source)).1, frozen⟩, events⟩) ∧
      -- some source draws these ranks
      (∀ ranks, drawnRanks hk (⟨ranks.toList⟩ : Script) = ranks) ∧
      -- uniform and independent ranks
      ∀ law : PMF (Ranks p.groups.usedValues k),
        (∀ ranks, law ranks = ∏ i : Fin k, ((p.groups.usedValues - i : ℕ) : ENNReal)⁻¹) →
          ∀ selection, law.map selected selection =
            (p.groups.usedValues.descFactorial k : ENNReal)⁻¹ := by
  have h := reachable.settled
  have hmem : ∀ value, value ∈ p.groups.occupiedValues ↔ value ∈ {value | value ∈ values} := by
    intro value
    rw [h.indexes.mem_occupiedValues_iff, Array.mem_toList_iff]
    exact Iff.rfl
  obtain ⟨selected, hpick, hbijective⟩ := exists_bijective_pick h.indexes.nodup_occupiedValues hmem
    h.indexes.length_occupiedValues k
  refine ⟨selected, hbijective, ?_, Script.drawnRanks_eq hk, ?_⟩
  · intro ρ σ _ source answer state
    obtain ⟨hpicked, hsource⟩ := h.drawOrder_eq_pick hk source
    obtain ⟨_, final, frozen, _, hplain, _⟩ := h.exists_calm_cycle k source answer state
    rw [h.cycleOf_closed, hpicked, hsource, ← hpick] at hplain
    exact ⟨final, frozen, _, hplain⟩
  · intro law hlaw selection
    obtain ⟨ranks, rfl⟩ := hbijective.surjective selection
    rw [map_apply_of_injective hbijective.injective, hlaw, prod_inv_eq_descFactorial]

theorem selectAndFreeze_fair_shared :
    shared.Reachable #[1, 1, 2, 3] ∧ ∃ hk : 2 ≤ shared.groups.usedValues,
    ∃ selected : Ranks shared.groups.usedValues 2 →
        Selection {value | value ∈ (#[1, 1, 2, 3] : Array Int32)} 2,
      Function.Bijective selected ∧
      (selected (drawnRanks hk (⟨[2, 0]⟩ : Script))).1 = [3, 1] ∧
      ∃ law : PMF (Ranks shared.groups.usedValues 2),
        ∀ selection, law.map selected selection = (6 : ENNReal)⁻¹ := by
  have hk : 2 ≤ shared.groups.usedValues := by decide
  obtain ⟨selected, hbijective, hcycle, _, hfair⟩ := selectAndFreeze_fair reachable_shared hk
  obtain ⟨law, hlaw⟩ := exists_fair_ranks hk
  refine ⟨reachable_shared, hk, selected, hbijective, ?_, law, ?_⟩
  · have hreplay : (shared.selectAndFreeze 2 (⟨[2, 0]⟩ : Script)
        (.calm fun _ count => (true, count)) 0).map (fun cycle => cycle.result.map Outcome.drawn) =
          .ok (.ok [3, 1]) := by
      decide +kernel
    obtain ⟨final, frozen, events, hrun⟩ :=
      hcycle (⟨[2, 0]⟩ : Script) (fun _ count => (true, count)) 0
    rw [hrun] at hreplay
    exact Except.ok.inj (Except.ok.inj hreplay)
  · intro selection
    have hcount : shared.groups.usedValues.descFactorial 2 = 6 := rfl
    have hchance := hfair law hlaw selection
    rw [hcount] at hchance
    exact_mod_cast hchance

end LargeNeighborhood.Policy
