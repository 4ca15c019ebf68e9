import LargeNeighborhood.Proofs.Policy.Settled
import LargeNeighborhood.Random.Stream

/-!
# Whole cycles

What a cycle does from any reachable policy: it samples the occupied groups without replacement,
and however it ends, its calls back are the first ones of the cycle that draws every group.
-/

namespace LargeNeighborhood.Policy

section

variable [RandomSource ρ] {p : Policy} {values : List Int32}

theorem Settled.length_drawOrder (h : p.Settled values) (target : Nat) (source : ρ) :
    (p.drawOrder target source).1.length = min target p.groups.usedValues := by
  have hlength := h.indexes.length_occupiedIds
  exact length_drawFrom (by omega) source

theorem Settled.nodup_drawOrder (h : p.Settled values) (target : Nat) (source : ρ) :
    (p.drawOrder target source).1.Nodup ∧
      ∀ id ∈ (p.drawOrder target source).1, id ∈ p.groups.occupied := by
  have hsubperm : (p.drawOrder target source).1.Subperm p.groups.occupiedIds :=
    subperm_drawFrom _ _ source
  have hnodup : p.groups.occupiedIds.Nodup := p.groups.pairwise_occupiedIds.imp (by omega)
  constructor
  · obtain ⟨ids, hperm, hsublist⟩ := hsubperm
    exact hperm.nodup_iff.mp (hnodup.sublist hsublist)
  · intro id hid
    exact h.indexes.mem_occupiedIds_iff.mp (hsubperm.subset hid)

/-- A cycle takes one rank for each group it draws, below the number of groups that are left. -/
theorem Settled.source_drawOrder (h : p.Settled values) (target : Nat) (source : ρ) :
    (p.drawOrder target source).2 = (List.range (p.drawOrder target source).1.length).foldl
      (fun source done => (RandomSource.below (p.groups.usedValues - done) source).2) source := by
  have hlength := h.indexes.length_occupiedIds
  have hcount : min target p.groups.usedValues ≤ p.groups.occupiedIds.length := by omega
  rw [h.length_drawOrder, drawOrder, source_drawFrom hcount, hlength]

theorem Settled.perm_drawOrder (h : p.Settled values) {target : Nat}
    (htarget : p.groups.usedValues ≤ target) (source : ρ) :
    (p.drawOrder target source).1.Perm p.groups.occupiedIds := by
  have hsubperm : (p.drawOrder target source).1.Subperm p.groups.occupiedIds :=
    subperm_drawFrom _ _ source
  apply hsubperm.perm_of_length_le
  rw [h.length_drawOrder, h.indexes.length_occupiedIds]
  omega

theorem take_drawOrder (p : Policy) (target : Nat) (source : ρ) :
    (p.drawOrder p.groups.usedValues source).1.take (min target p.groups.usedValues) =
      (p.drawOrder target source).1 := by
  rw [drawOrder, drawOrder, Nat.min_self]
  exact take_drawFrom (Nat.min_le_right _ _) _ source

theorem Settled.getElem?_drawOrder (h : p.Settled values) {target : Nat} {source : ρ} {j id : Nat}
    (hid : (p.drawOrder target source).1[j]? = some id) :
    j < min target p.groups.usedValues ∧ id < p.groups.buckets.size ∧
      (p.drawOrder p.groups.usedValues source).1[j]? = some id := by
  have hoccupied := (h.nodup_drawOrder target source).2 id (List.mem_of_getElem? hid)
  have hj : j < min target p.groups.usedValues := by
    rw [← h.length_drawOrder target source]
    exact (List.getElem?_eq_some_iff.mp hid).1
  rw [← take_drawOrder, List.getElem?_take_of_lt hj] at hid
  exact ⟨hj, h.indexes.occupied_lt hoccupied, hid⟩

theorem Settled.draw_of_mem_positions (h : p.Settled values) {target : Nat} {source : ρ}
    {j id position : Nat} (hid : (p.drawOrder target source).1[j]? = some id)
    (hmember : position ∈ p.groups.positions id) :
    j < min target p.groups.usedValues ∧
      ((p.drawOrder p.groups.usedValues source).1.map p.groups.valueAt)[j]? =
        some (p.groups.valueAt id) ∧
      values[position]? = some (p.groups.valueAt id) := by
  obtain ⟨hj, hin, hdrawn⟩ := h.getElem?_drawOrder hid
  refine ⟨hj, ?_, (h.indexes.mem_positions_iff hin).mp hmember⟩
  rw [List.getElem?_map, hdrawn]
  rfl

/-- A cycle whose callback always answers, with its calls noted and not. -/
theorem Settled.exists_cycle (h : p.Settled values) (target : Nat) (source : ρ)
    (answer : Nat → σ → Except Contradiction Bool × σ) (state : σ) :
    ∃ progress : Progress (List Call × σ),
      freezeGroups p.groups.positions (Freeze.total answer).noting (p.drawOrder target source).1
        ([], state) = .ok progress ∧
      p.selectAndFreeze target source (Freeze.total answer).noting ([], state) =
        .ok (p.cycleOf target source progress) ∧
      p.selectAndFreeze target source (.total answer) state =
        .ok (p.cycleOf target source ⟨progress.closed, progress.frozen, progress.state.2⟩) := by
  obtain ⟨progress, hnoting⟩ := exists_freezeGroups_total p.groups.positions (noted answer id)
    (p.drawOrder target source).1 ([], state)
  rw [← Freeze.noting_total] at hnoting
  have hplain := freezeGroups_of_noting hnoting
  refine ⟨progress, hnoting, ?_, ?_⟩
  · rw [h.selectAndFreeze_eq, hnoting]
    rfl
  · rw [h.selectAndFreeze_eq, hplain]
    rfl

theorem Settled.exists_calm_cycle (h : p.Settled values) (target : Nat) (source : ρ)
    (answer : Nat → σ → Bool × σ) (state : σ) :
    ∃ calls final frozen,
      p.selectAndFreeze target source (Freeze.calm answer).noting ([], state) =
        .ok (p.cycleOf target source ⟨(p.drawOrder target source).1.length, .ok frozen,
          calls, final⟩) ∧
      p.selectAndFreeze target source (.calm answer) state =
        .ok (p.cycleOf target source ⟨(p.drawOrder target source).1.length, .ok frozen, final⟩) ∧
      calls.map Prod.fst = (p.drawOrder target source).1.flatMap p.groups.positions ∧
      frozen = (calls.filter fun call => decide (call.2 = .ok true)).map Prod.fst := by
  obtain ⟨frozen, ⟨calls, final⟩, hnoting⟩ := exists_freezeGroups_calm p.groups.positions
    (noted answer .ok) (p.drawOrder target source).1 ([], state)
  rw [← Freeze.noting_calm] at hnoting
  have hplain := freezeGroups_of_noting hnoting
  obtain ⟨made, hmade, hvisits, _⟩ := exists_failed_call hnoting
  obtain rfl : calls = made := by simpa using hmade
  obtain ⟨hcalls, _, hfrozen⟩ := hvisits.of_ok
  refine ⟨calls, final, frozen, ?_, ?_, hcalls, hfrozen⟩
  · rw [h.selectAndFreeze_eq, hnoting]
    rfl
  · rw [h.selectAndFreeze_eq, hplain]
    rfl

theorem Settled.cycleOf_closed (h : p.Settled values) (target : Nat) (source : ρ)
    (frozen : List Nat) (state : σ) :
    p.cycleOf target source ⟨(p.drawOrder target source).1.length, .ok frozen, state⟩ =
      ⟨p, (p.drawOrder target source).2, state,
        .ok ⟨(p.drawOrder target source).1.map p.groups.valueAt, frozen⟩,
        (p.drawOrder target source).1.map p.groups.drawEvent ++
          [.fix target (p.drawOrder target source).1.length frozen.length]⟩ := by
  have htake := List.take_length (l := (p.drawOrder target source).1)
  unfold cycleOf Progress.opened
  simp only [htake]
  rw [h.length_drawOrder]
  rfl

theorem Settled.selectAndFreeze_eq_ok (h : p.Settled values) {target : Nat} {source : ρ}
    {freeze : Freeze σ} {state : σ} {cycle : Cycle ρ σ} {outcome : Outcome}
    (hrun : p.selectAndFreeze target source freeze state = .ok cycle)
    (hresult : cycle.result = .ok outcome) :
    cycle.policy = p ∧ cycle.source = (p.drawOrder target source).2 ∧
      outcome.drawn = (p.drawOrder target source).1.map p.groups.valueAt ∧
      freezeMembers freeze ((p.drawOrder target source).1.flatMap p.groups.positions) state =
        .ok (.ok outcome.frozen, cycle.state) := by
  rw [h.selectAndFreeze_eq] at hrun
  obtain ⟨⟨closed, frozen, last⟩, hfreeze, rfl⟩ := Checked.map_eq_ok_iff.mp hrun
  cases frozen with
  | error c => cases hresult
  | ok frozen =>
    obtain rfl : closed = _ := closed_eq_length hfreeze rfl
    have hmembers := freezeMembers_flatMap hfreeze
    rw [h.cycleOf_closed] at hresult ⊢
    cases hresult
    exact ⟨rfl, rfl, rfl, hmembers⟩

theorem Settled.exists_calm_cycle_succ (h : p.Settled values) {j : Nat}
    (hj : j < p.groups.usedValues) (source : ρ) (answer : Nat → σ → Bool × σ) (state : σ) :
    ∃ cycle, p.selectAndFreeze (j + 1) source (.calm answer) state = .ok cycle ∧
      cycle.policy = p ∧ cycle.source = (drawFrom (j + 1) p.groups.occupiedIds source).2 := by
  obtain ⟨_, final, frozen, _, hcalm, _⟩ := h.exists_calm_cycle (j + 1) source answer state
  rw [h.cycleOf_closed] at hcalm
  have hcount : min (j + 1) p.groups.usedValues = j + 1 := by omega
  refine ⟨_, hcalm, rfl, ?_⟩
  rw [drawOrder, hcount]

end

/-- Four positions, two of which share a value. -/
def shared : Policy where
  groups := ⟨0, #[#[], #[0, 1], #[2], #[3]], #[1, 2, 3]⟩
  schedule := (Schedule.ofSettings .standard).reset 3
  fragment := .empty 4

theorem reachable_shared : shared.Reachable #[1, 1, 2, 3] := by
  have hnew : Policy.create 0 3 .standard =
      .ok ⟨.empty 0 3, .ofSettings .standard, .empty 4⟩ := by decide +kernel
  have hshared : Policy.snapshot ⟨.empty 0 3, .ofSettings .standard, .empty 4⟩ #[1, 1, 2, 3] =
      .ok ⟨shared, [.snapshot 4 3 shared.schedule.fixedValues]⟩ := by decide +kernel
  exact .snapshot (.create hnew) hshared

/-- A cycle whose callback never meets a contradiction draws without replacement from the increasing
list of the occupied groups, takes one rank for each group it draws, and calls back for the members
of the drawn groups in draw order. -/
theorem selectAndFreeze_eq_drawFrom [RandomSource ρ] {p : Policy} {values : Array Int32}
    (reachable : p.Reachable values) (target : Nat) (source : ρ) (answer : Nat → σ → Bool × σ)
    (state : σ) :
    ∃ order source' calls final drawn frozen events,
      -- the reference
      (p.groups.occupiedIds.Pairwise (· < ·) ∧
        ∀ id, id ∈ p.groups.occupiedIds ↔ id ∈ p.groups.occupied) ∧
      drawFrom (min target p.groups.usedValues) p.groups.occupiedIds source = (order, source') ∧
      drawn = order.map p.groups.valueAt ∧
      calls.map Prod.fst = order.flatMap p.groups.positions ∧
      frozen = (calls.filter fun call => decide (call.2 = .ok true)).map Prod.fst ∧
      events = order.map p.groups.drawEvent ++ [.fix target drawn.length frozen.length] ∧
      -- the cycle, with its calls noted and not
      p.selectAndFreeze target source (.calm answer) state =
        .ok ⟨p, source', final, .ok ⟨drawn, frozen⟩, events⟩ ∧
      p.selectAndFreeze target source (Freeze.calm answer).noting ([], state) =
        .ok ⟨p, source', (calls, final), .ok ⟨drawn, frozen⟩, events⟩ ∧
      -- what the reference comes to
      drawn.length = min target p.groups.usedValues ∧ drawn.Nodup ∧
      (∀ value ∈ drawn, value ∈ values) ∧ (calls.map Prod.fst).Nodup ∧
      (p.groups.usedValues ≤ target → (calls.map Prod.fst).Perm (List.range values.size)) ∧
      source' = (List.range drawn.length).foldl
        (fun source done => (RandomSource.below (p.groups.usedValues - done) source).2) source := by
  have h := reachable.settled
  have hlength := h.length_drawOrder target source
  obtain ⟨hnodup, hoccupied⟩ := h.nodup_drawOrder target source
  obtain ⟨calls, final, frozen, hnoting, hplain, hcalls, hfrozen⟩ :=
    h.exists_calm_cycle target source answer state
  rw [h.cycleOf_closed] at hplain hnoting
  rw [← List.length_map (f := p.groups.valueAt)] at hplain hnoting
  refine ⟨_, _, calls, final, _, frozen, _,
    ⟨p.groups.pairwise_occupiedIds, fun _ => h.indexes.mem_occupiedIds_iff⟩, rfl, rfl, hcalls,
    hfrozen, rfl, hplain, hnoting, ?_, h.indexes.nodup_map_valueAt hnodup hoccupied, ?_, ?_, ?_, ?_⟩
  · rw [List.length_map]
    exact hlength
  · intro value hvalue
    obtain ⟨id, hid, rfl⟩ := List.mem_map.mp hvalue
    exact Array.mem_toList_iff.mp (h.indexes.mem_values_of_occupied (hoccupied id hid))
  · rw [hcalls]
    exact h.indexes.nodup_flatMap_positions hnodup
  · intro htarget
    rw [hcalls, ← Array.length_toList]
    exact h.indexes.perm_range (h.perm_drawOrder htarget source)
  · rw [List.length_map]
    exact h.source_drawOrder target source

theorem selectAndFreeze_shared :
    shared.Reachable #[1, 1, 2, 3] ∧ ∃ source' calls events,
      shared.selectAndFreeze 7 (Random.Stream.ofSeed 42)
          (Freeze.calm fun position count => (position % 2 == 0, count + 1)).noting ([], 0) =
        .ok ⟨shared, source', (calls, 4), .ok ⟨[1, 3, 2], [0, 2]⟩, events⟩ ∧
      (calls.map Prod.fst).Perm (List.range 4) := by
  refine ⟨reachable_shared, ?_⟩
  obtain ⟨order, source', calls, final, drawn, frozen, events, _, horder, hdrawn, _, _, _, _, hrun,
    _, _, _, _, hall, _⟩ := selectAndFreeze_eq_drawFrom reachable_shared 7
      (Random.Stream.ofSeed 42) (fun position count => (position % 2 == 0, count + 1)) 0
  have hreplay : (shared.selectAndFreeze 7 (Random.Stream.ofSeed 42)
      (Freeze.calm fun position count => (position % 2 == 0, count + 1)).noting ([], 0)).map
        (fun cycle => (cycle.state.2, cycle.result)) = .ok (4, .ok ⟨[1, 3, 2], [0, 2]⟩) := by
    decide +kernel
  rw [hrun] at hreplay
  cases hreplay
  exact ⟨source', calls, events, hrun, hall (by decide)⟩

/-- The calls of any cycle are the first calls of a full cycle. A contradiction ends the cycle at
once, leaves the policy as it was and the source after the draw of the group it was met in. -/
theorem calls_isPrefix_of_full_cycle [RandomSource ρ] {p : Policy} {values : Array Int32}
    (reachable : p.Reachable values) (source : ρ) (target : Nat)
    (answer : Nat → σ → Except Contradiction Bool × σ) (state : σ)
    (calmAnswer : Nat → τ → Bool × τ) (calmState : τ) :
    ∃ (full : Cycle ρ (List Call × τ)) (whole : Outcome) (cycle : Cycle ρ (List Call × σ)),
      p.selectAndFreeze p.groups.usedValues source (Freeze.calm calmAnswer).noting ([], calmState) =
        .ok full ∧
      full.result = .ok whole ∧ whole.drawn.Nodup ∧
      p.selectAndFreeze target source (Freeze.total answer).noting ([], state) = .ok cycle ∧
      p.selectAndFreeze target source (.total answer) state =
        .ok ⟨cycle.policy, cycle.source, cycle.state.2, cycle.result, cycle.events⟩ ∧
      cycle.state.1.map Prod.fst <+: full.state.1.map Prod.fst ∧
      ((∀ call ∈ cycle.state.1, ∃ kept, call.2 = .ok kept) →
        (∃ outcome, cycle.result = .ok outcome) ∧
          cycle.state.1.map Prod.fst =
            (whole.drawn.take (min target p.groups.usedValues)).flatMap
              fun value => p.groups.positions (p.groups.groupOf value)) ∧
      ∀ i position c, cycle.state.1[i]? = some (position, .error c) →
        cycle.result = .error c ∧ i + 1 = cycle.state.1.length ∧
          cycle.policy.groups = p.groups ∧ cycle.policy.schedule = p.schedule ∧
          cycle.policy.fragment.isEmpty = true ∧
          ∃ j value, j < target ∧ whole.drawn[j]? = some value ∧ values[position]? = some value ∧
            ∃ calm, p.selectAndFreeze (j + 1) source (.calm calmAnswer) calmState = .ok calm ∧
              (cycle.policy, cycle.source) = (calm.policy, calm.source) := by
  have h := reachable.settled
  have htake := take_drawOrder p target source
  have hoccupied := (h.nodup_drawOrder target source).2
  obtain ⟨hwhole, hwholeOccupied⟩ := h.nodup_drawOrder p.groups.usedValues source
  obtain ⟨allCalls, allFinal, allFrozen, hfull, _, hallCalls, _⟩ :=
    h.exists_calm_cycle p.groups.usedValues source calmAnswer calmState
  obtain ⟨⟨closed, frozen, calls, final⟩, hgroups, hcycle, hplain⟩ :=
    h.exists_cycle target source answer state
  obtain ⟨made, hmade, hvisits, hfailed⟩ := exists_failed_call hgroups
  obtain rfl : calls = made := hmade
  refine ⟨_, _, _, hfull, rfl, h.indexes.nodup_map_valueAt hwhole hwholeOccupied, hcycle, hplain,
    ?_, ?_, ?_⟩
  · -- the drawn groups are the first ones of the full order
    have hprefix : (p.drawOrder target source).1.flatMap p.groups.positions <+:
        (p.drawOrder p.groups.usedValues source).1.flatMap p.groups.positions := by
      rw [← htake]
      exact (List.take_prefix _ _).flatMap _
    rw [← hallCalls] at hprefix
    exact hvisits.isPrefix.trans hprefix
  · -- without a contradiction every member of the drawn groups is visited
    intro hcalm
    obtain ⟨kept, rfl⟩ := hvisits.exists_ok hcalm
    refine ⟨⟨_, rfl⟩, ?_⟩
    rw [← List.map_take, htake, List.flatMap_map]
    refine hvisits.of_ok.1.trans ?_
    apply List.flatMap_congr
    intro id hid
    rw [ValueGroups.groupOf_valueAt h.indexes.fits (h.indexes.occupied_lt (hoccupied id hid))]
  · -- the call that fails is the last one, made for a member of the group that is not closed
    intro i position c (hcall : calls[i]? = _)
    obtain ⟨rfl, hi, hlast⟩ := hvisits.of_error_answer hcall
    obtain ⟨id, failed, hid, hmember, hlast'⟩ := hfailed c rfl
    obtain rfl : position = failed := by
      rw [hlast] at hlast'
      cases hlast'
      rfl
    obtain ⟨hclosed, hdrawn, hvalue⟩ := h.draw_of_mem_positions hid hmember
    rw [Nat.lt_min] at hclosed
    rw [Array.getElem?_toList] at hvalue
    obtain ⟨calm, hcalm, hpolicy, hsource⟩ :=
      h.exists_calm_cycle_succ hclosed.2 source calmAnswer calmState
    have hempty : p.fragment.isEmpty = true := by
      rw [h.fragment_eq]
      exact BitSet.isEmpty_empty _
    refine ⟨rfl, hi, rfl, rfl, hempty, closed, p.groups.valueAt id, hclosed.1, hdrawn, hvalue, calm,
      hcalm, ?_⟩
    rw [hpolicy, hsource]
    rfl

theorem failed_cycle_shared :
    shared.Reachable #[1, 1, 2, 3] ∧ ∃ cycle calm,
      shared.selectAndFreeze 3 (Random.Stream.ofSeed 42)
          (Freeze.total fun position count =>
            (if position = 1 then .error ⟨⟨1⟩, 1⟩ else .ok true, count + 1)).noting ([], 0) =
        .ok cycle ∧
      cycle.state = ([(0, .ok true), (1, .error ⟨⟨1⟩, 1⟩)], 2) ∧
      cycle.result = .error ⟨⟨1⟩, 1⟩ ∧ cycle.policy.fragment.isEmpty = true ∧
      shared.selectAndFreeze 1 (Random.Stream.ofSeed 42) (.calm fun _ count => (true, count)) 0 =
        .ok calm ∧
      (cycle.policy, cycle.source) = (calm.policy, calm.source) := by
  refine ⟨reachable_shared, ?_⟩
  obtain ⟨full, whole, cycle, hfull, hwhole, hnodup, hrun, _, _, _, hfailed⟩ :=
    calls_isPrefix_of_full_cycle reachable_shared (Random.Stream.ofSeed 42) 3
      (fun position count => (if position = 1 then .error ⟨⟨1⟩, 1⟩ else .ok true, count + 1)) 0
      (fun _ count => (true, count)) 0
  have hreplay : (shared.selectAndFreeze 3 (Random.Stream.ofSeed 42)
      (Freeze.total fun position count =>
        (if position = 1 then .error ⟨⟨1⟩, 1⟩ else .ok true, count + 1)).noting ([], 0)).map
          (fun cycle => cycle.state) = .ok ([(0, .ok true), (1, .error ⟨⟨1⟩, 1⟩)], 2) := by
    decide +kernel
  have hreplayFull : (shared.selectAndFreeze shared.groups.usedValues (Random.Stream.ofSeed 42)
      (Freeze.calm fun _ count => (true, count)).noting ([], 0)).map
        (fun cycle => cycle.result.map Outcome.drawn) = .ok (.ok [1, 3, 2]) := by
    decide +kernel
  rw [hrun] at hreplay
  rw [hfull] at hreplayFull
  have hstate : cycle.state = _ := Except.ok.inj hreplay
  obtain ⟨hresult, _, _, _, hempty, j, value, _, hj, hvalue, calm, hcalm, hpair⟩ :=
    hfailed 1 1 ⟨⟨1⟩, 1⟩ (by rw [hstate]; rfl)
  obtain rfl : 1 = value := by simpa using hvalue
  have hdrawn : whole.drawn = [1, 3, 2] := by simpa [hwhole, Except.map] using hreplayFull
  rw [hdrawn] at hj hnodup
  obtain rfl : 0 = j := (List.getElem?_inj (by decide) hnodup).mp hj.symm
  exact ⟨cycle, calm, hrun, hstate, hresult, hempty, hcalm, hpair⟩

end LargeNeighborhood.Policy
