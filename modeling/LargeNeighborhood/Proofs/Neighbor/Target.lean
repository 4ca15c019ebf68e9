import LargeNeighborhood.Proofs.Neighbor.Freeze
import LargeNeighborhood.Proofs.Neighbor.Reset
import LargeNeighborhood.Proofs.Policy.Run
import LargeNeighborhood.Proofs.Schedule.Target
import LargeNeighborhood.Proofs.ValueGroups.Order

/-!
# How many groups a cycle draws

The first cycle after a recording draws at least one group. Every later one that meets no
contradiction leaves a recorded value undrawn, so no cycle but the first can freeze the whole
solution.
-/

namespace LargeNeighborhood

def Event.isDraw : Event → Bool
  | .draw .. => true
  | _ => false

theorem Schedule.countP_isDraw_looked [RandomSource ρ] (s : Schedule) (source : ρ) (look : Look) :
    (s.looked source look).event.toList.countP Event.isDraw = 0 := by
  unfold looked
  split <;> rfl

theorem opened_pos {members : Nat → List Nat} {freeze : Freeze σ} {ids : List Nat} {state : σ}
    {progress : Progress σ} (h : freezeGroups members freeze ids state = .ok progress)
    (hids : ids ≠ []) : 0 < progress.opened := by
  unfold Progress.opened
  cases hfrozen : progress.frozen with
  | ok frozen =>
    change 0 < progress.closed
    rw [closed_eq_length h hfrozen]
    exact List.length_pos_of_ne_nil hids
  | error c => exact Nat.succ_pos _

namespace Policy

theorem isProportion_of_create {min max : Int32} {settings : Settings} {p : Policy}
    (h : Policy.create min max settings = .ok p) : settings.proportion.IsProportion := by
  unfold Policy.create at h
  split at h
  · cases h
  · cases hcheck : settings.check with
    | error e =>
      rw [hcheck] at h
      cases h
    | ok u =>
      by_contra hproportion
      rw [Settings.check, if_pos hproportion] at hcheck
      cases hcheck

theorem Settled.usedValues_lt {p : Policy} {values : List Int32} (h : p.Settled values) :
    p.schedule.usedValues < 2 ^ 53 := by
  have hsize := h.indexes.fits.size_le
  have hlength : p.groups.occupiedIds.length ≤ p.groups.rangeLength := by
    rw [ValueGroups.occupiedIds]
    exact (List.length_filter_le _ _).trans_eq List.length_range
  rw [h.usedValues_eq, ← h.indexes.length_occupiedIds]
  rw [ValueGroups.rangeLength] at hlength
  simp only [UInt32.size] at hsize
  omega

theorem Settled.usedValues_pos {p : Policy} {values : List Int32} (h : p.Settled values)
    (hvalues : values ≠ []) : 0 < p.schedule.usedValues := by
  obtain ⟨id, hid, _⟩ := h.indexes.exists_mem_positions (List.length_pos_of_ne_nil hvalues)
  rw [h.usedValues_eq, ValueGroups.usedValues]
  exact Array.size_pos_of_mem hid

end Policy

namespace Neighbor

variable {n n' : Neighbor} {m : Model} {op : Operation} {ops : List Operation} {answer : Answer}
  {answers : List Answer}

def Cycle.draws (cycle : Cycle) : Nat :=
  cycle.events.countP Event.isDraw

/-! ## The schedule of a neighborhood -/

/-- A recording resets the schedule, and any other operation is at most one look at it. -/
theorem Settled.schedule_perform (h : n.Settled) (hrun : n.perform op = .ok (answer, n')) :
    if answer.isSnapshot then
      n'.policy.schedule = n.policy.schedule.reset n'.policy.groups.usedValues
    else
      n'.policy.schedule = n.policy.schedule ∨ ∃ look step,
        n.policy.schedule.look n.source look = .ok step ∧ n'.policy.schedule = step.schedule := by
  cases perform_eq_ok_iff.mp hrun with
  | init m => exact .inl rfl
  | refused _ _ => exact .inl rfl
  | recorded _ htaken =>
    obtain ⟨values, _, htaken⟩ := recordWith_eq_ok_iff.mp htaken
    exact schedule_takeSnapshot htaken
  | fix hcycle =>
    obtain ⟨paced, progress, hpaced, _, rfl⟩ := h.fix_eq_ok_iff.mp hcycle
    obtain ⟨step, hstep, rfl⟩ := Policy.tick_eq_ok_iff.mp hpaced
    exact .inr ⟨.tick, step, hstep, rfl⟩
  | restrictLess hrelaxed =>
    obtain ⟨paced, hpaced, hrelaxed⟩ := Checked.bind_eq_ok_iff.mp hrelaxed
    cases hrelaxed
    obtain ⟨step, hstep, rfl⟩ := Policy.relax_eq_ok_iff.mp hpaced
    exact .inr ⟨.update, step, hstep, rfl⟩

/-- The proportion is a valid one, and the size is that of a snapshot or of a redraw after it. -/
structure Scaled (n : Neighbor) : Prop where
  proportion : n.policy.schedule.settings.proportion.IsProportion
  sized : n.values ≠ #[] → n.policy.schedule.Sized

theorem IsNew.scaled (h : n.IsNew) : n.Scaled := by
  obtain ⟨vars, min, max, settings, p, seed, hpolicy, hn⟩ := h.exists_policy
  obtain ⟨_, rfl⟩ := ofPolicy_eq_ok hn
  refine ⟨?_, fun hvalues => absurd rfl hvalues⟩
  change p.schedule.settings.proportion.IsProportion
  rw [(Policy.settled_of_create hpolicy).2.2.2]
  exact Policy.isProportion_of_create hpolicy

theorem Scaled.perform (hscaled : n.Scaled) (h : n.Settled)
    (hrun : n.perform op = .ok (answer, n')) : n'.Scaled := by
  have hsettings := h.settings_perform hrun
  have hschedule := h.schedule_perform hrun
  have hvalues := (h.perform hrun).values
  refine ⟨by rw [hsettings]; exact hscaled.proportion, ?_⟩
  intro hrecorded
  cases hsnapshot : answer.isSnapshot with
  | true =>
    rw [hsnapshot, if_pos rfl] at hschedule
    rw [hschedule]
    exact Schedule.sized_reset _ _
  | false =>
    rw [hsnapshot, if_neg Bool.false_ne_true] at hschedule hvalues
    have hsized := hscaled.sized (hvalues ▸ hrecorded)
    rcases hschedule with hkept | ⟨look, step, hlook, hkept⟩
    · rw [hkept]
      exact hsized
    · rw [hkept]
      exact hsized.look Random.Stream.drawsParts hlook

theorem Scaled.run (hscaled : n.Scaled) (h : n.Settled) (hrun : n.run ops = .ok (answers, n')) :
    n'.Scaled := by
  induction ops generalizing n answers with
  | nil =>
    cases hrun
    exact hscaled
  | cons op ops ih =>
    obtain ⟨answer, rest, next, hop, hrest, rfl⟩ := run_cons_eq_ok_iff.mp hrun
    exact ih (hscaled.perform h hop) (h.perform hop).settled hrest

theorem Reachable.scaled (h : n.Reachable) : n.Scaled := by
  obtain ⟨n₀, ops, answers, hnew, hrun⟩ := h
  exact hnew.scaled.run hnew.settled.1 hrun

/-! ## The draws of a cycle -/

theorem draws_cycleOf (n : Neighbor) (paced : Policy.Paced Random.Stream)
    (progress : Progress Model) (hpaced : paced.events.countP Event.isDraw = 0) :
    (n.cycleOf paced progress).draws =
      ((paced.policy.drawOrder paced.policy.schedule.target paced.source).1.take
        progress.opened).length := by
  have hdraw : ∀ id, (paced.policy.groups.drawEvent id).isDraw = true := fun _ => rfl
  have hall : ∀ ids : List Nat,
      (ids.map paced.policy.groups.drawEvent).countP Event.isDraw = ids.length := by
    intro ids
    rw [List.countP_map]
    exact List.countP_eq_length.mpr fun id _ => hdraw id
  unfold Cycle.draws cycleOf Policy.cycleOf
  simp only [List.countP_append, hpaced, hall, Nat.zero_add]
  cases progress.frozen <;> rfl

def nextTarget (n : Neighbor) : Nat :=
  (n.policy.schedule.looked n.source .tick).schedule.target

theorem Settled.draws_fix (h : n.Settled) {cycle : Cycle} (hrun : n.fix m = .ok cycle) :
    cycle.draws ≤ n.nextTarget ∧ cycle.draws ≤ n.policy.schedule.usedValues ∧
      (0 < n.nextTarget → 0 < n.policy.schedule.usedValues → 0 < cycle.draws) ∧
      ∀ outcome, cycle.result = .ok outcome → outcome.drawn.length = cycle.draws := by
  obtain ⟨paced, progress, hpaced, hprogress, rfl⟩ := h.fix_eq_ok_iff.mp hrun
  obtain ⟨hsettled, hgroups⟩ := h.policy.tick hpaced
  obtain ⟨step, hstep, hlooked⟩ := Policy.tick_eq_ok_iff.mp hpaced
  rw [(Schedule.tick_eq_looked_iff.mp hstep).2] at hlooked
  have htarget : paced.policy.schedule.target = n.nextTarget := by
    rw [hlooked]
    rfl
  have hevents : paced.events.countP Event.isDraw = 0 := by
    rw [hlooked]
    exact Schedule.countP_isDraw_looked ..
  have hlength := hsettled.length_drawOrder n.nextTarget paced.source
  have hdraws := draws_cycleOf n paced progress hevents
  rw [htarget] at hprogress hdraws
  rw [hgroups, ← h.policy.usedValues_eq] at hlength
  rw [List.length_take] at hdraws
  refine ⟨by omega, by omega, ?_, ?_⟩
  · intro hpos hused
    have hopened := opened_pos hprogress (List.ne_nil_of_length_pos (by omega))
    omega
  · intro outcome hresult
    cases hfrozen : progress.frozen with
    | error c =>
      simp only [cycleOf, Policy.cycleOf, hfrozen, Except.map] at hresult
      cases hresult
    | ok frozen =>
      have hopened : progress.opened = progress.closed := by
        rw [Progress.opened, hfrozen]
      have hclosed := closed_eq_length hprogress hfrozen
      simp only [cycleOf, Policy.cycleOf, hfrozen, Except.map, htarget] at hresult
      cases hresult
      rw [List.length_map]
      omega

structure DrawsWithin (n : Neighbor) (cycle : Cycle) : Prop where
  drawn : ∀ outcome, cycle.result = .ok outcome → outcome.drawn.length = cycle.draws
  first : n.policy.schedule.calls = 0 →
    1 ≤ cycle.draws ∧ cycle.draws ≤ n.values.toList.eraseDups.length
  later : 0 < n.policy.schedule.calls → cycle.draws ≤ n.values.toList.eraseDups.length - 1 ∧
    ∀ outcome, cycle.result = .ok outcome → ∃ value ∈ n.values, value ∉ outcome.drawn

theorem Scaled.drawsWithin (hscaled : n.Scaled) (h : n.Settled) (hvalues : n.values ≠ #[])
    {cycle : Cycle} (hrun : n.fix m = .ok cycle) : n.DrawsWithin cycle := by
  have hsized := hscaled.sized hvalues
  have hused := h.policy.usedValues_lt
  have hpos := h.policy.usedValues_pos (by simpa using hvalues)
  obtain ⟨htarget, hgroups, hopened, hdrawn⟩ := h.draws_fix hrun
  have hdistinct := h.policy.indexes.usedValues_eq
  rw [← h.policy.usedValues_eq] at hdistinct
  refine ⟨hdrawn, ?_, ?_⟩
  · intro hcalls
    obtain ⟨hlower, _⟩ :=
      hsized.first_target Random.Stream.drawsParts hscaled.proportion hused hcalls
      n.source .tick
    have hdraws := hopened hlower hpos
    omega
  · intro hcalls
    have hlater : n.nextTarget < n.policy.schedule.usedValues :=
      hsized.later_target Random.Stream.drawsParts hpos hused hcalls n.source .tick
    refine ⟨by omega, ?_⟩
    intro outcome hresult
    have hlength := hdrawn outcome hresult
    have hfewer : outcome.drawn.length < n.policy.groups.usedValues := by
      rw [← h.policy.usedValues_eq]
      omega
    obtain ⟨value, hvalue, hundrawn⟩ := h.policy.indexes.exists_notMem hfewer
    exact ⟨value, Array.mem_toList_iff.mp hvalue, hundrawn⟩

/-- Between a recording and the first redraw the target is at least one and at most one more than
the distinct values; after a redraw it is below their number, whatever the randomness. So the first
cycle draws a group and no later one draws them all. -/
theorem target_bounds :
    (∀ {ρ : Type} [RandomSource ρ], RandomSource.DrawsParts ρ → ∀ s : Schedule,
      s.settings.proportion.IsProportion → ∀ used, 0 < used → used < 2 ^ 53 →
      ∀ (source : ρ) (looks : List Schedule.Look) (moves : List (Schedule.Move ρ)),
      (s.reset used).trace source (looks.map .look) = .ok moves →
        (1 ≤ (s.reset used).target ∧ (s.reset used).target ≤ used + 1) ∧
        ∀ i move, moves[i]? = some move →
          if Schedule.redrawnAt (moves.take (i + 1)) = [] then
            1 ≤ move.step.schedule.target ∧ move.step.schedule.target ≤ used + 1
          else
            move.step.schedule.fixedValues < Binary64.ofNat used ∧
              move.step.schedule.target ≤ used - 1) ∧
    ∀ n : Neighbor, n.Reachable → n.values ≠ #[] → ∀ m : Model,
      (∀ cycle, n.fix m = .ok cycle → n.DrawsWithin cycle) ∧
      (m.Covers n.vars → n.policy.schedule.calls + UInt32.size ≤ UInt64.size →
        ∃ cycle, n.fix m = .ok cycle) := by
  constructor
  · intro ρ _ hparts s hproportion used hpos hused source looks moves hrun
    refine ⟨(Schedule.sized_reset s used).fresh_target hproportion hused rfl, ?_⟩
    intro i move hmove
    exact Schedule.targets_since_reset hparts hproportion hpos hused hrun hmove
  · intro n hreachable hvalues m
    refine ⟨fun cycle hrun => hreachable.scaled.drawsWithin hreachable.settled hvalues hrun, ?_⟩
    intro hcovers hcalls
    obtain ⟨step, hstep⟩ := Schedule.exists_tick hcalls n.source
    exact hreachable.settled.exists_fix hcovers (Policy.tick_eq_ok_iff.mpr ⟨step, hstep, rfl⟩)

/-- Two cycles after a snapshot with three groups: the first target comes of the proportion, the
second of a redraw. -/
theorem target_bounds_twiceRecorded :
    Binary64.IsProportion Settings.standard.proportion ∧ twiceRecorded.Reachable ∧
    (∃ cycle, twiceRecorded.fix (.ofBounds 3 0 3) = .ok cycle ∧ 1 ≤ cycle.draws ∧
      cycle.draws ≤ 3) ∧
    ∃ first later, ((Schedule.ofSettings .standard).reset 3).trace (Random.Stream.ofSeed 42)
        ([.tick, .tick].map .look) = .ok [first, later] ∧
      1 ≤ first.step.schedule.target ∧ first.step.schedule.target ≤ 4 ∧
      later.step.schedule.fixedValues < Binary64.ofNat 3 ∧ later.step.schedule.target ≤ 2 := by
  obtain ⟨hschedules, hneighbors⟩ := target_bounds
  have hproportion : Binary64.IsProportion Settings.standard.proportion := by
    decide +kernel
  have hcovers : (Model.ofBounds 3 0 3).Covers twiceRecorded.vars := by
    unfold Model.Covers
    decide
  refine ⟨hproportion, reachable_twiceRecorded, ?_, ?_⟩
  · obtain ⟨hdraws, hexists⟩ := hneighbors twiceRecorded reachable_twiceRecorded (by decide)
      (.ofBounds 3 0 3)
    obtain ⟨cycle, hcycle⟩ := hexists hcovers (by decide)
    have hdistinct : twiceRecorded.values.toList.eraseDups.length = 3 := by
      decide +kernel
    have hfirst := (hdraws cycle hcycle).first rfl
    rw [hdistinct] at hfirst
    exact ⟨cycle, hcycle, hfirst⟩
  · obtain ⟨moves, hrun⟩ : ∃ moves, ((Schedule.ofSettings .standard).reset 3).trace
        (Random.Stream.ofSeed 42) ([.tick, .tick].map .look) = .ok moves :=
      Schedule.exists_trace (by decide) (Random.Stream.ofSeed 42)
    have hredraws : (((Schedule.ofSettings .standard).reset 3).trace (Random.Stream.ofSeed 42)
        ([.tick, .tick].map .look)).map
          (fun moves => (Schedule.redrawnAt (moves.take 1), Schedule.redrawnAt moves)) =
        .ok ([], [1]) := by
      decide +kernel
    rw [hrun] at hredraws
    obtain ⟨hnone, hone⟩ := Prod.mk.inj (Except.ok.inj hredraws)
    obtain ⟨_, hbounds⟩ := hschedules Random.Stream.drawsParts (.ofSettings .standard)
      hproportion 3 (by decide) (by decide) _ [.tick, .tick] moves hrun
    have hops := Schedule.map_op_trace hrun
    obtain ⟨first, later, rfl⟩ : ∃ first later, moves = [first, later] := by
      have hlength := congrArg List.length hops
      rw [List.length_map] at hlength
      exact List.length_eq_two.mp hlength
    have hfirst := hbounds 0 first rfl
    have hlater := hbounds 1 later rfl
    rw [if_pos hnone] at hfirst
    have hsome : Schedule.redrawnAt ([first, later].take 2) ≠ [] := by
      rw [List.take_of_length_le (Nat.le_refl 2), hone]
      decide
    rw [if_neg hsome] at hlater
    exact ⟨first, later, hrun, hfirst.1, hfirst.2, hlater.1, hlater.2⟩

end Neighbor

end LargeNeighborhood
