import LargeNeighborhood.Proofs.Neighbor.Relaxation

/-!
# Before the first recording

A neighborhood takes its policy as it finds it. Around a policy that has grouped nothing, its cycles
do nothing until the first recording. A policy that comes with groups is not started again: a cycle
that draws one of them asks for recorded values that do not exist.
-/

namespace LargeNeighborhood.Neighbor

/-- Nothing is recorded yet, while the policy has grouped `values`. -/
structure Unrecorded (n : Neighbor) (values : Array Int32) : Prop where
  values_eq : n.values = #[]
  policy : n.policy.Settled values.toList

variable {n n' : Neighbor} {values : Array Int32} {m : Model} {op : Operation}
  {ops : List Operation} {answer : Answer} {answers : List Answer}

theorem unrecorded_of_ofPolicy {vars : Array VarId} {p : Policy} {seed : UInt64}
    (reachable : p.Reachable values) (h : ofPolicy vars p seed = .ok n) :
    n.Unrecorded values ∧ n.policy = p := by
  obtain ⟨_, rfl⟩ := ofPolicy_eq_ok h
  exact ⟨⟨rfl, reachable.settled⟩, rfl⟩

/-! ## Cycles -/

theorem freezePosition_of_values_eq (h : n.values = #[]) (position : Nat) :
    n.freezePosition position m = .error .indexOutOfBounds := by
  have hvalue : Checked.get n.values position = .error .indexOutOfBounds := by
    rw [h]
    rfl
  unfold freezePosition
  rw [hvalue]
  cases hvar : n.vars[position]? <;> simp only [Checked.get, hvar] <;> rfl

theorem freezeMembers_of_values_eq (h : n.values = #[]) {positions : List Nat}
    (hpositions : positions ≠ []) :
    freezeMembers n.freezePosition positions m = .error .indexOutOfBounds := by
  cases positions with
  | nil => exact absurd rfl hpositions
  | cons position rest =>
    rw [freezeMembers, freezePosition_of_values_eq h]
    rfl

theorem Unrecorded.freezeGroups_eq (h : n.Unrecorded values) {order : List Nat}
    (horder : ∀ id ∈ order, id ∈ n.policy.groups.occupied) :
    freezeGroups n.policy.groups.positions n.freezePosition order m =
      if order = [] then .ok ⟨0, .ok [], m⟩ else .error .indexOutOfBounds := by
  cases order with
  | nil => rfl
  | cons id ids =>
    have hmembers := h.policy.indexes.mem_occupied_iff.mp (horder id List.mem_cons_self)
    rw [freezeGroups, freezeMembers_of_values_eq h.values_eq hmembers]
    rfl

theorem Unrecorded.drawOrder_eq_nil_iff (h : n.Unrecorded values)
    {paced : Policy.Paced Random.Stream} (hpaced : n.policy.tick n.source = .ok paced) :
    (paced.policy.drawOrder paced.policy.schedule.target paced.source).1 = [] ↔
      paced.policy.schedule.target = 0 ∨ n.policy.groups.usedValues = 0 := by
  obtain ⟨hsettled, hgroups⟩ := h.policy.tick hpaced
  have hlength := hsettled.length_drawOrder paced.policy.schedule.target paced.source
  rw [hgroups] at hlength
  rw [← List.length_eq_zero_iff, hlength]
  omega

/-- A cycle before the first recording does nothing if it draws no group, and faults if it does. -/
theorem Unrecorded.fix_eq (h : n.Unrecorded values) {paced : Policy.Paced Random.Stream}
    (hpaced : n.policy.tick n.source = .ok paced) (m : Model) :
    n.fix m =
      if paced.policy.schedule.target = 0 ∨ n.policy.groups.usedValues = 0 then
        .ok ⟨{ n with source := paced.source, policy := paced.policy }, m, .ok .empty,
          paced.events ++ [.fix paced.policy.schedule.target 0 0]⟩
      else .error .indexOutOfBounds := by
  obtain ⟨hsettled, hgroups⟩ := h.policy.tick hpaced
  have hoccupied := (hsettled.nodup_drawOrder paced.policy.schedule.target paced.source).2
  have hcycle := hsettled.selectAndFreeze_eq paced.policy.schedule.target paced.source
    n.freezePosition m
  rw [hgroups] at hoccupied hcycle
  rw [h.freezeGroups_eq hoccupied] at hcycle
  simp only [← h.drawOrder_eq_nil_iff hpaced]
  unfold fix
  rw [hpaced, Checked.ok_bind]
  dsimp only
  rw [hcycle]
  cases horder : (paced.policy.drawOrder paced.policy.schedule.target paced.source).1 with
  | nil =>
    simp [Policy.cycleOf, Progress.opened, horder, Except.map, bind, Except.bind, pure,
      Except.pure, Outcome.empty, drawFrom]
  | cons id ids => rfl

theorem Unrecorded.usedValues_eq_zero_iff (h : n.Unrecorded values) :
    n.policy.groups.usedValues = 0 ↔ values = #[] := by
  have hoccupied := h.policy.indexes.occupied_eq
  rw [ValueGroups.usedValues, ← Array.length_toList, List.length_eq_zero_iff, hoccupied]
  constructor
  · intro hnone
    apply Array.toList_inj.mp
    cases hvalues : values.toList with
    | nil => rfl
    | cons value rest =>
      rw [hvalues, List.map_cons, List.eraseDups_cons] at hnone
      cases hnone
  · rintro rfl
    rfl

theorem Unrecorded.fix_iff (h : n.Unrecorded values) {paced : Policy.Paced Random.Stream}
    (hpaced : n.policy.tick n.source = .ok paced) (m : Model) :
    ((∃ cycle, n.fix m = .ok cycle) ↔ values = #[] ∨ paced.policy.schedule.target = 0) ∧
      (n.fix m = .error .indexOutOfBounds ↔
        values ≠ #[] ∧ 0 < paced.policy.schedule.target) := by
  rw [h.fix_eq hpaced, ne_eq, ← h.usedValues_eq_zero_iff]
  by_cases hnone : paced.policy.schedule.target = 0 ∨ n.policy.groups.usedValues = 0
  · rw [if_pos hnone]
    constructor
    · exact ⟨fun _ => hnone.symm, fun _ => ⟨_, rfl⟩⟩
    · constructor
      · intro hfault
        cases hfault
      · omega
  · rw [if_neg hnone]
    constructor
    · constructor
      · rintro ⟨_, hcycle⟩
        cases hcycle
      · omega
    · constructor
      · omega
      · intro _
        rfl

/-! ## Runs -/

/-- An operation that records nothing leaves the recorded values and the groups as they are, and a
cycle that comes to an end has done nothing. -/
theorem Unrecorded.perform (h : n.Unrecorded values) (hrun : n.perform op = .ok (answer, n'))
    (hanswer : answer.isSnapshot = false) :
    n'.Unrecorded values ∧ ∀ m, op = .fix m → answer = .fixed (.ok .empty) m := by
  cases perform_eq_ok_iff.mp hrun with
  | init m => exact ⟨h, fun _ hop => by cases hop⟩
  | refused hread _ =>
    refine ⟨h, ?_⟩
    rintro m rfl
    cases hread
  | recorded _ _ => cases hanswer
  | @fix m cycle hcycle =>
    obtain ⟨paced, hpaced, _⟩ := Checked.bind_eq_ok_iff.mp hcycle
    have hsettled := (h.policy.tick hpaced).1
    rw [h.fix_eq hpaced] at hcycle
    split at hcycle
    · cases hcycle
      refine ⟨⟨h.values_eq, hsettled⟩, ?_⟩
      intro m' hop
      cases hop
      rfl
    · cases hcycle
  | restrictLess hrelaxed =>
    obtain ⟨paced, hpaced, rfl⟩ := restrictLess_eq_ok_iff.mp hrelaxed
    exact ⟨⟨h.values_eq, (h.policy.relax hpaced).1⟩, fun _ hop => by cases hop⟩

theorem Unrecorded.exists_perform (h : n.Unrecorded #[])
    (hop : op.isCycle = true ∨ op.isRelaxation = true)
    (hcalls : n.policy.schedule.calls + UInt32.size ≤ UInt64.size) :
    ∃ answer n', n.perform op = .ok (answer, n') ∧ answer.isSnapshot = false := by
  cases op with
  | fix m =>
    obtain ⟨step, hstep⟩ := Schedule.exists_tick hcalls n.source
    have hfix := h.fix_eq (Policy.tick_eq_ok_iff.mpr ⟨step, hstep, rfl⟩) m
    rw [if_pos (.inr (h.usedValues_eq_zero_iff.mpr rfl))] at hfix
    exact ⟨_, _, perform_eq_ok_iff.mpr (.fix hfix), rfl⟩
  | restrictLess =>
    obtain ⟨relaxed, hrelaxed, _⟩ := exists_restrictLess hcalls
    exact ⟨_, _, perform_eq_ok_iff.mpr (.restrictLess hrelaxed), rfl⟩
  | init m => simp [Operation.isCycle, Operation.isRelaxation] at hop
  | record m => simp [Operation.isCycle, Operation.isRelaxation] at hop
  | load s => simp [Operation.isCycle, Operation.isRelaxation] at hop

theorem Unrecorded.run (h : n.Unrecorded values) (hrun : n.run ops = .ok (answers, n'))
    (hanswers : ∀ answer ∈ answers, answer.isSnapshot = false) :
    n'.Unrecorded values ∧ List.Forall₂
      (fun op answer => ∀ m, op = .fix m → answer = .fixed (.ok .empty) m) ops answers := by
  induction ops generalizing n answers with
  | nil =>
    cases hrun
    exact ⟨h, .nil⟩
  | cons op ops ih =>
    obtain ⟨answer, rest, next, hop, hrest, rfl⟩ := run_cons_eq_ok_iff.mp hrun
    rw [List.forall_mem_cons] at hanswers
    obtain ⟨hnext, hanswer⟩ := h.perform hop hanswers.1
    obtain ⟨hlast, hlater⟩ := ih hnext hrest hanswers.2
    exact ⟨hlast, .cons hanswer hlater⟩

theorem Unrecorded.exists_run (h : n.Unrecorded #[])
    (hops : ∀ op ∈ ops, op.isCycle = true ∨ op.isRelaxation = true)
    (hcalls : n.policy.schedule.calls + ops.countP Operation.isCycle + UInt32.size ≤ UInt64.size) :
    ∃ answers n', n.run ops = .ok (answers, n') ∧
      ∀ answer ∈ answers, answer.isSnapshot = false := by
  induction ops generalizing n with
  | nil => exact ⟨[], n, rfl, by simp⟩
  | cons op ops ih =>
    rw [List.countP_cons] at hcalls
    rw [List.forall_mem_cons] at hops
    obtain ⟨answer, next, hop, hanswer⟩ := h.exists_perform hops.1 (by omega)
    have hcounted := calls_perform_le hop
    obtain ⟨rest, last, hrest, hanswers⟩ := ih (h.perform hop hanswer).1 hops.2 (by omega)
    exact ⟨_, last, run_cons_eq_ok_iff.mpr ⟨answer, rest, next, hop, hrest, rfl⟩,
      List.forall_mem_cons.mpr ⟨hanswer, hanswers⟩⟩

/-- Before the first recording a cycle that comes to an end has done nothing, whatever the policy
has gone through. It faults exactly if the policy has grouped values and asks for a group; around a
policy without groups, cycles and relaxations never do. -/
theorem fix_before_recording {vars : Array VarId} {p : Policy} {seed : UInt64}
    (reachable : p.Reachable values) (hn : ofPolicy vars p seed = .ok n) (ops : List Operation) :
    (∀ answers n', n.run ops = .ok (answers, n') →
      (∀ answer ∈ answers, answer.isSnapshot = false) →
        List.Forall₂ (fun op answer => ∀ m, op = .fix m → answer = .fixed (.ok .empty) m)
          ops answers ∧
        ∀ m paced, n'.policy.tick n'.source = .ok paced →
          ((∃ cycle, n'.fix m = .ok cycle) ↔
            values = #[] ∨ paced.policy.schedule.target = 0) ∧
          (n'.fix m = .error .indexOutOfBounds ↔
            values ≠ #[] ∧ 0 < paced.policy.schedule.target)) ∧
    (values = #[] → (∀ op ∈ ops, op.isCycle = true ∨ op.isRelaxation = true) →
      p.schedule.calls + ops.countP Operation.isCycle + UInt32.size ≤ UInt64.size →
        ∃ answers n', n.run ops = .ok (answers, n') ∧
          ∀ answer ∈ answers, answer.isSnapshot = false) := by
  obtain ⟨h, rfl⟩ := unrecorded_of_ofPolicy reachable hn
  constructor
  · intro answers n' hrun hanswers
    obtain ⟨hlast, hforall⟩ := h.run hrun hanswers
    exact ⟨hforall, fun m _ hpaced => hlast.fix_iff hpaced m⟩
  · rintro rfl hops hcalls
    exact h.exists_run hops hcalls

def regrouped : Neighbor :=
  { twiceRecorded with values := #[] }

theorem ofPolicy_shared : ofPolicy regrouped.vars Policy.shared 42 = .ok regrouped :=
  rfl

/-- The first cycle around a policy that was driven before draws two groups. It faults although the
model has all of the variables. -/
theorem first_cycle_around_shared_faults :
    Policy.shared.Reachable #[1, 1, 2, 3] ∧
    ofPolicy regrouped.vars Policy.shared 42 = .ok regrouped ∧
    (Model.ofBounds 3 0 3).Covers regrouped.vars ∧
    regrouped.run [.fix (.ofBounds 3 0 3)] = .error .indexOutOfBounds := by
  refine ⟨Policy.reachable_shared, ofPolicy_shared, ?_, ?_⟩
  · unfold Model.Covers
    decide
  · decide +kernel

theorem fix_before_recording_regrouped :
    Policy.shared.Reachable #[1, 1, 2, 3] ∧
    ofPolicy regrouped.vars Policy.shared 42 = .ok regrouped ∧
    (∃ answers n paced, regrouped.run [.restrictLess] = .ok (answers, n) ∧
      n.policy.tick n.source = .ok paced ∧ 0 < paced.policy.schedule.target ∧
      n.fix (.ofBounds 3 0 3) = .error .indexOutOfBounds) ∧
    ∃ answers n, twice.run [.restrictLess, .fix (.ofBounds 0 0 0)] = .ok (answers, n) ∧
      answers[1]? = some (.fixed (.ok .empty) (.ofBounds 0 0 0)) := by
  have hnew : Policy.create 0 3 .standard = .ok twice.policy := by
    decide +kernel
  have hrelaxed : regrouped.run [.restrictLess] = .ok ([.done], regrouped) := by
    decide +kernel
  have htick : (regrouped.policy.tick regrouped.source).map
      (fun paced => decide (0 < paced.policy.schedule.target)) = .ok true := by
    decide +kernel
  obtain ⟨paced, hpaced, htarget⟩ := Checked.map_eq_ok_iff.mp htick
  have hpositive : 0 < paced.policy.schedule.target := of_decide_eq_true htarget
  obtain ⟨hshared, _⟩ :=
    fix_before_recording Policy.reachable_shared ofPolicy_shared [.restrictLess]
  obtain ⟨hfresh, hgoes⟩ := fix_before_recording (.create hnew)
    (rfl : ofPolicy twice.vars twice.policy 42 = .ok twice)
    [.restrictLess, .fix (.ofBounds 0 0 0)]
  obtain ⟨answers, n, hrun, hanswers⟩ := hgoes rfl (by decide) (by decide)
  obtain ⟨hdone, _⟩ := hfresh answers n hrun hanswers
  refine ⟨Policy.reachable_shared, ofPolicy_shared,
    ⟨_, _, paced, hrelaxed, hpaced, hpositive, ?_⟩, answers, n, hrun, ?_⟩
  · exact ((hshared _ _ hrelaxed (by decide)).2 _ paced hpaced).2.mpr ⟨by decide, hpositive⟩
  · obtain _ | ⟨_, _ | ⟨hfix, _⟩⟩ := hdone
    exact congrArg some (hfix _ rfl)

end LargeNeighborhood.Neighbor
