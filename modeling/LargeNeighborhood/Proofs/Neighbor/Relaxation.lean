import LargeNeighborhood.Proofs.Neighbor.Lockstep
import LargeNeighborhood.Proofs.Policy.Run

/-!
# Relaxations before a cycle

A cycle looks at the schedule before it counts itself, and looking twice comes to the same as
looking once. So relaxing a neighborhood explicitly, any number of times, never changes the cycle
that follows: a redraw is only reported earlier.
-/

namespace LargeNeighborhood

namespace Policy

variable [RandomSource ρ] {p : Policy} {source : ρ} {paced : Paced ρ}

theorem tick_of_relax (h : p.relax source = .ok paced) :
    p.tick source = (paced.policy.tick paced.source).map fun ticked =>
      { ticked with events := paced.events ++ ticked.events } := by
  obtain ⟨step, hstep, rfl⟩ := relax_eq_ok_iff.mp h
  have hsplit := Schedule.tick_of_update hstep
  unfold tick pace
  rw [hsplit]
  cases hticked : step.schedule.tick step.source with
  | error fault => rfl
  | ok ticked =>
    have hevent := Schedule.event_tick_of_update hstep hticked
    simp [hevent, bind, Except.bind, pure, Except.pure, Except.map]

end Policy

namespace Neighbor

variable {n n' : Neighbor} {relaxed : Reported} {op : Operation} {answer : Answer}

/-! ## One relaxation -/

theorem restrictLess_eq_ok_iff :
    n.restrictLess = .ok relaxed ↔ ∃ paced, n.policy.relax n.source = .ok paced ∧
      relaxed = ⟨{ n with source := paced.source, policy := paced.policy }, paced.events⟩ := by
  rw [restrictLess, Checked.bind_eq_ok_iff]
  simp only [pure, Except.pure, Except.ok.injEq, eq_comm]

/-- A cycle is the same after a relaxation, model and randomness included, but for what the
relaxation has reported already. -/
theorem fix_of_restrictLess (h : n.restrictLess = .ok relaxed) (m : Model) :
    n.fix m = (relaxed.neighbor.fix m).map fun cycle =>
      { cycle with events := relaxed.events ++ cycle.events } := by
  obtain ⟨paced, hpaced, rfl⟩ := restrictLess_eq_ok_iff.mp h
  have hfreeze : n.freezePosition =
      { n with source := paced.source, policy := paced.policy }.freezePosition := rfl
  unfold fix
  rw [Policy.tick_of_relax hpaced, hfreeze]
  cases paced.policy.tick paced.source with
  | error fault => rfl
  | ok ticked =>
    simp only [Except.map, Checked.ok_bind]
    cases ticked.policy.selectAndFreeze ticked.policy.schedule.target ticked.source
        { n with source := paced.source, policy := paced.policy }.freezePosition m with
    | error fault => rfl
    | ok cycle => simp [bind, Except.bind, pure, Except.pure]

theorem perform_of_restrictLess (h : n.restrictLess = .ok relaxed) (m : Model) :
    n.perform (.fix m) = relaxed.neighbor.perform (.fix m) := by
  rw [perform, perform, fix_of_restrictLess h m]
  cases relaxed.neighbor.fix m <;> rfl

theorem exists_restrictLess (hcalls : n.policy.schedule.calls + UInt32.size ≤ UInt64.size) :
    ∃ relaxed, n.restrictLess = .ok relaxed ∧
      relaxed.neighbor.policy.schedule.calls = n.policy.schedule.calls := by
  obtain ⟨step, hstep⟩ := Schedule.exists_update hcalls n.source
  have hpaced := Policy.relax_eq_ok_iff.mpr ⟨step, hstep, rfl⟩
  exact ⟨_, restrictLess_eq_ok_iff.mpr ⟨_, hpaced, rfl⟩, (Schedule.update_keeps hstep).2.1⟩

/-! ## Several relaxations -/

def restrictLessTimes (n : Neighbor) : (times : Nat) → Checked Reported
  | 0 => return ⟨n, []⟩
  | times + 1 => do
    let first ← n.restrictLess
    let rest ← first.neighbor.restrictLessTimes times
    return { rest with events := first.events ++ rest.events }

theorem fix_of_restrictLessTimes {times : Nat} (h : n.restrictLessTimes times = .ok relaxed)
    (m : Model) :
    n.fix m = (relaxed.neighbor.fix m).map fun cycle =>
      { cycle with events := relaxed.events ++ cycle.events } := by
  induction times generalizing n relaxed with
  | zero =>
    cases h
    cases n.fix m <;> rfl
  | succ times ih =>
    obtain ⟨first, hfirst, hrest⟩ := Checked.bind_eq_ok_iff.mp h
    obtain ⟨rest, hrun, hrelaxed⟩ := Checked.bind_eq_ok_iff.mp hrest
    cases hrelaxed
    rw [fix_of_restrictLess hfirst, ih hrun]
    cases rest.neighbor.fix m with
    | error fault => rfl
    | ok cycle => simp [Except.map]

theorem exists_restrictLessTimes (hcalls : n.policy.schedule.calls + UInt32.size ≤ UInt64.size)
    (times : Nat) : ∃ relaxed, n.restrictLessTimes times = .ok relaxed := by
  induction times generalizing n with
  | zero => exact ⟨_, rfl⟩
  | succ times ih =>
    obtain ⟨first, hfirst, hkept⟩ := exists_restrictLess hcalls
    obtain ⟨rest, hrest⟩ := ih (n := first.neighbor) (by rwa [hkept])
    exact ⟨_, Checked.bind_eq_ok_iff.mpr
      ⟨first, hfirst, Checked.bind_eq_ok_iff.mpr ⟨rest, hrest, rfl⟩⟩⟩

/-! ## Runs without absorbed relaxations -/

def Operation.isRelaxation : Operation → Bool
  | .restrictLess => true
  | _ => false

def leadsToCycle (ops : List Operation) : Bool :=
  (ops.find? fun op => !op.isRelaxation).any Operation.isCycle

/-- Leaves out the relaxations that lead to a cycle; `op` names the operation of each step. -/
def withoutAbsorbed (op : α → Operation) : List α → List α
  | [] => []
  | x :: xs =>
    if (op x).isRelaxation && leadsToCycle (xs.map op) then withoutAbsorbed op xs
    else x :: withoutAbsorbed op xs

variable {ops : List Operation} {moves : List Move}

theorem Operation.eq_restrictLess_of_isRelaxation (h : op.isRelaxation = true) :
    op = .restrictLess := by
  cases op with
  | restrictLess => rfl
  | init m => cases h
  | record m => cases h
  | load s => cases h
  | fix m => cases h

theorem exists_withoutAbsorbed_eq_fix (h : leadsToCycle ops = true) :
    ∃ m rest, withoutAbsorbed id ops = .fix m :: rest := by
  induction ops with
  | nil => cases h
  | cons op ops ih =>
    rw [withoutAbsorbed, List.map_id]
    cases op with
    | restrictLess =>
      have hlater : leadsToCycle ops = true := h
      rw [hlater]
      exact ih hlater
    | fix m => exact ⟨m, _, rfl⟩
    | init m => cases h
    | record m => cases h
    | load s => cases h

theorem map_op_trace (h : n.trace ops = .ok moves) : moves.map Move.op = ops := by
  induction ops generalizing n moves with
  | nil =>
    cases h
    rfl
  | cons op ops ih =>
    obtain ⟨answer, next, rest, _, hrest, rfl⟩ := trace_cons_eq_ok_iff.mp h
    rw [List.map_cons, ih hrest]

theorem trace_cons (n : Neighbor) (op : Operation) (ops : List Operation) :
    n.trace (op :: ops) = (do
      let (answer, next) ← n.perform op
      (next.trace ops).map (⟨op, answer, next⟩ :: ·)) := by
  rw [trace]
  cases n.perform op with
  | error fault => rfl
  | ok reply =>
    obtain ⟨answer, next⟩ := reply
    simp only [Checked.ok_bind]
    cases next.trace ops <;> rfl

theorem calls_fix {m : Model} {cycle : Cycle} (h : n.fix m = .ok cycle) :
    cycle.neighbor.policy.schedule.calls = n.policy.schedule.calls + 1 := by
  obtain ⟨paced, hpaced, hrest⟩ := Checked.bind_eq_ok_iff.mp h
  obtain ⟨inner, hinner, hcycle⟩ := Checked.bind_eq_ok_iff.mp hrest
  obtain ⟨draws, _, hresult⟩ := Checked.bind_eq_ok_iff.mp hinner
  obtain ⟨step, hstep, rfl⟩ := Policy.tick_eq_ok_iff.mp hpaced
  cases hresult
  cases hcycle
  exact (Schedule.tick_keeps hstep).2.1

theorem calls_perform_le (h : n.perform op = .ok (answer, n')) :
    n'.policy.schedule.calls ≤ n.policy.schedule.calls + if op.isCycle then 1 else 0 := by
  cases perform_eq_ok_iff.mp h with
  | init m => exact Nat.le_refl _
  | refused _ _ => exact Nat.le_add_right _ _
  | recorded _ hrun =>
    obtain ⟨values, _, htaken⟩ := recordWith_eq_ok_iff.mp hrun
    rw [schedule_takeSnapshot htaken]
    exact Nat.zero_le _
  | fix hrun => exact (calls_fix hrun).le
  | restrictLess hrun =>
    obtain ⟨paced, hpaced, rfl⟩ := restrictLess_eq_ok_iff.mp hrun
    obtain ⟨step, hstep, rfl⟩ := Policy.relax_eq_ok_iff.mp hpaced
    exact (Schedule.update_keeps hstep).2.1.le

/-- A relaxation that leads to a cycle leaves no trace but its own move. -/
theorem trace_withoutAbsorbed_of_restrictLess (h : n.restrictLess = .ok relaxed)
    (hleads : leadsToCycle ops = true) :
    n.trace (withoutAbsorbed id ops) = relaxed.neighbor.trace (withoutAbsorbed id ops) := by
  obtain ⟨m, rest, hops⟩ := exists_withoutAbsorbed_eq_fix hleads
  rw [hops, trace_cons, trace_cons, perform_of_restrictLess h]

theorem trace_withoutAbsorbed
    (hcalls : n.policy.schedule.calls + ops.countP Operation.isCycle + UInt32.size ≤ UInt64.size) :
    n.trace (withoutAbsorbed id ops) = (n.trace ops).map (withoutAbsorbed Move.op) := by
  induction ops generalizing n with
  | nil => rfl
  | cons op ops ih =>
    rw [List.countP_cons] at hcalls
    by_cases habsorbed : (op.isRelaxation && leadsToCycle ops) = true
    · obtain ⟨hrelaxation, hleads⟩ := Bool.and_eq_true_iff.mp habsorbed
      obtain rfl := Operation.eq_restrictLess_of_isRelaxation hrelaxation
      obtain ⟨relaxed, hrelaxed, hkept⟩ := exists_restrictLess (n := n) (by omega)
      have hperform : n.perform .restrictLess = .ok (.done, relaxed.neighbor) :=
        perform_eq_ok_iff.mpr (.restrictLess hrelaxed)
      have hrest := ih (n := relaxed.neighbor) (by omega)
      calc n.trace (withoutAbsorbed id (.restrictLess :: ops))
          = n.trace (withoutAbsorbed id ops) := by
            rw [withoutAbsorbed, List.map_id, id, if_pos habsorbed]
        _ = relaxed.neighbor.trace (withoutAbsorbed id ops) :=
            trace_withoutAbsorbed_of_restrictLess hrelaxed hleads
        _ = (relaxed.neighbor.trace ops).map (withoutAbsorbed Move.op) := hrest
        _ = (n.trace (.restrictLess :: ops)).map (withoutAbsorbed Move.op) := by
            rw [trace_cons, hperform]
            simp only [Checked.ok_bind]
            cases htrace : relaxed.neighbor.trace ops with
            | error fault => rfl
            | ok moves =>
              simp only [Except.map, withoutAbsorbed, map_op_trace htrace, if_pos habsorbed]
    · rw [withoutAbsorbed, List.map_id, id, if_neg habsorbed, trace_cons, trace_cons]
      cases hperform : n.perform op with
      | error fault => rfl
      | ok reply =>
        obtain ⟨answer, next⟩ := reply
        have hcounted := calls_perform_le hperform
        simp only [Checked.ok_bind, ih (n := next) (by omega)]
        cases htrace : next.trace ops with
        | error fault => rfl
        | ok moves =>
          simp only [Except.map, withoutAbsorbed, map_op_trace htrace, if_neg habsorbed]

/-- Relaxations before a cycle are absorbed by it. From any state, any number of them leave the
result of the cycle, its model and the state after it as they are, and change no more than the time
at which a redraw is reported; and a run goes through the same moves without them. -/
theorem cycle_absorbs_relaxations (n : Neighbor) (ops : List Operation)
    (hcalls : n.policy.schedule.calls + ops.countP Operation.isCycle + UInt32.size ≤ UInt64.size) :
    (∀ times, ∃ relaxed, n.restrictLessTimes times = .ok relaxed ∧
      ∀ m, n.fix m = (relaxed.neighbor.fix m).map fun cycle =>
        { cycle with events := relaxed.events ++ cycle.events }) ∧
    n.trace (withoutAbsorbed id ops) = (n.trace ops).map (withoutAbsorbed Move.op) := by
  refine ⟨?_, trace_withoutAbsorbed hcalls⟩
  intro times
  obtain ⟨relaxed, hrelaxed⟩ := exists_restrictLessTimes (n := n) (by omega) times
  exact ⟨relaxed, hrelaxed, fix_of_restrictLessTimes hrelaxed⟩

def twiceCounted : Neighbor :=
  { twiceRecorded with
    policy := { Policy.shared with schedule := { Policy.shared.schedule with calls := 1 } } }

def eagerlyRelaxed : List Operation :=
  [.restrictLess, .restrictLess, .fix (.ofBounds 3 0 3), .restrictLess,
    .load (.ofList [(⟨0⟩, 2), (⟨1⟩, 0), (⟨2⟩, 2)])]

/-- The first relaxation redraws the size, and the cycle after it would have done so itself. -/
theorem twiceCounted_absorbs_relaxations :
    twiceCounted.policy.schedule.calls + eagerlyRelaxed.countP Operation.isCycle + UInt32.size ≤
      UInt64.size ∧
    ∃ relaxed moves, twiceCounted.restrictLessTimes 2 = .ok relaxed ∧ relaxed.events.length = 1 ∧
      twiceCounted.fix (.ofBounds 3 0 3) =
        (relaxed.neighbor.fix (.ofBounds 3 0 3)).map (fun cycle =>
          { cycle with events := relaxed.events ++ cycle.events }) ∧
      twiceCounted.trace eagerlyRelaxed = .ok moves ∧
      twiceCounted.trace (withoutAbsorbed id eagerlyRelaxed) =
        .ok (withoutAbsorbed Move.op moves) ∧
      moves.length = 5 ∧ (withoutAbsorbed Move.op moves).length = 3 := by
  have hcalls : twiceCounted.policy.schedule.calls + eagerlyRelaxed.countP Operation.isCycle +
      UInt32.size ≤ UInt64.size := by
    decide
  obtain ⟨hcycle, htrace⟩ := cycle_absorbs_relaxations twiceCounted eagerlyRelaxed hcalls
  obtain ⟨relaxed, hrelaxed, hfix⟩ := hcycle 2
  have hevents : (twiceCounted.restrictLessTimes 2).map (fun relaxed => relaxed.events.length) =
      .ok 1 := by
    decide +kernel
  have hmoves : (twiceCounted.trace eagerlyRelaxed).map
      (fun moves => (moves.length, (withoutAbsorbed Move.op moves).length)) = .ok (5, 3) := by
    decide +kernel
  rw [hrelaxed] at hevents
  obtain ⟨moves, hrun, hlengths⟩ := Checked.map_eq_ok_iff.mp hmoves
  rw [hrun] at htrace
  obtain ⟨hlength, hkept⟩ := Prod.mk.inj hlengths
  exact ⟨hcalls, relaxed, moves, hrelaxed, Except.ok.inj hevents, hfix _, hrun, htrace, hlength,
    hkept⟩

end Neighbor

end LargeNeighborhood
