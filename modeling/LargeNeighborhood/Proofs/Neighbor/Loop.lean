import LargeNeighborhood.Proofs.Neighbor.Contradiction

/-!
# Relaxation loops

A relaxation loop puts the domains back after every cycle, whatever came of it, but its log grows.
No cycle looks at the checkpoints or at the log, so the loop comes to the same as cycles on copies
of its model.
-/

namespace LargeNeighborhood

namespace Model

/-- The same domains and refusals with older checkpoints below and an older log in front. -/
def framed (m : Model) (checkpoints : List (Array Domain)) (log : Array (VarId × Int32)) : Model :=
  { m with checkpoints := m.checkpoints ++ checkpoints, log := log ++ m.log }

def bare (m : Model) : Model :=
  { m with checkpoints := [], log := #[] }

variable {m : Model} {checkpoints : List (Array Domain)} {log : Array (VarId × Int32)}

theorem framed_bare :
    m.bare.framed checkpoints log = { m with checkpoints := checkpoints, log := log } := by
  simp [framed, bare]

theorem framed_fixTo (entry : VarId × Int32) :
    (m.fixTo entry).framed checkpoints log = (m.framed checkpoints log).fixTo entry := by
  simp [framed, fixTo, setDomain, Array.push_append]

end Model

namespace Neighbor

variable {n : Neighbor} {m : Model} {times : Nat}

/-! ## Cycles do not look at the history of their model -/

theorem mirrors_framed (n : Neighbor) (checkpoints : List (Array Domain))
    (log : Array (VarId × Int32)) :
    Freeze.Mirrors n.freezePosition n.freezePosition fun m => m.framed checkpoints log := by
  intro position m
  rw [freezePosition_eq_bind, freezePosition_eq_bind]
  cases Checked.get n.vars position with
  | error fault => rfl
  | ok var =>
    cases Checked.get n.values position with
    | error fault => rfl
    | ok value =>
      simp only [Checked.ok_bind, ← Model.framed_fixTo]
      change m.domain var >>= _ = Except.map _ (m.domain var >>= _)
      cases m.domain var with
      | error fault => rfl
      | ok d =>
        rw [Checked.ok_bind, Checked.ok_bind]
        change Except.ok (if _ then if m.failing.contains var then _ else _ else _) = _
        cases d.contains value with
        | false => rfl
        | true => cases m.failing.contains var <;> rfl

theorem Settled.fix_framed (h : n.Settled) (checkpoints : List (Array Domain))
    (log : Array (VarId × Int32)) :
    n.fix (m.framed checkpoints log) =
      (n.fix m).map fun cycle => { cycle with model := cycle.model.framed checkpoints log } := by
  rw [h.fix_eq, h.fix_eq]
  cases n.policy.tick n.source with
  | error fault => rfl
  | ok paced =>
    simp only [Checked.ok_bind, freezeGroups_of_mirrors (n.mirrors_framed checkpoints log)]
    cases freezeGroups n.policy.groups.positions n.freezePosition
      (paced.policy.drawOrder paced.policy.schedule.target paced.source).1 m <;> rfl

theorem Settled.fix_keeps (h : n.Settled) {cycle : Cycle} (hrun : n.fix m = .ok cycle) :
    cycle.model.failing = m.failing ∧ cycle.model.checkpoints = m.checkpoints := by
  have hkept : ∀ position state answer next,
      n.freezePosition position state = .ok (answer, next) →
        state.failing = m.failing ∧ state.checkpoints = m.checkpoints →
          next.failing = m.failing ∧ next.checkpoints = m.checkpoints := by
    intro position state answer next hanswer hstate
    rcases model_of_freezePosition hanswer with rfl | ⟨var, value, d, _, _, rfl | rfl⟩
    · exact hstate
    · exact hstate
    · exact hstate
  exact h.model_of_fix hkept hrun ⟨rfl, rfl⟩

/-! ## What a cycle logs -/

/-- What is recorded at the possible ones among some positions, up to the first that is refused. -/
def fixable (n : Neighbor) (m : Model) (positions : List Nat) : List (VarId × Int32) :=
  let before := positions.takeWhile fun position => !n.refuses m position
  (before.filter (n.possible m)).filterMap n.recordedAt

def instantiations (n : Neighbor) (m : Model) : Checked (List (VarId × Int32)) :=
  return n.fixable m (← n.visited)

theorem Settled.log_freezeMembers (h : n.Settled) {positions : List Nat}
    {frozen : Except Contradiction (List Nat)} {last : Model} (hgrounded : n.Grounded m positions)
    (hrun : freezeMembers n.freezePosition positions m = .ok (frozen, last)) :
    last.log = m.log ++ (n.fixable m positions).toArray := by
  induction positions generalizing m frozen with
  | nil =>
    cases hrun
    simp [fixable]
  | cons position rest ih =>
    obtain ⟨var, value, d, hentry, hdomain⟩ := hgrounded position List.mem_cons_self
    have hlater : n.Grounded m rest :=
      fun later hmem => hgrounded later (List.mem_cons_of_mem _ hmem)
    have hanswer := freezePosition_of_recordedAt hentry hdomain
    cases hpossible : n.possible m position with
    | false =>
      -- the position is skipped
      have hrefuses : n.refuses m position = false := by rw [refuses, hpossible, Bool.false_and]
      rw [hpossible] at hanswer
      rcases freezeMembers_cons_eq_ok hrun with
        ⟨c, hcontra, _⟩ | ⟨kept, next, later, hnext, hrest, _⟩
      · cases hanswer.symm.trans hcontra
      · cases hanswer.symm.trans hnext
        rw [ih hlater hrest]
        simp [fixable, hrefuses, hpossible]
    | true =>
      rw [hpossible] at hanswer
      cases hrefuses : n.refuses m position with
      | true =>
        -- the position ends the visit, with its variable emptied
        rw [hrefuses] at hanswer
        rw [freezeMembers_cons_error hanswer] at hrun
        cases hrun
        simp [fixable, hrefuses, Model.setDomain]
      | false =>
        rw [hrefuses] at hanswer
        rcases freezeMembers_cons_eq_ok hrun with
          ⟨c, hcontra, _⟩ | ⟨kept, next, later, hnext, hrest, _⟩
        · cases hanswer.symm.trans hcontra
        · cases hanswer.symm.trans hnext
          rw [ih (hlater.fixTo (var, value)) hrest, fixable, h.refuses_fixTo hentry hpossible,
            h.possible_fixTo hentry hpossible]
          simp [fixable, hrefuses, hpossible, hentry, Model.fixTo]

def Cycle.logged (m : Model) (cycle : Cycle) : List (VarId × Int32) :=
  cycle.model.log.toList.drop m.log.size

/-- A cycle logs its instantiations, which the model decides as it is at the start. -/
theorem Settled.log_fix (h : n.Settled) (hcovers : m.Covers n.vars) {cycle : Cycle}
    (hrun : n.fix m = .ok cycle) :
    n.instantiations m = .ok (cycle.logged m) ∧
      cycle.model.log = m.log ++ (cycle.logged m).toArray := by
  obtain ⟨positions, frozen, _, hvisited, hgrounded, hmembers, _⟩ := h.fix_eq_visited hcovers hrun
  have hlog := h.log_freezeMembers hgrounded hmembers
  have hlogged : cycle.logged m = n.fixable m positions := by
    rw [Cycle.logged, hlog]
    simp
  rw [instantiations, hvisited, hlogged]
  exact ⟨rfl, hlog⟩

/-! ## The loop -/

def Cycle.restored (cycle : Cycle) : Cycle :=
  { cycle with model := cycle.model.restore.1 }

/-- A cycle of a loop does what it would do on a copy of the first model; all that is left of it
in the model is its part of the log. -/
theorem Settled.fix_save (h : n.Settled) (m : Model) (done : Array (VarId × Int32)) :
    (n.fix { m with log := done }.save).map Cycle.restored =
      (n.fix m).map fun cycle =>
        { cycle with model := { m with log := done ++ (cycle.logged m).toArray } } := by
  have hloop := h.fix_framed (m := m.bare) (m.domains :: m.checkpoints) done
  have hcopy := h.fix_framed (m := m.bare) m.checkpoints m.log
  rw [Model.framed_bare] at hloop hcopy
  change n.fix { m with log := done }.save = _ at hloop
  rw [hloop, hcopy]
  cases hbare : n.fix m.bare with
  | error fault => rfl
  | ok cycle =>
    obtain ⟨hfailing, hcheckpoints⟩ := h.fix_keeps hbare
    simp [Except.map, Cycle.restored, Cycle.logged, Model.restore, Model.framed, hfailing,
      hcheckpoints, Model.bare]

def cyclesOn (n : Neighbor) (m : Model) : (times : Nat) → Checked (List Cycle × Neighbor)
  | 0 => return ([], n)
  | times + 1 => do
    let cycle ← n.fix m
    let (cycles, last) ← cycle.neighbor.cyclesOn m times
    return (cycle :: cycles, last)

theorem cyclesOn_succ_eq_ok_iff {cycles : List Cycle} {last : Neighbor} :
    n.cyclesOn m (times + 1) = .ok (cycles, last) ↔ ∃ cycle later, n.fix m = .ok cycle ∧
      cycle.neighbor.cyclesOn m times = .ok (later, last) ∧ cycles = cycle :: later := by
  rw [cyclesOn, Checked.bind_eq_ok_iff]
  constructor
  · rintro ⟨cycle, hcycle, hrest⟩
    obtain ⟨⟨later, final⟩, hlater, hresult⟩ := Checked.bind_eq_ok_iff.mp hrest
    cases hresult
    exact ⟨cycle, later, hcycle, hlater, rfl⟩
  · rintro ⟨cycle, later, hcycle, hlater, rfl⟩
    exact ⟨cycle, hcycle, Checked.bind_eq_ok_iff.mpr ⟨_, hlater, rfl⟩⟩

theorem relaxLoop_succ (n : Neighbor) (m : Model) (times : Nat) :
    n.relaxLoop m (times + 1) = (n.fix m.save).map Cycle.restored >>= fun cycle =>
      (cycle.neighbor.relaxLoop cycle.model times).map fun later =>
        (cycle.result :: later.1, later.2.1, later.2.2.1, cycle.events ++ later.2.2.2) := by
  rw [relaxLoop]
  cases n.fix m.save with
  | error fault => rfl
  | ok cycle =>
    simp only [Except.map, Cycle.restored, bind, Except.bind]
    cases cycle.neighbor.relaxLoop cycle.model.restore.1 times <;> rfl

theorem Settled.relaxLoop_eq (h : n.Settled) (m : Model) (done : Array (VarId × Int32))
    (times : Nat) :
    n.relaxLoop { m with log := done } times = (n.cyclesOn m times).map fun copies =>
      (copies.1.map Cycle.result, copies.2,
        { m with log := done ++ (copies.1.flatMap (Cycle.logged m)).toArray },
        copies.1.flatMap Cycle.events) := by
  induction times generalizing n done with
  | zero => simp [relaxLoop, cyclesOn, pure, Except.pure, Except.map]
  | succ times ih =>
    rw [relaxLoop_succ, h.fix_save, cyclesOn]
    cases hcycle : n.fix m with
    | error fault => rfl
    | ok cycle =>
      have hlater := ih (h.fix hcycle).1 (done ++ (cycle.logged m).toArray)
      simp only [Except.map, Checked.ok_bind, hlater]
      cases cycle.neighbor.cyclesOn m times with
      | error fault => rfl
      | ok copies => simp [bind, Except.bind, pure, Except.pure]

theorem Settled.exists_fix_of_cyclesOn (h : n.Settled) (hcovers : m.Covers n.vars)
    {cycles : List Cycle}
    {last : Neighbor} (hrun : n.cyclesOn m times = .ok (cycles, last)) {i : Nat} {cycle : Cycle}
    (hcycle : cycles[i]? = some cycle) :
    ∃ before, n.cyclesOn m i = .ok (cycles.take i, before) ∧ before.fix m = .ok cycle ∧
      before.instantiations m = .ok (cycle.logged m) ∧
        cycle.model.log = m.log ++ (cycle.logged m).toArray := by
  induction times generalizing n cycles i with
  | zero =>
    cases hrun
    simp at hcycle
  | succ times ih =>
    obtain ⟨first, later, hfirst, hlater, rfl⟩ := cyclesOn_succ_eq_ok_iff.mp hrun
    cases i with
    | zero =>
      cases hcycle
      exact ⟨n, rfl, hfirst, h.log_fix hcovers hfirst⟩
    | succ i =>
      obtain ⟨hsettled, _, hscope, _⟩ := h.fix hfirst
      have hcovers' : m.Covers first.neighbor.vars := by rwa [hscope.1]
      obtain ⟨before, hbefore, hfix⟩ := ih hsettled hcovers' hlater hcycle
      exact ⟨before, cyclesOn_succ_eq_ok_iff.mpr ⟨first, _, hfirst, hbefore, rfl⟩, hfix⟩

theorem length_cyclesOn {cycles : List Cycle} {last : Neighbor}
    (hrun : n.cyclesOn m times = .ok (cycles, last)) : cycles.length = times := by
  induction times generalizing n cycles with
  | zero =>
    cases hrun
    rfl
  | succ times ih =>
    obtain ⟨_, later, _, hlater, rfl⟩ := cyclesOn_succ_eq_ok_iff.mp hrun
    rw [List.length_cons, ih hlater]

theorem Settled.exists_cyclesOn (h : n.Settled) (hcovers : m.Covers n.vars)
    (hcalls : n.policy.schedule.calls + times + UInt32.size ≤ UInt64.size) :
    ∃ cycles last, n.cyclesOn m times = .ok (cycles, last) := by
  induction times generalizing n with
  | zero => exact ⟨[], n, rfl⟩
  | succ times ih =>
    have hcalls' : n.policy.schedule.calls + UInt32.size ≤ UInt64.size := by omega
    obtain ⟨step, hstep⟩ := Schedule.exists_tick hcalls' n.source
    obtain ⟨cycle, hcycle⟩ := h.exists_fix hcovers (Policy.tick_eq_ok_iff.mpr ⟨step, hstep, rfl⟩)
    obtain ⟨hsettled, _, hscope, hcounted⟩ := h.fix hcycle
    have hcovers' : m.Covers cycle.neighbor.vars := by rwa [hscope.1]
    obtain ⟨later, last, hlater⟩ := ih hsettled hcovers' (by omega)
    exact ⟨_, last, cyclesOn_succ_eq_ok_iff.mpr ⟨cycle, later, hcycle, hlater, rfl⟩⟩

/-- A relaxation loop answers and ends as cycles on copies of its model do, faults included. It
leaves the model as it was, with the instantiations of the cycles logged in order; those of a cycle
that met a contradiction are the ones before it. -/
theorem relaxLoop_eq_cyclesOn (reachable : n.Reachable) (hcovers : m.Covers n.vars) (times : Nat) :
    n.relaxLoop m times = (n.cyclesOn m times).map (fun copies =>
      (copies.1.map Cycle.result, copies.2,
        { m with log := m.log ++ (copies.1.flatMap (Cycle.logged m)).toArray },
        copies.1.flatMap Cycle.events)) ∧
    (∀ cycles last, n.cyclesOn m times = .ok (cycles, last) →
      cycles.length = times ∧ ∀ i cycle, cycles[i]? = some cycle →
        ∃ before, n.cyclesOn m i = .ok (cycles.take i, before) ∧ before.fix m = .ok cycle ∧
          before.instantiations m = .ok (cycle.logged m) ∧
            cycle.model.log = m.log ++ (cycle.logged m).toArray) ∧
    (n.policy.schedule.calls + times + UInt32.size ≤ UInt64.size →
      ∃ cycles last, n.cyclesOn m times = .ok (cycles, last)) := by
  have h := reachable.settled
  refine ⟨h.relaxLoop_eq m m.log times, ?_, h.exists_cyclesOn hcovers⟩
  intro cycles last hrun
  refine ⟨length_cyclesOn hrun, ?_⟩
  intro i cycle hcycle
  exact h.exists_fix_of_cyclesOn hcovers hrun hcycle

def lastRefusingLater : Model :=
  lastRefusing.save.fixTo (⟨1⟩, 2)

/-- Three cycles: the last variable stops the first of them halfway and the second one at once. -/
theorem relaxLoop_lastRefusingLater :
    twiceRecorded.Reachable ∧ lastRefusingLater.Covers twiceRecorded.vars ∧
    ∃ cycles last, twiceRecorded.cyclesOn lastRefusingLater 3 = .ok (cycles, last) ∧
      cycles.map (Cycle.logged lastRefusingLater) =
        [[(⟨0⟩, 1), (⟨0⟩, 1)], [], [(⟨1⟩, 2), (⟨0⟩, 1), (⟨0⟩, 1)]] ∧
      twiceRecorded.relaxLoop lastRefusingLater 3 = .ok (
        [.error ⟨⟨2⟩, 3⟩, .error ⟨⟨2⟩, 3⟩, .ok ⟨[2, 1], [2, 0, 1]⟩], last,
        { lastRefusingLater with
          log := #[(⟨1⟩, 2), (⟨0⟩, 1), (⟨0⟩, 1), (⟨1⟩, 2), (⟨0⟩, 1), (⟨0⟩, 1)] },
        cycles.flatMap Cycle.events) := by
  have hcovers : lastRefusingLater.Covers twiceRecorded.vars := by
    unfold Model.Covers
    decide
  obtain ⟨hloop, _, hexists⟩ := relaxLoop_eq_cyclesOn reachable_twiceRecorded hcovers 3
  obtain ⟨cycles, last, hcycles⟩ := hexists (by decide)
  have hreplay : (twiceRecorded.cyclesOn lastRefusingLater 3).map
      (fun copies => (copies.1.map Cycle.result, copies.1.map (Cycle.logged lastRefusingLater))) =
        .ok ([.error ⟨⟨2⟩, 3⟩, .error ⟨⟨2⟩, 3⟩, .ok ⟨[2, 1], [2, 0, 1]⟩],
          [[(⟨0⟩, 1), (⟨0⟩, 1)], [], [(⟨1⟩, 2), (⟨0⟩, 1), (⟨0⟩, 1)]]) := by
    decide +kernel
  rw [hcycles] at hreplay
  obtain ⟨hresults, hlogged⟩ := Prod.mk.inj (Except.ok.inj hreplay)
  refine ⟨reachable_twiceRecorded, hcovers, cycles, last, hcycles, hlogged, ?_⟩
  rw [hloop, hcycles, Except.map, hresults, List.flatMap_def, hlogged]
  rfl

end Neighbor

end LargeNeighborhood
