import LargeNeighborhood.Proofs.Policy.Cycle

/-!
# Runs of a policy

A search drives a policy through snapshots, looks at the schedule and cycles. A run shows the answer
to each operation with the policy and the randomness after it; the calls back of a cycle are noted.
-/

namespace LargeNeighborhood.Policy

/-- What a search asks of a policy. The callback of a cycle starts in a state of its own. -/
inductive Operation
  | snapshot (values : Array Int32)
  | tick
  | relax
  | freeze {σ : Type} (target : Nat) (answer : Nat → σ → Except Contradiction Bool × σ) (state : σ)

/-- What it gets: the target of a new cycle, or the calls and the result of a cycle. -/
inductive Answer
  | done
  | target (count : Nat)
  | cycle (calls : List Call) (result : Except Contradiction Outcome)
deriving DecidableEq

def Answer.isContradiction : Answer → Bool
  | .cycle _ (.error _) => true
  | _ => false

structure Move (ρ : Type) where
  answer : Answer
  policy : Policy
  source : ρ

namespace Operation

def isTick : Operation → Bool
  | .tick => true
  | _ => false

def recorded (values : List Int32) : Operation → List Int32
  | .snapshot next => next.toList
  | .tick | .relax | .freeze .. => values

def Within (bounds : Int32 × Int32) : Operation → Prop
  | .snapshot values => ∀ value ∈ values, bounds.1 ≤ value ∧ value ≤ bounds.2
  | .tick | .relax | .freeze .. => True

end Operation

def perform [RandomSource ρ] (p : Policy) (source : ρ) : Operation → Checked (Move ρ)
  | .snapshot values => return ⟨.done, (← p.snapshot values).policy, source⟩
  | .tick => do
    let paced ← p.tick source
    return ⟨.target paced.policy.schedule.target, paced.policy, paced.source⟩
  | .relax => do
    let paced ← p.relax source
    return ⟨.done, paced.policy, paced.source⟩
  | .freeze target answer state => do
    let cycle ← p.selectAndFreeze target source (Freeze.total answer).noting ([], state)
    return ⟨.cycle cycle.state.1 cycle.result, cycle.policy, cycle.source⟩

def trace [RandomSource ρ] (p : Policy) (source : ρ) : List Operation → Checked (List (Move ρ))
  | [] => return []
  | op :: ops => do
    let move ← p.perform source op
    return move :: (← move.policy.trace move.source ops)

section

variable [RandomSource ρ] {p p' : Policy} {values : List Int32} {source : ρ} {op : Operation}
  {ops : List Operation} {move : Move ρ} {moves : List (Move ρ)}

theorem trace_cons_eq_ok_iff :
    p.trace source (op :: ops) = .ok moves ↔ ∃ move rest, p.perform source op = .ok move ∧
      move.policy.trace move.source ops = .ok rest ∧ moves = move :: rest := by
  rw [trace, Checked.bind_eq_ok_iff]
  constructor
  · rintro ⟨move, hop, hrest⟩
    obtain ⟨rest, htrace, hmoves⟩ := Checked.bind_eq_ok_iff.mp hrest
    cases hmoves
    exact ⟨move, rest, hop, htrace, rfl⟩
  · rintro ⟨move, rest, hop, htrace, rfl⟩
    exact ⟨move, hop, Checked.bind_eq_ok_iff.mpr ⟨rest, htrace, rfl⟩⟩

/-! ## One operation -/

theorem perform_snapshot_eq_ok_iff {next : Array Int32} :
    p.perform source (.snapshot next) = .ok move ↔
      ∃ regrouped, p.snapshot next = .ok regrouped ∧
        move = ⟨.done, regrouped.policy, source⟩ := by
  rw [perform, Checked.bind_eq_ok_iff]
  simp only [pure, Except.pure, Except.ok.injEq, eq_comm]

theorem perform_tick_eq_ok_iff :
    p.perform source .tick = .ok move ↔ ∃ step, p.schedule.tick source = .ok step ∧
      move = ⟨.target step.schedule.target, { p with schedule := step.schedule }, step.source⟩ := by
  simp only [perform, Checked.bind_eq_ok_iff, tick_eq_ok_iff, pure, Except.pure, Except.ok.injEq]
  constructor
  · rintro ⟨paced, ⟨step, hstep, rfl⟩, rfl⟩
    exact ⟨step, hstep, rfl⟩
  · rintro ⟨step, hstep, rfl⟩
    exact ⟨_, ⟨step, hstep, rfl⟩, rfl⟩

theorem perform_relax_eq_ok_iff :
    p.perform source .relax = .ok move ↔ ∃ step, p.schedule.update source = .ok step ∧
      move = ⟨.done, { p with schedule := step.schedule }, step.source⟩ := by
  simp only [perform, Checked.bind_eq_ok_iff, relax_eq_ok_iff, pure, Except.pure, Except.ok.injEq]
  constructor
  · rintro ⟨paced, ⟨step, hstep, rfl⟩, rfl⟩
    exact ⟨step, hstep, rfl⟩
  · rintro ⟨step, hstep, rfl⟩
    exact ⟨_, ⟨step, hstep, rfl⟩, rfl⟩

theorem bounds_eq_of_sameRange (h : p.groups.SameRange p'.groups) : p'.bounds = p.bounds := by
  simp only [bounds, ValueGroups.max, ValueGroups.valueAt, h.1, h.2]

/-- A cycle without a contradiction calls for the members of its groups and leaves its policy as it
was. -/
theorem Settled.perform_freeze (h : p.Settled values) {target : Nat}
    {answer : Nat → σ → Except Contradiction Bool × σ} {state : σ}
    (hrun : p.perform source (.freeze target answer state) = .ok move)
    (hcalm : move.answer.isContradiction = false) :
    ∃ positions calls, positions = (p.drawOrder target source).1.flatMap p.groups.positions ∧
      calls = positions.zip (replies answer positions state) ∧
      move = ⟨.cycle calls (.ok ⟨(p.drawOrder target source).1.map p.groups.valueAt,
        (calls.filter fun call => decide (call.2 = .ok true)).map Prod.fst⟩), p,
        (p.drawOrder target source).2⟩ := by
  obtain ⟨cycle, hcycle, hmove⟩ := Checked.bind_eq_ok_iff.mp hrun
  cases hmove
  cases hresult : cycle.result with
  | error c => simp [hresult, Answer.isContradiction] at hcalm
  | ok outcome =>
    obtain ⟨hpolicy, hsource, hdrawn, hmembers⟩ := h.selectAndFreeze_eq_ok hcycle hresult
    obtain ⟨_, made, hmade, hvisits⟩ := freezeMembers_noting hmembers
    have hcalls := freezeMembers_noting_total hmembers
    rw [hmade, List.nil_append] at hcalls
    refine ⟨_, made, rfl, hcalls, ?_⟩
    rw [hmade, hpolicy, hsource, List.nil_append, ← hdrawn, ← hvisits.of_ok.2.2]

theorem Settled.perform (h : p.Settled values) (hrun : p.perform source op = .ok move) :
    move.policy.Settled (op.recorded values) ∧ move.policy.bounds = p.bounds ∧
      move.policy.schedule.calls ≤ p.schedule.calls + if op.isTick then 1 else 0 := by
  cases op with
  | snapshot next =>
    obtain ⟨regrouped, hregrouped, rfl⟩ := perform_snapshot_eq_ok_iff.mp hrun
    obtain ⟨hsettled, hrange⟩ := h.snapshot hregrouped
    refine ⟨hsettled, bounds_eq_of_sameRange hrange, ?_⟩
    rw [schedule_snapshot hregrouped]
    exact Nat.zero_le _
  | tick =>
    obtain ⟨step, hstep, rfl⟩ := perform_tick_eq_ok_iff.mp hrun
    obtain ⟨_, hcalls, hused⟩ := Schedule.tick_keeps hstep
    exact ⟨h.pace hused, rfl, hcalls.le⟩
  | relax =>
    obtain ⟨step, hstep, rfl⟩ := perform_relax_eq_ok_iff.mp hrun
    obtain ⟨_, hcalls, hused⟩ := Schedule.update_keeps hstep
    exact ⟨h.pace hused, rfl, hcalls.le⟩
  | freeze target answer state =>
    obtain ⟨cycle, hcycle, hmove⟩ := Checked.bind_eq_ok_iff.mp hrun
    cases hmove
    rw [h.policy_selectAndFreeze hcycle]
    exact ⟨h, rfl, Nat.le_add_right _ _⟩

/-- An operation on values within the bounds can only fault by overflow of the counter. -/
theorem Settled.exists_perform (h : p.Settled values) (hwithin : op.Within p.bounds)
    (hcalls : p.schedule.calls + UInt32.size ≤ UInt64.size) (source : ρ) :
    ∃ move, p.perform source op = .ok move := by
  cases op with
  | snapshot values =>
    have hgroups : ∀ value ∈ values, p.groups.groupOf value < p.groups.buckets.size := by
      intro value hvalue
      rw [ValueGroups.groupOf_lt_iff h.indexes.fits]
      exact hwithin value hvalue
    obtain ⟨groups, hrebuild, _⟩ := h.indexes.rebuild values hgroups
    exact ⟨_, perform_snapshot_eq_ok_iff.mpr
      ⟨_, Checked.bind_eq_ok_iff.mpr ⟨groups, hrebuild, rfl⟩, rfl⟩⟩
  | tick =>
    obtain ⟨step, hstep⟩ := Schedule.exists_tick hcalls source
    exact ⟨_, perform_tick_eq_ok_iff.mpr ⟨step, hstep, rfl⟩⟩
  | relax =>
    obtain ⟨step, hstep⟩ := Schedule.exists_update hcalls source
    exact ⟨_, perform_relax_eq_ok_iff.mpr ⟨step, hstep, rfl⟩⟩
  | freeze target answer state =>
    obtain ⟨progress, _, hcycle, _⟩ := h.exists_cycle target source answer state
    exact ⟨_, Checked.bind_eq_ok_iff.mpr ⟨_, hcycle, rfl⟩⟩

theorem Settled.exists_trace (h : p.Settled values) (hwithin : ∀ op ∈ ops, op.Within p.bounds)
    (hcalls : p.schedule.calls + ops.countP Operation.isTick + UInt32.size ≤ UInt64.size)
    (source : ρ) : ∃ moves, p.trace source ops = .ok moves := by
  induction ops generalizing p values source with
  | nil => exact ⟨[], rfl⟩
  | cons op ops ih =>
    rw [List.countP_cons] at hcalls
    obtain ⟨move, hop⟩ := h.exists_perform (hwithin op List.mem_cons_self) (by omega) source
    obtain ⟨hsettled, hbounds, hcounted⟩ := h.perform hop
    have hlater : ∀ op ∈ ops, op.Within move.policy.bounds := by
      intro op hmem
      rw [hbounds]
      exact hwithin op (List.mem_cons_of_mem _ hmem)
    obtain ⟨rest, hrest⟩ := ih hsettled hlater (by omega) move.source
    exact ⟨_, trace_cons_eq_ok_iff.mpr ⟨move, rest, hop, hrest, rfl⟩⟩

end

end LargeNeighborhood.Policy
