import LargeNeighborhood.Proofs.Neighbor.Lockstep
import LargeNeighborhood.Proofs.Strict.Policy

/-!
# Strict runs

The operations of a neighborhood on its strict policy, and their runs. A run whose models have the
variables comes to an end with every check made, whatever the bounds, the solutions and the seed.
-/

namespace LargeNeighborhood.Strict

/-! ## Operations -/

def takeSnapshot (n : Neighbor) (values : Array Int32) : Checked Neighbor.Reported := do
  let regrouped ← snapshot n.policy values
  return ⟨{ n with values := values, policy := regrouped.policy }, regrouped.events⟩

def recordWith (n : Neighbor) (read : VarId → Checked (Except NeighborError Int32)) :
    Checked (Except NeighborError Neighbor.Reported) := do
  match ← n.readValues read n.vars.toList with
  | .error e => return .error e
  | .ok values => return .ok (← takeSnapshot n values.toArray)

def fix (n : Neighbor) (m : Model) : Checked Neighbor.Cycle := do
  let paced ← n.policy.tick n.source
  let target := paced.policy.schedule.target
  let cycle ← selectAndFreeze paced.policy target paced.source n.freezePosition m
  let ending :=
    match cycle.result with
    | .ok _ => []
    | .error c => [Event.fixFailed c]
  return {
    neighbor := { n with source := cycle.source, policy := cycle.policy }
    model := cycle.state
    result := cycle.result
    events := paced.events ++ cycle.events ++ ending }

def perform (n : Neighbor) : Neighbor.Operation → Checked (Neighbor.Answer × Neighbor)
  | .init _ => return (.done, n)
  | .record m => return n.recorded (← recordWith n (Neighbor.modelValue m))
  | .load s => return n.recorded (← recordWith n (Neighbor.storedValue s))
  | .fix m => do
    let cycle ← fix n m
    return (.fixed cycle.result cycle.model, cycle.neighbor)
  | .restrictLess => return (.done, (← n.restrictLess).neighbor)

def trace (n : Neighbor) : List Neighbor.Operation → Checked (List Neighbor.Move)
  | [] => return []
  | op :: ops => do
    let (answer, n) ← perform n op
    return ⟨op, answer, n⟩ :: (← trace n ops)

variable {n n₀ : Neighbor} {op : Neighbor.Operation} {ops : List Neighbor.Operation}

theorem recordWith_eq (h : n.Settled) (read : VarId → Checked (Except NeighborError Int32)) :
    recordWith n read = n.recordWith read := by
  unfold recordWith Neighbor.recordWith
  congr 1
  funext result
  cases result with
  | error e => rfl
  | ok values =>
    dsimp only
    rw [takeSnapshot, Neighbor.takeSnapshot, snapshot_eq h.policy]

theorem fix_eq (h : n.Settled) (m : Model) : fix n m = n.fix m := by
  unfold fix Neighbor.fix
  cases hpaced : n.policy.tick n.source with
  | error fault => rfl
  | ok paced =>
    obtain ⟨hsettled, _⟩ := h.policy.tick hpaced
    have hcycle := selectAndFreeze_eq hsettled paced.policy.schedule.target paced.source
      n.freezePosition m
    exact congrFun (congrArg bind hcycle) _

theorem perform_eq (h : n.Settled) : perform n op = n.perform op := by
  cases op with
  | init m => rfl
  | record m =>
    rw [perform, recordWith_eq h]
    rfl
  | load s =>
    rw [perform, recordWith_eq h]
    rfl
  | fix m =>
    rw [perform, fix_eq h]
    rfl
  | restrictLess => rfl

theorem trace_eq (h : n.Settled) (ops : List Neighbor.Operation) : trace n ops = n.trace ops := by
  induction ops generalizing n with
  | nil => rfl
  | cons op ops ih =>
    rw [trace, Neighbor.trace, perform_eq h]
    cases hop : n.perform op with
    | error fault => rfl
    | ok reply =>
      obtain ⟨answer, next⟩ := reply
      simp only [Checked.ok_bind, ih (h.perform hop).settled]

/-- No check of a run ever fails: it goes on as long as its models have the variables and fewer than
`2 ^ 63` cycles are run, with the moves of the run without checks. -/
theorem trace_never_faults (hnew : n₀.IsNew) (hcovers : ∀ op ∈ ops, op.Covers n₀.vars)
    (hcycles : ops.countP Neighbor.Operation.isCycle < 2 ^ 63) :
    ∃ moves, trace n₀ ops = .ok moves ∧ n₀.trace ops = .ok moves := by
  obtain ⟨hsettled, _, hcalls⟩ := hnew.settled
  obtain ⟨moves, hmoves⟩ := hsettled.exists_trace hcovers (by
    rw [hcalls]
    simp only [UInt32.size, UInt64.size]
    omega)
  exact ⟨moves, (trace_eq hsettled ops).trans hmoves, hmoves⟩

def fullRange : Neighbor :=
  let p := Policy.unrecorded Int32.minValue Int32.maxValue .standard
  ⟨#[⟨0⟩, ⟨1⟩], #[], p.bounds.1, p.bounds.2, .ofSeed 42, p⟩

/-- The least and the greatest value recorded, and two cycles with a relaxation between them. -/
def acrossFullRange : List Neighbor.Operation :=
  [.load (.ofList [(⟨0⟩, Int32.minValue), (⟨1⟩, Int32.maxValue)]), .fix (.ofBounds 2 0 3),
    .restrictLess, .fix (.ofBounds 2 0 3)]

theorem isNew_fullRange : fullRange.IsNew := by
  have hcreate : Policy.create Int32.minValue Int32.maxValue .standard =
      .ok (Policy.unrecorded Int32.minValue Int32.maxValue .standard) :=
    Policy.create_eq_ok (by decide) (by decide +kernel)
  have hpolicy : Neighbor.ofPolicy #[⟨0⟩, ⟨1⟩]
      (Policy.unrecorded Int32.minValue Int32.maxValue .standard) 42 = .ok fullRange := rfl
  exact .around hcreate hpolicy

theorem trace_fullRange_never_faults :
    fullRange.IsNew ∧ (∀ op ∈ acrossFullRange, op.Covers fullRange.vars) ∧
    acrossFullRange.countP Neighbor.Operation.isCycle < 2 ^ 63 ∧
    ∃ moves, trace fullRange acrossFullRange = .ok moves ∧
      fullRange.trace acrossFullRange = .ok moves := by
  have hcovers : (Model.ofBounds 2 0 3).Covers fullRange.vars := by
    unfold Model.Covers fullRange
    decide
  have hall : ∀ op ∈ acrossFullRange, op.Covers fullRange.vars := by
    simp only [acrossFullRange, List.forall_mem_cons, Neighbor.Operation.Covers]
    exact ⟨trivial, hcovers, trivial, hcovers, by simp⟩
  have hcycles : acrossFullRange.countP Neighbor.Operation.isCycle < 2 ^ 63 := by
    have hcount : acrossFullRange.countP Neighbor.Operation.isCycle = 2 := rfl
    omega
  exact ⟨isNew_fullRange, hall, hcycles, trace_never_faults isNew_fullRange hall hcycles⟩

end LargeNeighborhood.Strict
