import LargeNeighborhood.Proofs.Neighbor.Freeze

/-!
# Runs on different models

Which groups a cycle draws is settled before it looks at its model. So two runs that differ only in
the models of their cycles go through the same states as long as no cycle meets a contradiction, and
a model decides no more than which members of the drawn groups are skipped.
-/

namespace LargeNeighborhood.Neighbor

/-! ## The states of a run -/

structure Move where
  op : Operation
  answer : Answer
  neighbor : Neighbor

def trace (n : Neighbor) : List Operation → Checked (List Move)
  | [] => return []
  | op :: ops => do
    let (answer, n) ← n.perform op
    return ⟨op, answer, n⟩ :: (← n.trace ops)

variable {n n' : Neighbor} {op op' : Operation} {ops ops' : List Operation} {answer : Answer}
  {moves moves' : List Move} {m m' : Model}

theorem trace_cons_eq_ok_iff :
    n.trace (op :: ops) = .ok moves ↔ ∃ answer next rest, n.perform op = .ok (answer, next) ∧
      next.trace ops = .ok rest ∧ moves = ⟨op, answer, next⟩ :: rest := by
  rw [trace, Checked.bind_eq_ok_iff]
  constructor
  · rintro ⟨⟨answer, next⟩, hop, hrest⟩
    obtain ⟨rest, htrace, hmoves⟩ := Checked.bind_eq_ok_iff.mp hrest
    cases hmoves
    exact ⟨answer, next, rest, hop, htrace, rfl⟩
  · rintro ⟨answer, next, rest, hop, htrace, rfl⟩
    exact ⟨_, hop, Checked.bind_eq_ok_iff.mpr ⟨rest, htrace, rfl⟩⟩

theorem run_eq_trace (n : Neighbor) (ops : List Operation) :
    n.run ops = (n.trace ops).map fun moves =>
      (moves.map Move.answer, moves.foldl (fun _ move => move.neighbor) n) := by
  induction ops generalizing n with
  | nil => rfl
  | cons op ops ih =>
    rw [run, trace]
    cases n.perform op with
    | error fault => rfl
    | ok reply =>
      obtain ⟨answer, next⟩ := reply
      simp only [bind, Except.bind, ih]
      cases next.trace ops <;> rfl

theorem Settled.exists_trace (h : n.Settled) (hcovers : ∀ op ∈ ops, op.Covers n.vars)
    (hcalls : n.policy.schedule.calls + ops.countP Operation.isCycle + UInt32.size ≤ UInt64.size) :
    ∃ moves, n.trace ops = .ok moves := by
  obtain ⟨answers, last, hrun⟩ := h.exists_run hcovers hcalls
  rw [run_eq_trace] at hrun
  obtain ⟨moves, hmoves, _⟩ := Checked.map_eq_ok_iff.mp hrun
  exact ⟨moves, hmoves⟩

/-! ## Cycles on two models -/

def Answer.isContradiction : Answer → Bool
  | .fixed (.error _) _ => true
  | _ => false

/-- A cycle without a contradiction: the state after it and the values it draws do not depend on the
model. -/
theorem Settled.fix_eq_drawn (h : n.Settled) {paced : Policy.Paced Random.Stream} {cycle : Cycle}
    {outcome : Outcome} (hpaced : n.policy.tick n.source = .ok paced)
    (hrun : n.fix m = .ok cycle) (hresult : cycle.result = .ok outcome) :
    cycle.neighbor = { n with
      source := (paced.policy.drawOrder paced.policy.schedule.target paced.source).2
      policy := paced.policy } ∧
    outcome.drawn = (paced.policy.drawOrder paced.policy.schedule.target paced.source).1.map
      n.policy.groups.valueAt ∧
    ∀ position, position ∈ outcome.frozen ↔
      (∃ value ∈ outcome.drawn, n.values[position]? = some value) ∧
        n.possible m position = true := by
  obtain ⟨paced', order, source, hpaced', horder, hstate, hoccupied, _, hdrawn, hmembers⟩ :=
    h.exists_order_of_fix hrun hresult
  obtain rfl : paced = paced' := Except.ok.inj (hpaced.symm.trans hpaced')
  obtain ⟨hfrozen, _⟩ := h.freezeMembers_eq_ok hmembers
  rw [horder]
  exact ⟨hstate, hdrawn, fun _ => h.mem_frozen_iff hoccupied hdrawn hfrozen⟩

/-! ## Two runs -/

/-- Operations that differ at most in the model of a cycle. -/
inductive Operation.SameButModel : Operation → Operation → Prop
  | load (s : StoredSolution) : SameButModel (.load s) (.load s)
  | restrictLess : SameButModel .restrictLess .restrictLess
  | fix (m m' : Model) : SameButModel (.fix m) (.fix m')

/-- Moves that end in one state. The outcomes of their cycles have the same drawn values, and a
position is frozen in one of them alone if it is in a drawn group and only one of the models lets
its variable take the recorded value. -/
structure Move.Agrees (move move' : Move) : Prop where
  neighbor_eq : move'.neighbor = move.neighbor
  answer : match move.op, move'.op with
    | .fix m, .fix m' => ∃ outcome outcome' last last',
        move.answer = .fixed (.ok outcome) last ∧ move'.answer = .fixed (.ok outcome') last' ∧
        outcome'.drawn = outcome.drawn ∧
        ∀ position, ¬ (position ∈ outcome.frozen ↔ position ∈ outcome'.frozen) ↔
          (∃ value ∈ outcome.drawn, move.neighbor.values[position]? = some value) ∧
            move.neighbor.possible m position ≠ move.neighbor.possible m' position
    | _, _ => move'.answer = move.answer

theorem Settled.fixes_agree (h : n.Settled) {answer answer' : Answer} {next next' : Neighbor}
    (hop : n.perform (.fix m) = .ok (answer, next))
    (hop' : n.perform (.fix m') = .ok (answer', next'))
    (hcalm : answer.isContradiction = false) (hcalm' : answer'.isContradiction = false) :
    Move.Agrees ⟨.fix m, answer, next⟩ ⟨.fix m', answer', next'⟩ := by
  obtain ⟨cycle, hcycle, hanswer⟩ := Checked.bind_eq_ok_iff.mp hop
  obtain ⟨cycle', hcycle', hanswer'⟩ := Checked.bind_eq_ok_iff.mp hop'
  obtain ⟨paced, _, hpaced, _⟩ := h.fix_eq_ok_iff.mp hcycle
  cases hanswer
  cases hanswer'
  cases hresult : cycle.result with
  | error c => simp [hresult, Answer.isContradiction] at hcalm
  | ok outcome =>
    cases hresult' : cycle'.result with
    | error c => simp [hresult', Answer.isContradiction] at hcalm'
    | ok outcome' =>
      obtain ⟨hstate, hdrawn, hfrozen⟩ := h.fix_eq_drawn hpaced hcycle hresult
      obtain ⟨hstate', hdrawn', hfrozen'⟩ := h.fix_eq_drawn hpaced hcycle' hresult'
      have hsame : outcome'.drawn = outcome.drawn := hdrawn'.trans hdrawn.symm
      refine ⟨hstate'.trans hstate.symm, outcome, outcome', _, _, rfl, rfl, hsame, ?_⟩
      intro position
      rw [hstate]
      change _ ↔ (∃ value ∈ outcome.drawn, n.values[position]? = some value) ∧
        n.possible m position ≠ n.possible m' position
      rw [hfrozen, hfrozen', hsame]
      by_cases hin : ∃ value ∈ outcome.drawn, n.values[position]? = some value
      · simp [hin]
      · simp [hin]

theorem Settled.performs_agree (h : n.Settled) (hops : op.SameButModel op')
    {answer answer' : Answer} {next next' : Neighbor} (hop : n.perform op = .ok (answer, next))
    (hop' : n.perform op' = .ok (answer', next')) (hcalm : answer.isContradiction = false)
    (hcalm' : answer'.isContradiction = false) :
    Move.Agrees ⟨op, answer, next⟩ ⟨op', answer', next'⟩ := by
  cases hops with
  | load s =>
    obtain ⟨rfl, rfl⟩ := Prod.mk.inj (Except.ok.inj (hop.symm.trans hop'))
    exact ⟨rfl, rfl⟩
  | restrictLess =>
    obtain ⟨rfl, rfl⟩ := Prod.mk.inj (Except.ok.inj (hop.symm.trans hop'))
    exact ⟨rfl, rfl⟩
  | fix m m' => exact h.fixes_agree hop hop' hcalm hcalm'

theorem Settled.traces_agree (h : n.Settled) (hops : List.Forall₂ Operation.SameButModel ops ops')
    (htrace : n.trace ops = .ok moves) (htrace' : n.trace ops' = .ok moves')
    (hcalm : ∀ move ∈ moves, move.answer.isContradiction = false)
    (hcalm' : ∀ move ∈ moves', move.answer.isContradiction = false) :
    List.Forall₂ Move.Agrees moves moves' := by
  induction hops generalizing n moves moves' with
  | nil =>
    cases htrace
    cases htrace'
    exact .nil
  | cons hop _ ih =>
    obtain ⟨answer, next, rest, hperform, hrest, rfl⟩ := trace_cons_eq_ok_iff.mp htrace
    obtain ⟨answer', next', rest', hperform', hrest', rfl⟩ := trace_cons_eq_ok_iff.mp htrace'
    rw [List.forall_mem_cons] at hcalm hcalm'
    have hagrees := h.performs_agree hop hperform hperform' hcalm.1 hcalm'.1
    obtain rfl : next' = next := hagrees.neighbor_eq
    exact .cons hagrees (ih (h.perform hperform).settled hrest hrest' hcalm.2 hcalm'.2)

theorem countP_isCycle_eq (hops : List.Forall₂ Operation.SameButModel ops ops') :
    ops'.countP Operation.isCycle = ops.countP Operation.isCycle := by
  induction hops with
  | nil => rfl
  | cons hop _ ih => cases hop <;> simp [List.countP_cons, Operation.isCycle, ih]

/-- The models of the cycles never steer the draws. Two runs from one state that differ only in the
models of their cycles agree move by move as long as no cycle meets a contradiction; and both go on
as long as their models have the variables and the counter of cycles fits. -/
theorem draws_ignore_models (reachable : n.Reachable)
    (hops : List.Forall₂ Operation.SameButModel ops ops') :
    (∀ moves moves', n.trace ops = .ok moves → n.trace ops' = .ok moves' →
      (∀ move ∈ moves, move.answer.isContradiction = false) →
      (∀ move ∈ moves', move.answer.isContradiction = false) →
        List.Forall₂ Move.Agrees moves moves') ∧
    ((∀ op ∈ ops, op.Covers n.vars) → (∀ op ∈ ops', op.Covers n.vars) →
      n.policy.schedule.calls + ops.countP Operation.isCycle + UInt32.size ≤ UInt64.size →
        ∃ moves moves', n.trace ops = .ok moves ∧ n.trace ops' = .ok moves') := by
  have h := reachable.settled
  constructor
  · intro moves moves' htrace htrace' hcalm hcalm'
    exact h.traces_agree hops htrace htrace' hcalm hcalm'
  · intro hcovers hcovers' hcalls
    obtain ⟨moves, hmoves⟩ := h.exists_trace hcovers hcalls
    rw [← countP_isCycle_eq hops] at hcalls
    obtain ⟨moves', hmoves'⟩ := h.exists_trace hcovers' hcalls
    exact ⟨moves, moves', hmoves, hmoves'⟩

def onWideModels : List Operation :=
  [.fix (.ofBounds 3 0 3), .restrictLess, .load (.ofList [(⟨0⟩, 2), (⟨1⟩, 0), (⟨2⟩, 2)]),
    .fix (.ofBounds 3 0 3)]

def onNarrowModels : List Operation :=
  [.fix (.ofBounds 3 1 1), .restrictLess, .load (.ofList [(⟨0⟩, 2), (⟨1⟩, 0), (⟨2⟩, 2)]),
    .fix (.ofBounds 3 0 1)]

/-- The runs freeze different positions of the same groups. -/
theorem draws_ignore_narrow_models :
    twiceRecorded.Reachable ∧ List.Forall₂ Operation.SameButModel onWideModels onNarrowModels ∧
    ∃ moves moves', twiceRecorded.trace onWideModels = .ok moves ∧
      twiceRecorded.trace onNarrowModels = .ok moves' ∧
      (∀ move ∈ moves, move.answer.isContradiction = false) ∧
      (∀ move ∈ moves', move.answer.isContradiction = false) ∧
      moves.map Move.answer ≠ moves'.map Move.answer ∧ List.Forall₂ Move.Agrees moves moves' := by
  have hops : List.Forall₂ Operation.SameButModel onWideModels onNarrowModels :=
    .cons (.fix _ _) (.cons .restrictLess (.cons (.load _) (.cons (.fix _ _) .nil)))
  refine ⟨reachable_twiceRecorded, hops, ?_⟩
  have hreplay : (twiceRecorded.trace onWideModels >>= fun moves =>
      (twiceRecorded.trace onNarrowModels).map fun moves' =>
        (moves.any (·.answer.isContradiction), moves'.any (·.answer.isContradiction),
          decide (moves.map Move.answer = moves'.map Move.answer))) =
            .ok (false, false, false) := by
    decide +kernel
  obtain ⟨moves, htrace, hrest⟩ := Checked.bind_eq_ok_iff.mp hreplay
  obtain ⟨moves', htrace', hseen⟩ := Checked.map_eq_ok_iff.mp hrest
  simp only [Prod.mk.injEq, List.any_eq_false, Bool.not_eq_true, decide_eq_false_iff_not] at hseen
  obtain ⟨hcalm, hcalm', hdiffer⟩ := hseen
  exact ⟨moves, moves', htrace, htrace', hcalm, hcalm', hdiffer,
    (draws_ignore_models reachable_twiceRecorded hops).1 moves moves' htrace htrace' hcalm hcalm'⟩

end LargeNeighborhood.Neighbor
