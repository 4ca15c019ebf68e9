import LargeNeighborhood.Proofs.Neighbor.Cycle

/-!
# Runs of a neighborhood

A search drives a neighborhood through recordings, cycles and relaxations in any order, some of
which fail. Every state on the way is coherent: values, groups, schedule and fragment agree.
-/

namespace LargeNeighborhood.Neighbor

inductive Operation
  | init (m : Model)
  | record (m : Model)
  | load (s : StoredSolution)
  | fix (m : Model)
  | restrictLess

/-- What it gets; a cycle also leaves a model. -/
inductive Answer
  | done
  | recorded (result : Except NeighborError Unit)
  | fixed (result : Except Contradiction Outcome) (m : Model)
deriving DecidableEq

def Answer.isSnapshot : Answer → Bool
  | .recorded (.ok ()) => true
  | _ => false

namespace Operation

def isCycle : Operation → Bool
  | .fix _ => true
  | _ => false

def Covers (vars : Array VarId) : Operation → Prop
  | .record m | .fix m => m.Covers vars
  | .init _ | .load _ | .restrictLess => True

def reading : Operation → Option (VarId → Checked (Except NeighborError Int32))
  | .record m => some (modelValue m)
  | .load s => some (storedValue s)
  | .init _ | .fix _ | .restrictLess => none

end Operation

/-- The neighborhood after a recording: the old one, if the recording failed. -/
def recorded (n : Neighbor) : Except NeighborError Reported → Answer × Neighbor
  | .ok reported => (.recorded (.ok ()), reported.neighbor)
  | .error e => (.recorded (.error e), n)

def perform (n : Neighbor) : Operation → Checked (Answer × Neighbor)
  | .init _ => return (.done, n)
  | .record m => return n.recorded (← n.record m)
  | .load s => return n.recorded (← n.load s)
  | .fix m => do
    let cycle ← n.fix m
    return (.fixed cycle.result cycle.model, cycle.neighbor)
  | .restrictLess => return (.done, (← n.restrictLess).neighbor)

def run (n : Neighbor) : List Operation → Checked (List Answer × Neighbor)
  | [] => return ([], n)
  | op :: ops => do
    let (answer, n) ← n.perform op
    let (answers, n) ← n.run ops
    return (answer :: answers, n)

variable {n n' : Neighbor} {op : Operation} {ops : List Operation} {answer : Answer}
  {answers : List Answer}

theorem run_cons_eq_ok_iff :
    n.run (op :: ops) = .ok (answers, n') ↔ ∃ answer rest next, n.perform op = .ok (answer, next) ∧
      next.run ops = .ok (rest, n') ∧ answers = answer :: rest := by
  rw [run, Checked.bind_eq_ok_iff]
  constructor
  · rintro ⟨⟨answer, next⟩, hop, hrest⟩
    obtain ⟨⟨rest, last⟩, hrun, hresult⟩ := Checked.bind_eq_ok_iff.mp hrest
    cases hresult
    exact ⟨answer, rest, next, hop, hrun, rfl⟩
  · rintro ⟨answer, rest, next, hop, hrun, rfl⟩
    exact ⟨_, hop, Checked.bind_eq_ok_iff.mpr ⟨_, hrun, rfl⟩⟩

/-! ## One operation -/

inductive Performed (n : Neighbor) : Operation → Answer → Neighbor → Prop
  | init (m : Model) : n.Performed (.init m) .done n
  | refused {op : Operation} {read : VarId → Checked (Except NeighborError Int32)}
      {e : NeighborError} (hread : op.reading = some read)
      (hrun : n.recordWith read = .ok (.error e)) : n.Performed op (.recorded (.error e)) n
  | recorded {op : Operation} {read : VarId → Checked (Except NeighborError Int32)}
      {reported : Reported} (hread : op.reading = some read)
      (hrun : n.recordWith read = .ok (.ok reported)) :
      n.Performed op (.recorded (.ok ())) reported.neighbor
  | fix {m : Model} {cycle : Cycle} (hrun : n.fix m = .ok cycle) :
      n.Performed (.fix m) (.fixed cycle.result cycle.model) cycle.neighbor
  | restrictLess {relaxed : Reported} (hrun : n.restrictLess = .ok relaxed) :
      n.Performed .restrictLess .done relaxed.neighbor

theorem perform_of_reading {read : VarId → Checked (Except NeighborError Int32)}
    (h : op.reading = some read) :
    n.perform op = (do return n.recorded (← n.recordWith read)) := by
  cases op with
  | record m =>
    cases h
    rfl
  | load s =>
    cases h
    rfl
  | init m => cases h
  | fix m => cases h
  | restrictLess => cases h

theorem performed_of_reading {read : VarId → Checked (Except NeighborError Int32)}
    (hread : op.reading = some read) (h : n.perform op = .ok (answer, n')) :
    n.Performed op answer n' := by
  rw [perform_of_reading hread] at h
  obtain ⟨result, hrun, hanswer⟩ := Checked.bind_eq_ok_iff.mp h
  cases result with
  | error e =>
    cases hanswer
    exact .refused hread hrun
  | ok taken =>
    cases hanswer
    exact .recorded hread hrun

theorem perform_eq_ok_iff : n.perform op = .ok (answer, n') ↔ n.Performed op answer n' := by
  constructor
  · intro h
    cases op with
    | init m =>
      cases h
      exact .init m
    | record m => exact performed_of_reading rfl h
    | load s => exact performed_of_reading rfl h
    | fix m =>
      obtain ⟨cycle, hcycle, hanswer⟩ := Checked.bind_eq_ok_iff.mp h
      cases hanswer
      exact .fix hcycle
    | restrictLess =>
      obtain ⟨relaxed, hrelaxed, hanswer⟩ := Checked.bind_eq_ok_iff.mp h
      cases hanswer
      exact .restrictLess hrelaxed
  · intro h
    cases h with
    | init m => rfl
    | refused hread hrun | recorded hread hrun =>
      rw [perform_of_reading hread, hrun]
      rfl
    | fix hrun | restrictLess hrun =>
      rw [perform, hrun]
      rfl

theorem SameScope.refl (n : Neighbor) : n.SameScope n :=
  ⟨rfl, rfl, rfl⟩

theorem SameScope.trans {n'' : Neighbor} (h : n.SameScope n') (h' : n'.SameScope n'') :
    n.SameScope n'' :=
  ⟨h'.1.trans h.1, h'.2.1.trans h.2.1, h'.2.2.trans h.2.2⟩

structure Steps (n : Neighbor) (op : Operation) (answer : Answer) (n' : Neighbor) : Prop where
  settled : n'.Settled
  scope : n.SameScope n'
  values : if answer.isSnapshot then n'.values.size = n.vars.size else n'.values = n.values
  calls : n'.policy.schedule.calls ≤ n.policy.schedule.calls + if op.isCycle then 1 else 0

theorem Settled.perform (h : n.Settled) (hrun : n.perform op = .ok (answer, n')) :
    n.Steps op answer n' := by
  cases perform_eq_ok_iff.mp hrun with
  | init m => exact ⟨h, .refl n, rfl, Nat.le_refl _⟩
  | refused _ _ => exact ⟨h, .refl n, rfl, Nat.le_add_right _ _⟩
  | recorded _ htaken =>
    obtain ⟨hsettled, hsize, hscope, hcalls⟩ := h.recordWith htaken
    exact ⟨hsettled, hscope, hsize, by omega⟩
  | fix hcycle =>
    obtain ⟨hsettled, hvalues, hscope, hcalls⟩ := h.fix hcycle
    exact ⟨hsettled, hscope, hvalues, hcalls.le⟩
  | restrictLess hrelaxed =>
    obtain ⟨hsettled, hvalues, hscope, hcalls⟩ := h.restrictLess hrelaxed
    exact ⟨hsettled, hscope, hvalues, hcalls.le⟩

theorem exists_modelValue {m : Model} {vars : Array VarId} (h : m.Covers vars) {var : VarId}
    (hvar : var ∈ vars) : ∃ answer, modelValue m var = .ok answer := by
  obtain ⟨d, _, hdomain⟩ := h.domain_eq hvar
  simp only [modelValue, Model.value, Model.isInstantiated, Model.lower, Model.upper, hdomain, bind,
    Except.bind, pure, Except.pure]
  cases d.lower == d.upper with
  | true => exact ⟨_, rfl⟩
  | false => exact ⟨_, rfl⟩

/-- An operation on a model that has the variables can only fault by overflow of the counter. -/
theorem Settled.exists_perform (h : n.Settled) (hcovers : op.Covers n.vars)
    (hcalls : n.policy.schedule.calls + UInt32.size ≤ UInt64.size) :
    ∃ answer n', n.perform op = .ok (answer, n') := by
  cases op with
  | init m => exact ⟨_, _, rfl⟩
  | record m =>
    obtain ⟨result, hresult⟩ := h.exists_recordWith fun var hvar => exists_modelValue hcovers hvar
    exact ⟨_, _, Checked.bind_eq_ok_iff.mpr ⟨result, hresult, rfl⟩⟩
  | load s =>
    have hread : ∀ var ∈ n.vars, ∃ answer, storedValue s var = .ok answer := by
      intro var _
      unfold storedValue
      cases s.value? var with
      | some value => exact ⟨_, rfl⟩
      | none => exact ⟨_, rfl⟩
    obtain ⟨result, hresult⟩ := h.exists_recordWith hread
    exact ⟨_, _, Checked.bind_eq_ok_iff.mpr ⟨result, hresult, rfl⟩⟩
  | fix m =>
    obtain ⟨step, hstep⟩ := Schedule.exists_tick hcalls n.source
    have hpaced := Policy.tick_eq_ok_iff.mpr ⟨step, hstep, rfl⟩
    obtain ⟨cycle, hcycle⟩ := h.exists_fix hcovers hpaced
    exact ⟨_, _, perform_eq_ok_iff.mpr (.fix hcycle)⟩
  | restrictLess =>
    obtain ⟨step, hstep⟩ := Schedule.exists_update hcalls n.source
    have hpaced := Policy.relax_eq_ok_iff.mpr ⟨step, hstep, rfl⟩
    have hrelaxed : ∃ relaxed, n.restrictLess = .ok relaxed :=
      ⟨_, Checked.bind_eq_ok_iff.mpr ⟨_, hpaced, rfl⟩⟩
    obtain ⟨relaxed, hrelaxed⟩ := hrelaxed
    exact ⟨_, _, perform_eq_ok_iff.mpr (.restrictLess hrelaxed)⟩

/-! ## Whole runs -/

theorem Settled.run (h : n.Settled) (hrun : n.run ops = .ok (answers, n')) :
    n'.Settled ∧ n.SameScope n' ∧
      if answers.any Answer.isSnapshot then n'.values.size = n.vars.size
      else n'.values = n.values := by
  induction ops generalizing n answers with
  | nil =>
    cases hrun
    exact ⟨h, .refl _, rfl⟩
  | cons op ops ih =>
    obtain ⟨answer, rest, next, hop, hrest, rfl⟩ := run_cons_eq_ok_iff.mp hrun
    obtain ⟨hsettled, hscope, hvalues, _⟩ := h.perform hop
    obtain ⟨hlast, hlater, hkept⟩ := ih hsettled hrest
    refine ⟨hlast, hscope.trans hlater, ?_⟩
    rw [List.any_cons]
    cases hsnapshot : answer.isSnapshot <;> cases hany : rest.any Answer.isSnapshot <;>
      simp only [hsnapshot, hany, Bool.or_true, Bool.or_false, if_true, Bool.false_eq_true,
        if_false, hscope.1] at hvalues hkept ⊢
    · rw [hkept, hvalues]
    · exact hkept
    · rw [hkept, hvalues]
    · exact hkept

theorem Settled.exists_run (h : n.Settled) (hcovers : ∀ op ∈ ops, op.Covers n.vars)
    (hcalls : n.policy.schedule.calls + ops.countP Operation.isCycle + UInt32.size ≤ UInt64.size) :
    ∃ answers n', n.run ops = .ok (answers, n') := by
  induction ops generalizing n with
  | nil => exact ⟨_, _, rfl⟩
  | cons op ops ih =>
    rw [List.countP_cons] at hcalls
    obtain ⟨answer, next, hop⟩ := h.exists_perform (hcovers op List.mem_cons_self) (by omega)
    obtain ⟨hsettled, hscope, _, hcounted⟩ := h.perform hop
    have hlater : ∀ op ∈ ops, op.Covers next.vars := by
      intro op hmem
      rw [hscope.1]
      exact hcovers op (List.mem_cons_of_mem _ hmem)
    obtain ⟨rest, last, hrest⟩ := ih hsettled hlater (by omega)
    exact ⟨_, _, run_cons_eq_ok_iff.mpr ⟨answer, rest, next, hop, hrest, rfl⟩⟩

def Reachable (n : Neighbor) : Prop :=
  ∃ n₀ ops answers, IsNew n₀ ∧ n₀.run ops = .ok (answers, n)

theorem Reachable.settled (h : n.Reachable) : n.Settled := by
  obtain ⟨n₀, ops, answers, hnew, hrun⟩ := h
  exact (hnew.settled.1.run hrun).1

/-! ## Coherence -/

/-- The parts of a neighborhood agree on its recorded values. -/
structure Coherent (n : Neighbor) : Prop where
  /-- Either nothing is recorded and nothing is grouped, or every variable has a value. -/
  recorded : (n.values = #[] ∧ ∀ id, n.policy.groups.positions id = []) ∨
    n.values.size = n.vars.size
  bounds : n.policy.bounds = (n.min, n.max)
  inBounds : ∀ value ∈ n.values, n.min ≤ value ∧ value ≤ n.max
  agree : ∀ i j : Nat, n.vars[i]? = n.vars[j]? → n.values[i]? = n.values[j]?
  /-- A group lists the positions of its value. -/
  members : ∀ id < n.policy.groups.rangeLength, ∃ members value,
    n.policy.groups.members id = .ok members ∧ value.toInt = n.min.toInt + id ∧
      members.toList = (List.range n.values.size).filter fun position =>
        decide (n.values[position]? = some value)
  partition : ∀ position < n.values.size, ∃! id, id < n.policy.groups.rangeLength ∧
    position ∈ n.policy.groups.positions id
  /-- The occupied groups are listed by first appearance. -/
  occupied : n.policy.groups.occupied.toList =
    (n.values.toList.map n.policy.groups.groupOf).eraseDups
  mem_occupied : ∀ id, id ∈ n.policy.groups.occupied ↔ n.policy.groups.positions id ≠ []
  nodup_occupied : n.policy.groups.occupied.toList.Nodup
  usedValues : n.policy.schedule.usedValues = n.policy.groups.usedValues
  fragment : n.policy.fragment.capacity = n.policy.groups.rangeLength ∧
    n.policy.fragment.isEmpty = true ∧ ∀ id, n.policy.fragment.contains id = false

theorem Settled.coherent (h : n.Settled) : n.Coherent where
  recorded := by
    rcases h.size_eq with hempty | hsize
    · refine .inl ⟨hempty, fun id => ?_⟩
      rw [h.policy.indexes.positions_eq, hempty]
      rfl
    · exact .inr hsize
  bounds := h.bounds_eq
  inBounds := h.inRange
  agree := h.agree
  members := by
    intro id hid
    have hmin : n.policy.groups.min = n.min := congrArg Prod.fst h.bounds_eq
    obtain ⟨members, hmembers, hlist⟩ := h.policy.indexes.exists_members hid
    refine ⟨members, n.policy.groups.valueAt id, hmembers, ?_, ?_⟩
    · rw [ValueGroups.toInt_valueAt h.policy.indexes.fits hid, hmin]
    · simpa using hlist
  partition := by
    intro position hposition
    obtain ⟨id, hid, hmem⟩ := h.policy.indexes.exists_mem_positions (by simpa using hposition)
    refine ⟨id, ⟨h.policy.indexes.occupied_lt hid, hmem⟩, ?_⟩
    rintro other ⟨_, hother⟩
    exact h.policy.indexes.eq_of_mem_positions hother hmem
  occupied := h.policy.indexes.occupied_eq
  mem_occupied := fun _ => h.policy.indexes.mem_occupied_iff
  nodup_occupied := h.policy.indexes.nodup_occupied
  usedValues := h.policy.usedValues_eq
  fragment := by
    rw [h.policy.fragment_eq]
    exact ⟨BitSet.capacity_empty _, BitSet.isEmpty_empty _, BitSet.contains_empty _⟩

/-- Every state on a run is coherent, and a run goes on as long as its models have the variables and
the counter of cycles fits. -/
theorem run_coherent {n₀ : Neighbor} (hnew : n₀.IsNew) (ops : List Operation) :
    (∀ answers n, n₀.run ops = .ok (answers, n) →
      n.Coherent ∧ n₀.SameScope n ∧
        (n.values = #[] ↔ ∀ answer ∈ answers, answer.isSnapshot = false)) ∧
    ((∀ op ∈ ops, op.Covers n₀.vars) →
      ops.countP Operation.isCycle + UInt32.size ≤ UInt64.size →
        ∃ answers n, n₀.run ops = .ok (answers, n)) := by
  obtain ⟨hsettled, hempty, hcalls⟩ := hnew.settled
  constructor
  · intro answers n hrun
    obtain ⟨hlast, hscope, hvalues⟩ := hsettled.run hrun
    refine ⟨hlast.coherent, hscope, ?_⟩
    have hnone : (∀ answer ∈ answers, answer.isSnapshot = false) ↔
        answers.any Answer.isSnapshot = false := by
      simp
    rw [hnone]
    cases hany : answers.any Answer.isSnapshot with
    | false =>
      rw [hany] at hvalues
      exact ⟨fun _ => rfl, fun _ => hvalues.trans hempty⟩
    | true =>
      rw [hany] at hvalues
      constructor
      · intro hnil
        have hsize : 0 = n₀.vars.size := by rwa [hnil] at hvalues
        exact absurd (Array.size_eq_zero_iff.mp hsize.symm) hsettled.vars_ne
      · intro hfalse
        cases hfalse
  · intro hcovers hcycles
    exact hsettled.exists_run hcovers (by omega)

def twice : Neighbor where
  vars := #[⟨0⟩, ⟨0⟩, ⟨1⟩, ⟨2⟩]
  values := #[]
  min := 0
  max := 3
  source := .ofSeed 42
  policy := ⟨.empty 0 3, .ofSettings .standard, .empty 4⟩

theorem isNew_twice : twice.IsNew := by
  have hcreate : create (.ofBounds 3 0 3) #[⟨0⟩, ⟨0⟩, ⟨1⟩, ⟨2⟩] .standard 42 = .ok (.ok twice) := by
    decide +kernel
  exact .create hcreate

/-- A failed recording, a recording, a contradiction, a relaxation and a failed recording. -/
def upsAndDowns : List Operation :=
  [.load (.ofList [(⟨0⟩, 1), (⟨1⟩, 2)]), .load (.ofList [(⟨0⟩, 1), (⟨1⟩, 2), (⟨2⟩, 3)]),
    .fix ((Model.ofBounds 3 0 3).failOn ⟨0⟩), .restrictLess, .record (.ofBounds 3 0 3)]

theorem run_twice_coherent :
    twice.IsNew ∧ ∃ answers n, twice.run upsAndDowns = .ok (answers, n) ∧ n.Coherent ∧
      n.values = #[1, 1, 2, 3] := by
  refine ⟨isNew_twice, ?_⟩
  obtain ⟨hstates, hgoes⟩ := run_coherent isNew_twice upsAndDowns
  have hcovers : (Model.ofBounds 3 0 3).Covers twice.vars := by
    unfold Model.Covers
    decide
  have hall : ∀ op ∈ upsAndDowns, op.Covers twice.vars := by
    simp only [upsAndDowns, List.forall_mem_cons, Operation.Covers]
    exact ⟨trivial, trivial, hcovers, trivial, hcovers, by simp⟩
  obtain ⟨answers, n, hrun⟩ := hgoes hall (by decide)
  have hvalues : (twice.run upsAndDowns).map (fun result => result.2.values) =
      .ok #[1, 1, 2, 3] := by
    decide +kernel
  rw [hrun] at hvalues
  exact ⟨answers, n, hrun, (hstates answers n hrun).1, Except.ok.inj hvalues⟩

end LargeNeighborhood.Neighbor
