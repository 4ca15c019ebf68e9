import LargeNeighborhood.Proofs.Model.Descent
import LargeNeighborhood.Proofs.Neighbor.Run
import LargeNeighborhood.Proofs.Neighbor.Span
import LargeNeighborhood.Proofs.StoredSolution.Lookup

/-!
# Solutions that can be recorded

A search changes its model by its own operations and by the cycles of a neighborhood built on it.
Whatever it does, the values of the variables stay within the domains they had when the neighborhood
was built, and so within its bounds. A recording then fails only for a variable that has several
values or none.
-/

namespace LargeNeighborhood.Neighbor

inductive Action
  | newVar (lower upper : Int32)
  | assign (vars : List VarId) (values : List Int32)
  | remove (var : VarId) (value : Int32)
  | instantiate (var : VarId) (value : Int32)
  | failOn (var : VarId)
  | clearLog
  | save
  | restore
  /-- A cycle on the model of the search. -/
  | fix
  /-- An operation of the neighborhood that leaves the model of the search alone. -/
  | search (op : Operation)

namespace Action

def act (m : Model) (n : Neighbor) : Action → Checked (Model × Neighbor)
  | .newVar lower upper => return ((m.newVar lower upper).1, n)
  | .assign vars values => return (← m.assign vars values, n)
  | .remove var value => return (← m.remove var value, n)
  | .instantiate var value => return ((← m.instantiate var value).2, n)
  | .failOn var => return (m.failOn var, n)
  | .clearLog => return (m.clearLog, n)
  | .save => return (m.save, n)
  | .restore => return (m.restore.1, n)
  | .fix => do
    let cycle ← n.fix m
    return (cycle.model, cycle.neighbor)
  | .search op => return (m, (← n.perform op).2)

/-- A restore finds more checkpoints than there were at some start, or none at all. -/
def spares (start m : Model) : Action → Bool
  | .restore => m.checkpoints.isEmpty || decide (start.checkpoints.length < m.checkpoints.length)
  | _ => true

end Action

def acts (m : Model) (n : Neighbor) : List Action → Checked (Model × Neighbor)
  | [] => return (m, n)
  | action :: actions => do
    let (m, n) ← action.act m n
    acts m n actions

def sparesStart (start m : Model) (n : Neighbor) : List Action → Bool
  | [] => true
  | action :: actions =>
    action.spares start m &&
      match action.act m n with
      | .ok (m, n) => sparesStart start m n actions
      | .error _ => true

/-- The states of all searches from a model and a neighborhood that keep the checkpoints of the
start. -/
def Reaches (start : Model) (first : Neighbor) (m : Model) (n : Neighbor) : Prop :=
  ∃ actions, acts start first actions = .ok (m, n) ∧ sparesStart start start first actions = true

structure Keeps (start : Model) (first : Neighbor) (m : Model) (n : Neighbor) : Prop where
  descends : start.Descends m
  settled : n.Settled
  scope : first.SameScope n

variable {start m m' : Model} {first n n' : Neighbor} {action : Action} {actions : List Action}

/-! ## One action -/

theorem Keeps.model (h : Keeps start first m n) (hmodel : start.Descends m') :
    Keeps start first m' n :=
  ⟨hmodel, h.settled, h.scope⟩

theorem Keeps.covers (h : Keeps start first m n) (hcovers : start.Covers first.vars) :
    m.Covers n.vars := by
  intro var hvar
  rw [h.scope.1] at hvar
  exact Nat.lt_of_lt_of_le (hcovers var hvar) h.descends.domains.size_le

theorem Settled.descends_fix (h : n.Settled) (hdescends : start.Descends m) {cycle : Cycle}
    (hrun : n.fix m = .ok cycle) : start.Descends cycle.model := by
  have hkept : ∀ position state answer next,
      n.freezePosition position state = .ok (answer, next) →
        start.Descends state → start.Descends next := by
    intro position state answer next hanswer hstate
    rcases model_of_freezePosition hanswer with
      rfl | ⟨var, value, d, hdomain, hcontains, rfl | rfl⟩
    · exact hstate
    · exact hstate.setDomain hdomain (List.nil_subset _)
    · exact hstate.fixTo hdomain hcontains
  exact h.model_of_fix hkept hrun hdescends

theorem Keeps.act (h : Keeps start first m n) (hspares : action.spares start m = true)
    (hrun : action.act m n = .ok (m', n')) : Keeps start first m' n' := by
  cases action with
  | newVar lower upper =>
    cases hrun
    exact h.model (h.descends.newVar lower upper)
  | assign vars values =>
    obtain ⟨assigned, hassigned, hresult⟩ := Checked.bind_eq_ok_iff.mp hrun
    cases hresult
    exact h.model (h.descends.assign hassigned)
  | remove var value =>
    obtain ⟨removed, hremoved, hresult⟩ := Checked.bind_eq_ok_iff.mp hrun
    cases hresult
    exact h.model (h.descends.remove hremoved)
  | instantiate var value =>
    obtain ⟨⟨result, instantiated⟩, hinstantiated, hresult⟩ := Checked.bind_eq_ok_iff.mp hrun
    cases hresult
    exact h.model (h.descends.instantiate hinstantiated)
  | failOn var =>
    cases hrun
    exact h.model (h.descends.failOn var)
  | clearLog =>
    cases hrun
    exact h.model h.descends.clearLog
  | save =>
    cases hrun
    exact h.model h.descends.save
  | restore =>
    cases hrun
    rw [Action.spares, Bool.or_eq_true, List.isEmpty_iff, decide_eq_true_iff] at hspares
    exact h.model (h.descends.restore hspares)
  | fix =>
    obtain ⟨cycle, hcycle, hresult⟩ := Checked.bind_eq_ok_iff.mp hrun
    cases hresult
    obtain ⟨hsettled, _, hscope, _⟩ := h.settled.fix hcycle
    exact ⟨h.settled.descends_fix h.descends hcycle, hsettled, h.scope.trans hscope⟩
  | search op =>
    obtain ⟨⟨answer, next⟩, hnext, hresult⟩ := Checked.bind_eq_ok_iff.mp hrun
    cases hresult
    have hsteps := h.settled.perform hnext
    exact ⟨h.descends, hsteps.settled, h.scope.trans hsteps.scope⟩

/-! ## Whole searches -/

theorem Keeps.acts (h : Keeps start first m n) (hrun : acts m n actions = .ok (m', n'))
    (hspares : sparesStart start m n actions = true) : Keeps start first m' n' := by
  induction actions generalizing m n with
  | nil =>
    cases hrun
    exact h
  | cons action actions ih =>
    obtain ⟨⟨next, nextNeighbor⟩, hnext, hrest⟩ := Checked.bind_eq_ok_iff.mp hrun
    rw [sparesStart, hnext, Bool.and_eq_true] at hspares
    exact ih (h.act hspares.1 hnext) hrest hspares.2

theorem covers_of_create {vars : Array VarId} {settings : Settings} {seed : UInt64}
    (hcreate : create start vars settings seed = .ok (.ok first)) : start.Covers first.vars := by
  obtain ⟨hvars, hspan⟩ := span_of_create hcreate
  intro var hvar
  obtain ⟨d, hdomain, _⟩ := hspan var (hvars ▸ hvar)
  exact (Array.getElem?_eq_some_iff.mp (Model.domain_eq_ok_iff.mp hdomain)).1

theorem Reaches.keeps {vars : Array VarId} {settings : Settings} {seed : UInt64}
    (hcreate : create start vars settings seed = .ok (.ok first))
    (h : Reaches start first m n) : Keeps start first m n := by
  obtain ⟨actions, hrun, hspares⟩ := h
  have hnew : Keeps start first start first :=
    ⟨.refl start, (IsNew.create hcreate).settled.1, .refl first⟩
  exact hnew.acts hrun hspares

/-- A value that a listed variable can take at any time lies in the bounds. -/
theorem Keeps.inBounds {vars : Array VarId} {settings : Settings} {seed : UInt64}
    (hcreate : create start vars settings seed = .ok (.ok first)) (h : Keeps start first m n)
    (hdescends : start.Descends m') {var : VarId} (hvar : var ∈ vars) {value : Int32}
    (hvalue : m'.domain var = .ok (.singleton value)) : n.min ≤ value ∧ value ≤ n.max := by
  obtain ⟨_, hspan⟩ := span_of_create hcreate
  obtain ⟨d, hdomain, hbounds⟩ := hspan var hvar
  have hmem : value ∈ d.values :=
    hdescends.domains.values var.index d _ (Model.domain_eq_ok_iff.mp hdomain)
      (Model.domain_eq_ok_iff.mp hvalue) (List.mem_singleton_self value)
  rw [h.scope.2.1, h.scope.2.2]
  exact hbounds value hmem

/-! ## Recordings -/

theorem answers_modelValue {var : VarId} {d : Domain} (hdomain : m.domain var = .ok d) :
    Answers (modelValue m) (fun var value => m.domain var = .ok (.singleton value))
      .uninstantiated var := by
  cases hvalue : d.value? with
  | some value =>
    have hread : modelValue m var = .ok (.ok value) := by
      rw [modelValue, Model.value_eq hdomain, hvalue]
      rfl
    rw [Domain.value?_eq_some_iff.mp hvalue] at hdomain
    exact .inl ⟨value, hdomain, hread⟩
  | none =>
    have hread : modelValue m var = .ok (.error (.uninstantiated var)) := by
      rw [modelValue, Model.value_eq hdomain, hvalue]
      rfl
    refine .inr ⟨?_, hread⟩
    intro value hsingle
    obtain rfl : d = .singleton value := Except.ok.inj (hdomain.symm.trans hsingle)
    cases hvalue

theorem answers_value? (s : StoredSolution) (var : VarId) :
    Answers (storedValue s) (fun var value => s.value? var = some value) .missingValue var := by
  simp only [Answers, storedValue]
  cases s.value? var with
  | some value => exact .inl ⟨value, rfl, rfl⟩
  | none => exact .inr ⟨nofun, rfl⟩

theorem answers_storedValue {s : StoredSolution} {listed : List VarId} (var : VarId)
    (hrecord : StoredSolution.record m listed = .ok s) :
    Answers (storedValue s)
      (fun var value => var ∈ listed ∧ m.domain var = .ok (.singleton value)) .missingValue
        var := by
  have hanswers := answers_value? s var
  simp only [Answers, StoredSolution.value?_record hrecord] at hanswers
  exact hanswers

/-- Whatever a search has done to its model, a recording of the model takes the values of the listed
variables if each has one, and else names a variable that has not; so does the loading of a solution
captured in the same search. The bounds of the neighborhood are never in the way. -/
theorem recordable {vars : Array VarId} {settings : Settings} {seed : UInt64}
    (hcreate : create start vars settings seed = .ok (.ok first)) (h : Reaches start first m n) :
    (∃ result, n.record m = .ok result ∧
      (∀ var value min max, result ≠ .error (.valueOutOfRange var value min max)) ∧
      Records vars (fun var value => m.domain var = .ok (.singleton value)) .uninstantiated
        result) ∧
    ∀ captured other listed s, Reaches start first captured other →
      StoredSolution.record captured listed = .ok s →
      ∃ result, n.load s = .ok result ∧
        (∀ var value min max, result ≠ .error (.valueOutOfRange var value min max)) ∧
        Records vars (fun var value => var ∈ listed ∧ captured.domain var = .ok (.singleton value))
          .missingValue result := by
  have hkeeps := h.keeps hcreate
  have hvars : n.vars = vars := hkeeps.scope.1.trans (span_of_create hcreate).1
  subst hvars
  constructor
  · have hanswers : ∀ var ∈ n.vars, Answers (modelValue m)
        (fun var value => m.domain var = .ok (.singleton value)) .uninstantiated var := by
      intro var hvar
      obtain ⟨d, _, hdomain⟩ := (hkeeps.covers (covers_of_create hcreate)).domain_eq hvar
      exact answers_modelValue hdomain
    obtain ⟨result, hresult, hrecords⟩ :=
      hkeeps.settled.exists_records hanswers fun var hvar value hvalue =>
        hkeeps.inBounds hcreate hkeeps.descends hvar hvalue
    exact ⟨result, hresult, hrecords.ne_valueOutOfRange nofun, hrecords⟩
  · intro captured other listed s hcaptured hrecord
    obtain ⟨result, hresult, hrecords⟩ :=
      hkeeps.settled.exists_records (fun var _ => answers_storedValue var hrecord)
        fun var hvar value hvalue =>
          hkeeps.inBounds hcreate (hcaptured.keeps hcreate).descends hvar hvalue.2
    exact ⟨result, hresult, hrecords.ne_valueOutOfRange nofun, hrecords⟩

/-- A solution is recorded and taken back, a cycle meets a contradiction, an instantiation fails,
and another solution is found. -/
def roundTrip : List Action :=
  [.save, .assign [⟨0⟩, ⟨1⟩, ⟨2⟩] [1, 2, 3],
    .search (.load (.ofList [(⟨0⟩, 1), (⟨1⟩, 2), (⟨2⟩, 3)])), .restore, .newVar 0 9,
    .remove ⟨1⟩ 0, .failOn ⟨0⟩, .save, .fix, .restore, .save, .instantiate ⟨1⟩ 7, .restore,
    .restore,
    .assign [⟨0⟩, ⟨1⟩, ⟨2⟩] [3, 2, 3]]

theorem recordable_twice :
    create (.ofBounds 3 0 3) #[⟨0⟩, ⟨0⟩, ⟨1⟩, ⟨2⟩] .standard 42 = .ok (.ok twice) ∧
    ∃ m n recorded s loaded, Reaches (.ofBounds 3 0 3) twice m n ∧
      n.record m = .ok (.ok recorded) ∧
      List.Forall₂ (fun var value => m.domain var = .ok (.singleton value))
        [⟨0⟩, ⟨0⟩, ⟨1⟩, ⟨2⟩] recorded.neighbor.values.toList ∧
      StoredSolution.record m [⟨2⟩, ⟨1⟩, ⟨0⟩] = .ok s ∧ n.load s = .ok (.ok loaded) := by
  have hcreate : create (.ofBounds 3 0 3) #[⟨0⟩, ⟨0⟩, ⟨1⟩, ⟨2⟩] .standard 42 = .ok (.ok twice) := by
    decide +kernel
  have hfound : (acts (.ofBounds 3 0 3) twice roundTrip >>= fun state =>
      (StoredSolution.record state.1 [⟨2⟩, ⟨1⟩, ⟨0⟩]).map fun s => (state.1.domains, s.size)) =
      .ok (#[.singleton 3, .singleton 2, .singleton 3, .interval 0 9], 3) := by
    decide +kernel
  obtain ⟨⟨m, n⟩, hrun, hcaptured⟩ := Checked.bind_eq_ok_iff.mp hfound
  obtain ⟨s, hs, hm⟩ := Checked.map_eq_ok_iff.mp hcaptured
  have hreaches : Reaches (.ofBounds 3 0 3) twice m n := ⟨roundTrip, hrun, by decide +kernel⟩
  obtain ⟨⟨result, hresult, _, hrecords⟩, hloads⟩ := recordable hcreate hreaches
  obtain ⟨result', hresult', _, hloaded⟩ := hloads m n _ s hreaches hs
  have hdomain : ∀ (index : Nat) (value : Int32),
      (#[.singleton 3, .singleton 2, .singleton 3, .interval 0 9] : Array Domain)[index]? =
          some (.singleton value) →
        m.domain ⟨index⟩ = .ok (.singleton value) := by
    intro index value hvalue
    rw [Model.domain_eq_ok_iff, ← hvalue, ← (Prod.mk.inj hm).1]
  have hsingle : ∀ var ∈ (#[⟨0⟩, ⟨0⟩, ⟨1⟩, ⟨2⟩] : Array VarId),
      ∃ value, var ∈ [⟨2⟩, ⟨1⟩, ⟨0⟩] ∧ m.domain var = .ok (.singleton value) := by
    simp only [List.mem_toArray, List.forall_mem_cons]
    exact ⟨⟨3, by decide, hdomain 0 3 rfl⟩, ⟨3, by decide, hdomain 0 3 rfl⟩,
      ⟨2, by decide, hdomain 1 2 rfl⟩, ⟨3, by decide, hdomain 2 3 rfl⟩, nofun⟩
  obtain ⟨recorded, rfl⟩ := hrecords.ok_iff.mpr fun var hvar =>
    (hsingle var hvar).imp fun _ => And.right
  obtain ⟨loaded, rfl⟩ := hloaded.ok_iff.mpr hsingle
  exact ⟨hcreate, m, n, recorded, s, loaded, hreaches, hresult, hrecords.values recorded rfl, hs,
    hresult'⟩

end LargeNeighborhood.Neighbor
