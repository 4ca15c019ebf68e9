import LargeNeighborhood.Proofs.Model.Fixing
import LargeNeighborhood.Proofs.Neighbor.Settled

/-!
# Cycles on a model

A cycle looks at the schedule, samples an order of the groups and freezes their positions in the
model one by one.
-/

namespace LargeNeighborhood

/-- The model has all of the variables. -/
def Model.Covers (m : Model) (vars : Array VarId) : Prop :=
  ∀ var ∈ vars, var.index < m.domains.size

theorem Model.Covers.domain_eq {m : Model} {vars : Array VarId} (h : m.Covers vars) {var : VarId}
    (hvar : var ∈ vars) : ∃ d, m.domains[var.index]? = some d ∧ m.domain var = .ok d := by
  have hget := Array.getElem?_eq_getElem (h var hvar)
  refine ⟨_, hget, ?_⟩
  unfold domain Checked.get
  rw [hget]

theorem Model.Narrows.covers {m m' : Model} {vars : Array VarId} (h : m.Narrows m')
    (hcovers : m.Covers vars) : m'.Covers vars := by
  intro var hvar
  rw [h.1]
  exact hcovers var hvar

namespace Neighbor

variable {n n' : Neighbor} {m : Model}

/-- What happens to a position: it is skipped, refused or fixed. -/
theorem freezePosition_eq_bind (n : Neighbor) (position : Nat) (m : Model) :
    n.freezePosition position m = do
      let var ← Checked.get n.vars position
      let value ← Checked.get n.values position
      let d ← m.domain var
      return if d.contains value then
          if m.failing.contains var then (.error ⟨var, value⟩, m.setDomain var .empty)
          else (.ok true, m.fixTo (var, value))
        else (.ok false, m) := by
  unfold freezePosition
  refine bind_congr fun var => bind_congr fun value => ?_
  cases hdomain : m.domain var with
  | error fault => simp only [Model.contains, hdomain, bind, Except.bind]
  | ok d =>
    have hinstantiate : m.instantiate var value = _ := Model.instantiate_eq hdomain
    simp only [Model.contains, hinstantiate, hdomain, bind, Except.bind, pure, Except.pure]
    cases d.contains value with
    | false => rfl
    | true => cases m.failing.contains var <;> rfl

theorem exists_of_freezePosition {position : Nat} {reply : Except Contradiction Bool × Model}
    (h : n.freezePosition position m = .ok reply) :
    ∃ var value d, n.vars[position]? = some var ∧ n.values[position]? = some value ∧
      m.domain var = .ok d := by
  rw [freezePosition_eq_bind] at h
  obtain ⟨var, hvar, hrest⟩ := Checked.bind_eq_ok_iff.mp h
  obtain ⟨value, hvalue, hrest⟩ := Checked.bind_eq_ok_iff.mp hrest
  obtain ⟨d, hdomain, _⟩ := Checked.bind_eq_ok_iff.mp hrest
  exact ⟨var, value, d, Checked.get_eq_ok_iff.mp hvar, Checked.get_eq_ok_iff.mp hvalue, hdomain⟩

theorem freezePosition_eq {position : Nat} {var : VarId} {value : Int32} {d : Domain}
    (hvar : n.vars[position]? = some var) (hvalue : n.values[position]? = some value)
    (hdomain : m.domain var = .ok d) :
    n.freezePosition position m = .ok (
      if d.contains value then
        if m.failing.contains var then (.error ⟨var, value⟩, m.setDomain var .empty)
        else (.ok true, m.fixTo (var, value))
      else (.ok false, m)) := by
  rw [freezePosition_eq_bind, Checked.get_eq_ok_iff.mpr hvar, Checked.ok_bind,
    Checked.get_eq_ok_iff.mpr hvalue, Checked.ok_bind, hdomain]
  rfl

/-- What is left of a model after a position: the model itself, or the model with a variable
emptied or fixed to a value it could take. -/
theorem model_of_freezePosition {position : Nat} {answer : Except Contradiction Bool} {m' : Model}
    (h : n.freezePosition position m = .ok (answer, m')) :
    m' = m ∨ ∃ var value d, m.domain var = .ok d ∧ d.contains value = true ∧
      (m' = m.setDomain var .empty ∨ m' = m.fixTo (var, value)) := by
  obtain ⟨var, value, d, hvar, hvalue, hdomain⟩ := exists_of_freezePosition h
  rw [freezePosition_eq hvar hvalue hdomain] at h
  split at h
  · rename_i hcontains
    refine .inr ⟨var, value, d, hdomain, hcontains, ?_⟩
    split at h
    · cases h
      exact .inl rfl
    · cases h
      exact .inr rfl
  · cases h
    exact .inl rfl

theorem Settled.exists_of_mem_positions (h : n.Settled) {id position : Nat}
    (hposition : position ∈ n.policy.groups.positions id) :
    ∃ var ∈ n.vars, ∃ value, n.vars[position]? = some var ∧ n.values[position]? = some value := by
  rw [h.policy.indexes.positions_eq, ValueGroups.mem_positionsIn] at hposition
  obtain ⟨value, hvalue, _⟩ := hposition
  rw [Array.getElem?_toList] at hvalue
  obtain ⟨hsize, _⟩ := Array.getElem?_eq_some_iff.mp hvalue
  rcases h.size_eq with hempty | hfull
  · simp [hempty] at hsize
  · rw [hfull] at hsize
    exact ⟨n.vars[position], Array.getElem_mem hsize, value, Array.getElem?_eq_getElem hsize,
      hvalue⟩

theorem Settled.exists_freezePosition (h : n.Settled) {id position : Nat}
    (hposition : position ∈ n.policy.groups.positions id) (hcovers : m.Covers n.vars) :
    ∃ answer m', n.freezePosition position m = .ok (answer, m') ∧ m'.Covers n.vars := by
  obtain ⟨var, hmem, value, hvar, hvalue⟩ := h.exists_of_mem_positions hposition
  obtain ⟨d, _, hdomain⟩ := hcovers.domain_eq hmem
  rw [freezePosition_eq hvar hvalue hdomain]
  have hset : ∀ d', (m.setDomain var d').Covers n.vars := by
    intro d' other hother
    unfold Model.setDomain
    rw [Array.size_setIfInBounds]
    exact hcovers other hother
  split
  · split
    · exact ⟨_, _, rfl, hset .empty⟩
    · exact ⟨_, _, rfl, hset (.singleton value)⟩
  · exact ⟨_, _, rfl, hcovers⟩

def cycleOf (n : Neighbor) (paced : Policy.Paced Random.Stream) (progress : Progress Model) :
    Cycle :=
  let cycle := paced.policy.cycleOf paced.policy.schedule.target paced.source progress
  let ending :=
    match cycle.result with
    | .ok _ => []
    | .error c => [Event.fixFailed c]
  { neighbor := { n with source := cycle.source, policy := paced.policy }
    model := progress.state
    result := cycle.result
    events := paced.events ++ cycle.events ++ ending }

theorem Settled.fix_eq (h : n.Settled) (m : Model) :
    n.fix m = do
      let paced ← n.policy.tick n.source
      let order := (paced.policy.drawOrder paced.policy.schedule.target paced.source).1
      let progress ← freezeGroups n.policy.groups.positions n.freezePosition order m
      return n.cycleOf paced progress := by
  unfold fix
  cases hpaced : n.policy.tick n.source with
  | error fault => rfl
  | ok paced =>
    obtain ⟨hsettled, hgroups⟩ := h.policy.tick hpaced
    simp only [bind, Except.bind, hsettled.selectAndFreeze_eq, hgroups]
    cases freezeGroups n.policy.groups.positions n.freezePosition
        (paced.policy.drawOrder paced.policy.schedule.target paced.source).1 m <;> rfl

theorem Settled.fix_eq_ok_iff (h : n.Settled) {cycle : Cycle} :
    n.fix m = .ok cycle ↔ ∃ paced progress, n.policy.tick n.source = .ok paced ∧
      freezeGroups n.policy.groups.positions n.freezePosition
        (paced.policy.drawOrder paced.policy.schedule.target paced.source).1 m = .ok progress ∧
      cycle = n.cycleOf paced progress := by
  rw [h.fix_eq, Checked.bind_eq_ok_iff]
  constructor
  · rintro ⟨paced, hpaced, hrest⟩
    obtain ⟨progress, hprogress, hcycle⟩ := Checked.bind_eq_ok_iff.mp hrest
    cases hcycle
    exact ⟨paced, progress, hpaced, hprogress, rfl⟩
  · rintro ⟨paced, progress, hpaced, hprogress, rfl⟩
    exact ⟨paced, hpaced, Checked.bind_eq_ok_iff.mpr ⟨progress, hprogress, rfl⟩⟩

/-- Once the cycle is counted, nothing can fault on a model that has the variables. -/
theorem Settled.exists_fix (h : n.Settled) (hcovers : m.Covers n.vars)
    {paced : Policy.Paced Random.Stream} (hpaced : n.policy.tick n.source = .ok paced) :
    ∃ cycle, n.fix m = .ok cycle := by
  obtain ⟨progress, hprogress, _⟩ := exists_freezeGroups
    (fun _ _ _ hposition _ hstate => h.exists_freezePosition hposition hstate) hcovers
  exact ⟨_, h.fix_eq_ok_iff.mpr ⟨paced, progress, hpaced, hprogress, rfl⟩⟩

theorem Settled.model_of_fix (h : n.Settled) {sound : Model → Prop}
    (hsound : ∀ position state answer next,
      n.freezePosition position state = .ok (answer, next) → sound state → sound next)
    {cycle : Cycle} (hrun : n.fix m = .ok cycle) (hm : sound m) : sound cycle.model := by
  obtain ⟨paced, progress, _, hprogress, rfl⟩ := h.fix_eq_ok_iff.mp hrun
  exact freezeMembers_keeps hsound (freezeMembers_flatMap hprogress) hm

theorem Settled.pace (h : n.Settled) {policy : Policy} (source : Random.Stream)
    (hsettled : policy.Settled n.values.toList) (hgroups : policy.groups = n.policy.groups) :
    { n with source := source, policy := policy }.Settled := by
  refine ⟨h.vars_ne, hsettled, ?_, h.size_eq, h.agree⟩
  have hbounds := h.bounds_eq
  rw [Policy.bounds] at hbounds ⊢
  rwa [hgroups]

theorem Settled.fix (h : n.Settled) {cycle : Cycle} (hrun : n.fix m = .ok cycle) :
    cycle.neighbor.Settled ∧ cycle.neighbor.values = n.values ∧ n.SameScope cycle.neighbor ∧
      cycle.neighbor.policy.schedule.calls = n.policy.schedule.calls + 1 := by
  obtain ⟨paced, progress, hpaced, _, rfl⟩ := h.fix_eq_ok_iff.mp hrun
  obtain ⟨hsettled, hgroups⟩ := h.policy.tick hpaced
  obtain ⟨step, hstep, rfl⟩ := Policy.tick_eq_ok_iff.mp hpaced
  exact ⟨h.pace _ hsettled hgroups, rfl, ⟨rfl, rfl, rfl⟩, (Schedule.tick_keeps hstep).2.1⟩

theorem Settled.restrictLess (h : n.Settled) {relaxed : Reported}
    (hrun : n.restrictLess = .ok relaxed) :
    relaxed.neighbor.Settled ∧ relaxed.neighbor.values = n.values ∧
      n.SameScope relaxed.neighbor ∧
      relaxed.neighbor.policy.schedule.calls = n.policy.schedule.calls := by
  obtain ⟨paced, hpaced, hrelaxed⟩ := Checked.bind_eq_ok_iff.mp hrun
  cases hrelaxed
  obtain ⟨hsettled, hgroups⟩ := h.policy.relax hpaced
  obtain ⟨step, hstep, rfl⟩ := Policy.relax_eq_ok_iff.mp hpaced
  exact ⟨h.pace _ hsettled hgroups, rfl, ⟨rfl, rfl, rfl⟩, (Schedule.update_keeps hstep).2.1⟩

end Neighbor

end LargeNeighborhood
