import LargeNeighborhood.Proofs.Neighbor.Lockstep

/-!
# Contradictions

The positions a cycle visits are known before it looks at its model. It stops at the first of them
whose variable refuses the recorded value, with the ones before it frozen as in any cycle; a model
in which no variable refuses is never emptied.
-/

namespace LargeNeighborhood.Neighbor

/-- The positions a cycle visits as long as it meets no contradiction. -/
def visited (n : Neighbor) : Checked (List Nat) := do
  let paced ← n.policy.tick n.source
  let cycle ← paced.policy.selectAndFreeze paced.policy.schedule.target paced.source
    (Freeze.calm fun _ _ => (true, ())).noting ([], ())
  return cycle.state.1.map Prod.fst

/-- The variable at a position refuses its recorded value, which it could still take. -/
def refuses (n : Neighbor) (m : Model) (position : Nat) : Bool :=
  n.possible m position && (n.recordedAt position).any fun entry => m.failing.contains entry.1

variable {n n' : Neighbor} {m : Model} {position : Nat} {var : VarId} {value : Int32}

theorem refuses_eq_true_iff :
    n.refuses m position = true ↔ ∃ var value d, n.recordedAt position = some (var, value) ∧
      var ∈ m.failing ∧ m.domains[var.index]? = some d ∧ d.contains value = true := by
  rw [refuses, Bool.and_eq_true, possible_eq_true_iff, Option.any_eq_true]
  constructor
  · rintro ⟨⟨var, value, d, hvar, hvalue, hdomain, hcontains⟩, entry, hentry, hfailing⟩
    rw [recordedAt_eq_some_iff.mpr ⟨hvar, hvalue⟩, Option.some.injEq] at hentry
    subst hentry
    exact ⟨var, value, d, recordedAt_eq_some_iff.mpr ⟨hvar, hvalue⟩,
      List.contains_iff_mem.mp hfailing, hdomain, hcontains⟩
  · rintro ⟨var, value, d, hentry, hfailing, hdomain, hcontains⟩
    obtain ⟨hvar, hvalue⟩ := recordedAt_eq_some_iff.mp hentry
    exact ⟨⟨var, value, d, hvar, hvalue, hdomain, hcontains⟩, _, hentry,
      List.contains_iff_mem.mpr hfailing⟩

/-! ## One position -/

theorem freezePosition_of_recordedAt {d : Domain}
    (hentry : n.recordedAt position = some (var, value))
    (hdomain : m.domains[var.index]? = some d) :
    n.freezePosition position m = .ok (
      if n.possible m position then
        if n.refuses m position then (.error ⟨var, value⟩, m.setDomain var .empty)
        else (.ok true, m.fixTo (var, value))
      else (.ok false, m)) := by
  obtain ⟨hvar, hvalue⟩ := recordedAt_eq_some_iff.mp hentry
  have hpossible : n.possible m position = d.contains value := by
    simp only [possible, hentry, Option.any_some, hdomain]
  have hrefuses : n.refuses m position = (d.contains value && m.failing.contains var) := by
    simp only [refuses, hpossible, hentry, Option.any_some]
  rw [freezePosition_eq hvar hvalue (Checked.get_eq_ok_iff.mpr hdomain), hrefuses, hpossible]
  cases d.contains value <;> rfl

theorem Settled.refuses_fixTo (h : n.Settled) (hentry : n.recordedAt position = some (var, value))
    (hpossible : n.possible m position = true) :
    n.refuses (m.fixTo (var, value)) = n.refuses m := by
  funext other
  rw [refuses, refuses, h.possible_fixTo hentry hpossible]
  rfl

/-! ## Up to the first refusal -/

def Grounded (n : Neighbor) (m : Model) (positions : List Nat) : Prop :=
  ∀ position ∈ positions, ∃ var value d, n.recordedAt position = some (var, value) ∧
    m.domains[var.index]? = some d

theorem Grounded.fixTo {positions : List Nat} (h : n.Grounded m positions)
    (entry : VarId × Int32) : n.Grounded (m.fixTo entry) positions := by
  intro position hposition
  obtain ⟨var, value, d, hentry, hdomain⟩ := h position hposition
  have hbound : var.index < (m.fixTo entry).domains.size := by
    rw [Model.fixTo, Model.setDomain, Array.size_setIfInBounds]
    exact (Array.getElem?_eq_some_iff.mp hdomain).1
  exact ⟨var, value, _, hentry, Array.getElem?_eq_getElem hbound⟩

/-- Positions that are not refused are frozen one after the other, which leaves every answer about
a position as it was. -/
theorem Settled.exists_freezeMembers_of_not_refuses (h : n.Settled) {positions : List Nat}
    (hgrounded : n.Grounded m positions)
    (hcalm : ∀ position ∈ positions, n.refuses m position = false) :
    ∃ frozen last, freezeMembers n.freezePosition positions m = .ok (.ok frozen, last) ∧
      n.refuses last = n.refuses m ∧ n.possible last = n.possible m := by
  induction positions generalizing m with
  | nil => exact ⟨[], m, rfl, rfl, rfl⟩
  | cons position rest ih =>
    obtain ⟨var, value, d, hentry, hdomain⟩ := hgrounded position List.mem_cons_self
    have hlater : n.Grounded m rest :=
      fun later hmem => hgrounded later (List.mem_cons_of_mem _ hmem)
    rw [List.forall_mem_cons] at hcalm
    have hanswer := freezePosition_of_recordedAt hentry hdomain
    rw [hcalm.1] at hanswer
    cases hpossible : n.possible m position with
    | false =>
      rw [hpossible] at hanswer
      obtain ⟨frozen, last, hrun, hrefuses, hkept⟩ := ih hlater hcalm.2
      have hcons : freezeMembers n.freezePosition (position :: rest) m = _ :=
        freezeMembers_cons_ok hanswer
      rw [hrun] at hcons
      exact ⟨_, last, hcons, hrefuses, hkept⟩
    | true =>
      rw [hpossible] at hanswer
      have hsame := h.refuses_fixTo hentry hpossible
      obtain ⟨frozen, last, hrun, hrefuses, hkept⟩ :=
        ih (hlater.fixTo (var, value)) (by rw [hsame]; exact hcalm.2)
      have hcons : freezeMembers n.freezePosition (position :: rest) m = _ :=
        freezeMembers_cons_ok hanswer
      rw [hrun] at hcons
      exact ⟨_, last, hcons, hrefuses.trans hsame,
        hkept.trans (h.possible_fixTo hentry hpossible)⟩

theorem Settled.freezeMembers_of_refuses (h : n.Settled) {before after : List Nat}
    (hgrounded : n.Grounded m (before ++ position :: after))
    (hcalm : ∀ earlier ∈ before, n.refuses m earlier = false)
    (hentry : n.recordedAt position = some (var, value))
    (hrefuses : n.refuses m position = true) :
    ∃ frozen last, freezeMembers n.freezePosition before m = .ok (.ok frozen, last) ∧
      freezeMembers n.freezePosition (before ++ position :: after) m =
        .ok (.error ⟨var, value⟩, last.setDomain var .empty) := by
  have hbefore : n.Grounded m before := fun earlier hmem =>
    hgrounded earlier (List.mem_append_left _ hmem)
  obtain ⟨frozen, last, hrun, hsame, hkept⟩ := h.exists_freezeMembers_of_not_refuses hbefore hcalm
  have hpossible : n.possible m position = true := (Bool.and_eq_true_iff.mp hrefuses).1
  rw [← hsame] at hrefuses
  rw [← hkept] at hpossible
  obtain ⟨var', value', d, hentry', _, hdomain, _⟩ := refuses_eq_true_iff.mp hrefuses
  obtain ⟨rfl, rfl⟩ := Prod.mk.inj (Option.some.inj (hentry.symm.trans hentry'))
  have hanswer := freezePosition_of_recordedAt hentry hdomain
  rw [hpossible, hrefuses] at hanswer
  refine ⟨frozen, last, hrun, ?_⟩
  rw [freezeMembers_append_ok hrun, freezeMembers_cons_error hanswer]
  rfl

/-! ## One cycle -/

theorem Settled.fix_eq_visited (h : n.Settled) (hcovers : m.Covers n.vars) {cycle : Cycle}
    (hrun : n.fix m = .ok cycle) :
    ∃ positions frozen drawn, n.visited = .ok positions ∧ n.Grounded m positions ∧
      freezeMembers n.freezePosition positions m = .ok (frozen, cycle.model) ∧
      cycle.result = frozen.map fun frozen => ⟨drawn, frozen⟩ := by
  obtain ⟨paced, progress, hpaced, hprogress, rfl⟩ := h.fix_eq_ok_iff.mp hrun
  obtain ⟨hsettled, hgroups⟩ := h.policy.tick hpaced
  obtain ⟨calls, _, _, hcycle, _, hcalls, _⟩ := hsettled.exists_calm_cycle
    paced.policy.schedule.target paced.source (fun _ _ => (true, ())) ()
  rw [hgroups] at hcalls
  refine ⟨calls.map Prod.fst, progress.frozen, _, ?_, ?_, ?_, rfl⟩
  · exact Checked.bind_eq_ok_iff.mpr ⟨paced, hpaced, Checked.bind_eq_ok_iff.mpr ⟨_, hcycle, rfl⟩⟩
  · intro position hposition
    rw [hcalls] at hposition
    obtain ⟨id, _, hmember⟩ := List.mem_flatMap.mp hposition
    obtain ⟨var, hmem, value, hvar, hvalue⟩ := h.exists_of_mem_positions hmember
    obtain ⟨d, hdomain, _⟩ := hcovers.domain_eq hmem
    exact ⟨var, value, d, recordedAt_eq_some_iff.mpr ⟨hvar, hvalue⟩, hdomain⟩
  · rw [hcalls]
    exact freezeMembers_flatMap hprogress

/-- A cycle that stops at a position, after the ones before it. -/
structure StopsAt (n : Neighbor) (m : Model) (before : List Nat) (position : Nat) (cycle : Cycle) :
    Prop where
  /-- The positions before it were frozen as far as they were possible. The error names the variable
  at the position and its recorded value, and the domain of that variable is emptied. -/
  refused : ∃ var value last, n.vars[position]? = some var ∧ n.values[position]? = some value ∧
    freezeMembers n.freezePosition before m = .ok (.ok (before.filter (n.possible m)), last) ∧
    cycle.result = .error ⟨var, value⟩ ∧ cycle.model = last.setDomain var .empty
  emptied : ∀ var : VarId, n.vars[position]? = some var →
    cycle.model.domains[var.index]? = some .empty
  fixed : ∀ earlier ∈ before.filter (n.possible m), ∀ var value, n.vars[earlier]? = some var →
    n.values[earlier]? = some value → cycle.model.domains[var.index]? = some (.singleton value)
  /-- Nothing else has changed. -/
  other : ∀ var : VarId, n.vars[position]? ≠ some var →
    (∀ earlier ∈ before.filter (n.possible m), n.vars[earlier]? ≠ some var) →
      cycle.model.domains[var.index]? = m.domains[var.index]?
  size : cycle.model.domains.size = m.domains.size
  checkpoints : cycle.model.checkpoints = m.checkpoints
  failing : cycle.model.failing = m.failing
  log : ∃ entries : List (VarId × Int32), cycle.model.log = m.log ++ entries.toArray ∧
    entries.map (fun entry => (some entry.1, some entry.2)) =
      (before.filter (n.possible m)).map fun position => (n.vars[position]?, n.values[position]?)

theorem ne_of_not_refuses {before : List Nat} {earlier : Nat} {other : VarId}
    (hcalm : ∀ earlier ∈ before, n.refuses m earlier = false) (hfailing : var ∈ m.failing)
    (hearlier : earlier ∈ before.filter (n.possible m))
    (hentry : n.recordedAt earlier = some (other, value)) : var ≠ other := by
  rintro rfl
  obtain ⟨hin, hpossible⟩ := List.mem_filter.mp hearlier
  have hrefused : n.refuses m earlier = true := by
    rw [refuses, hpossible, hentry]
    exact List.contains_iff_mem.mpr hfailing
  rw [hcalm earlier hin] at hrefused
  cases hrefused

theorem Settled.stopsAt (h : n.Settled) {before after : List Nat} {cycle : Cycle}
    {frozen : Except Contradiction (List Nat)} {drawn : List Int32}
    (hgrounded : n.Grounded m (before ++ position :: after))
    (hmembers : freezeMembers n.freezePosition (before ++ position :: after) m =
      .ok (frozen, cycle.model))
    (hresult : cycle.result = frozen.map fun frozen => ⟨drawn, frozen⟩)
    (hcalm : ∀ earlier ∈ before, n.refuses m earlier = false)
    (hrefuses : n.refuses m position = true) : n.StopsAt m before position cycle := by
  obtain ⟨var, value, d, hentry, hfailing, hdomain, _⟩ := refuses_eq_true_iff.mp hrefuses
  obtain ⟨hvar, hvalue⟩ := recordedAt_eq_some_iff.mp hentry
  obtain ⟨kept, last, hbefore, hstop⟩ :=
    h.freezeMembers_of_refuses hgrounded hcalm hentry hrefuses
  obtain ⟨rfl, entries, hentries, rfl⟩ := h.freezeMembers_eq_ok hbefore
  obtain ⟨rfl, hmodel⟩ := Prod.mk.inj (Except.ok.inj (hmembers.symm.trans hstop))
  obtain ⟨hsize, hcheckpoints, hfailures, hlog⟩ := m.fixAll_keeps entries
  have hbound := (Array.getElem?_eq_some_iff.mp hdomain).1
  -- the refusal touches the domain of its own variable alone
  have hapart : ∀ other : VarId, var ≠ other →
      cycle.model.domains[other.index]? = (m.fixAll entries).domains[other.index]? := by
    intro other hne
    rw [hmodel]
    exact Array.getElem?_setIfInBounds_ne fun hindex => hne (VarId.ext hindex)
  constructor
  case refused => exact ⟨var, value, _, hvar, hvalue, hbefore, hresult, hmodel⟩
  case emptied =>
    intro var' hvar'
    obtain rfl := Option.some.inj (hvar.symm.trans hvar')
    rw [hmodel]
    exact Array.getElem?_setIfInBounds_self_of_lt (by rwa [hsize])
  case fixed =>
    intro earlier hearlier var' value' hvar' hvalue'
    have hentry' := recordedAt_eq_some_iff.mpr ⟨hvar', hvalue'⟩
    obtain ⟨_, _, _, hvars, _, hdomain', _⟩ :=
      possible_eq_true_iff.mp (List.mem_filter.mp hearlier).2
    obtain rfl := Option.some.inj (hvar'.symm.trans hvars)
    rw [hapart _ (ne_of_not_refuses hcalm hfailing hearlier hentry')]
    exact h.getElem?_fixAll_of_mem_frozen hentries hearlier hentry'
      (Array.getElem?_eq_some_iff.mp hdomain').1
  case other =>
    intro other hposition hothers
    rw [hapart other fun hsame => hposition (hsame ▸ hvar)]
    exact getElem?_fixAll_of_not_frozen hentries hothers
  case size =>
    rw [hmodel]
    exact Array.size_setIfInBounds.trans hsize
  case checkpoints =>
    rw [hmodel]
    exact hcheckpoints
  case failing =>
    rw [hmodel]
    exact hfailures
  case log =>
    refine ⟨entries, ?_, entries_eq_map hentries⟩
    rw [hmodel]
    exact hlog

theorem Settled.exists_outcome (h : n.Settled) (hcovers : m.Covers n.vars) {cycle : Cycle}
    (hrun : n.fix m = .ok cycle) {positions : List Nat} (hvisited : n.visited = .ok positions)
    (hcalm : ∀ position ∈ positions, n.refuses m position = false) :
    ∃ outcome, cycle.result = .ok outcome := by
  obtain ⟨positions', frozen, drawn, hvisited', hgrounded, hmembers, hresult⟩ :=
    h.fix_eq_visited hcovers hrun
  obtain rfl : positions = positions' := Except.ok.inj (hvisited.symm.trans hvisited')
  obtain ⟨kept, last, hcycle, _⟩ := h.exists_freezeMembers_of_not_refuses hgrounded hcalm
  obtain ⟨rfl, _⟩ := Prod.mk.inj (Except.ok.inj (hmembers.symm.trans hcycle))
  exact ⟨_, hresult⟩

/-- The first refused position is where a cycle stops. -/
theorem Settled.stopsAt_of_visited (h : n.Settled) (hcovers : m.Covers n.vars) {cycle : Cycle}
    (hrun : n.fix m = .ok cycle) {before after : List Nat}
    (hvisited : n.visited = .ok (before ++ position :: after))
    (hcalm : ∀ earlier ∈ before, n.refuses m earlier = false)
    (hrefuses : n.refuses m position = true) : n.StopsAt m before position cycle := by
  obtain ⟨positions, frozen, drawn, hvisited', hgrounded, hmembers, hresult⟩ :=
    h.fix_eq_visited hcovers hrun
  obtain rfl : _ = positions := Except.ok.inj (hvisited.symm.trans hvisited')
  exact h.stopsAt hgrounded hmembers hresult hcalm hrefuses

theorem Settled.isError_iff (h : n.Settled) (hcovers : m.Covers n.vars) {cycle : Cycle}
    (hrun : n.fix m = .ok cycle) {positions : List Nat} (hvisited : n.visited = .ok positions) :
    (∃ c, cycle.result = .error c) ↔ ∃ position ∈ positions, n.refuses m position = true := by
  constructor
  · rintro ⟨c, hc⟩
    by_contra hnone
    have hcalm : ∀ position ∈ positions, n.refuses m position = false := by
      intro position hmem
      apply Bool.eq_false_iff.mpr
      intro hrefuses
      exact hnone ⟨position, hmem, hrefuses⟩
    obtain ⟨outcome, houtcome⟩ := h.exists_outcome hcovers hrun hvisited hcalm
    rw [hc] at houtcome
    cases houtcome
  · intro hsome
    obtain ⟨position, hfirst⟩ := Option.isSome_iff_exists.mp (List.find?_isSome.mpr hsome)
    obtain ⟨hrefuses, before, after, rfl, hcalm⟩ := List.find?_eq_some_iff_append.mp hfirst
    obtain ⟨_, _, _, _, _, _, hresult, _⟩ := (h.stopsAt_of_visited hcovers hrun hvisited
      (fun earlier hmem => by simpa using hcalm earlier hmem) hrefuses).refused
    exact ⟨_, hresult⟩

/-! ## Searches on one model -/

inductive Step
  | init
  | record
  | load (s : StoredSolution)
  | fix
  | restrictLess

def Step.isCycle : Step → Bool
  | .fix => true
  | _ => false

def Step.on (m : Model) : Step → Operation
  | .init => .init m
  | .record => .record m
  | .load s => .load s
  | .fix => .fix m
  | .restrictLess => .restrictLess

def Answer.model (m : Model) : Answer → Model
  | .fixed _ last => last
  | .done | .recorded _ => m

/-- A run whose operations all work on one model, as the cycles leave it. -/
def search (n : Neighbor) (m : Model) : List Step → Checked (List Answer × Neighbor × Model)
  | [] => return ([], n, m)
  | step :: steps => do
    let (answer, n) ← n.perform (step.on m)
    let (answers, n, m) ← n.search (answer.model m) steps
    return (answer :: answers, n, m)

variable {step : Step} {steps : List Step} {answer : Answer} {answers : List Answer} {last : Model}

theorem search_cons_eq_ok_iff :
    n.search m (step :: steps) = .ok (answers, n', last) ↔ ∃ answer rest next,
      n.perform (step.on m) = .ok (answer, next) ∧
        next.search (answer.model m) steps = .ok (rest, n', last) ∧ answers = answer :: rest := by
  rw [search, Checked.bind_eq_ok_iff]
  constructor
  · rintro ⟨⟨answer, next⟩, hop, hrest⟩
    obtain ⟨⟨rest, final⟩, hrun, hresult⟩ := Checked.bind_eq_ok_iff.mp hrest
    cases hresult
    exact ⟨answer, rest, next, hop, hrun, rfl⟩
  · rintro ⟨answer, rest, next, hop, hrun, rfl⟩
    exact ⟨_, hop, Checked.bind_eq_ok_iff.mpr ⟨_, hrun, rfl⟩⟩

theorem Settled.fix_of_failing_eq_nil (h : n.Settled) (hcovers : m.Covers n.vars)
    (hfailing : m.failing = []) {cycle : Cycle} (hrun : n.fix m = .ok cycle) :
    (∃ outcome, cycle.result = .ok outcome) ∧ m.Narrows cycle.model ∧ cycle.model.failing = [] := by
  obtain ⟨positions, _, _, hvisited, _⟩ := h.fix_eq_visited hcovers hrun
  have hcalm : ∀ position ∈ positions, n.refuses m position = false := by
    intro position _
    rw [refuses, hfailing, Bool.and_eq_false_iff]
    exact .inr (by simp)
  obtain ⟨outcome, hresult⟩ := h.exists_outcome hcovers hrun hvisited hcalm
  obtain ⟨_, entries, _, _, _, hfrozen, hentries, hmodel⟩ := h.fix_eq_ok hrun hresult
  refine ⟨⟨outcome, hresult⟩, ?_, ?_⟩
  · rw [hmodel]
    apply Model.narrows_fixAll
    · rintro ⟨var, value⟩ hmem
      obtain ⟨position, hposition, hentry⟩ := (mem_entries_iff hentries).mp hmem
      rw [hfrozen, List.mem_filter, possible_eq_true_iff] at hposition
      obtain ⟨_, var', value', d, hvar, hvalue, hdomain, hcontains⟩ := hposition
      rw [recordedAt_eq_some_iff.mpr ⟨hvar, hvalue⟩] at hentry
      cases hentry
      exact ⟨d, hdomain, hcontains⟩
    · rintro ⟨var, value⟩ hmem
      exact h.entries_agree hentries hmem
  · rw [hmodel, (m.fixAll_keeps entries).2.2.1, hfailing]

theorem Step.eq_of_on_eq_fix {m' : Model} (h : step.on m = .fix m') : m = m' := by
  cases step with
  | fix =>
    cases h
    rfl
  | init => cases h
  | record => cases h
  | load s => cases h
  | restrictLess => cases h

theorem Settled.perform_of_failing_eq_nil (h : n.Settled) (hcovers : m.Covers n.vars)
    (hfailing : m.failing = []) (hrun : n.perform (step.on m) = .ok (answer, n')) :
    answer.isContradiction = false ∧ m.Narrows (answer.model m) ∧
      (answer.model m).failing = [] := by
  generalize hop : step.on m = op at hrun
  cases perform_eq_ok_iff.mp hrun with
  | init _ => exact ⟨rfl, .refl m, hfailing⟩
  | refused _ _ => exact ⟨rfl, .refl m, hfailing⟩
  | recorded _ _ => exact ⟨rfl, .refl m, hfailing⟩
  | fix hcycle =>
    obtain rfl := Step.eq_of_on_eq_fix hop
    obtain ⟨⟨outcome, hresult⟩, hmodel⟩ := h.fix_of_failing_eq_nil hcovers hfailing hcycle
    rw [hresult]
    exact ⟨rfl, hmodel⟩
  | restrictLess _ => exact ⟨rfl, .refl m, hfailing⟩

theorem Settled.search (h : n.Settled) (hcovers : m.Covers n.vars) (hfailing : m.failing = [])
    (hrun : n.search m steps = .ok (answers, n', last)) :
    (∀ answer ∈ answers, answer.isContradiction = false) ∧ m.Narrows last := by
  induction steps generalizing n m answers with
  | nil =>
    cases hrun
    exact ⟨by simp, .refl _⟩
  | cons step steps ih =>
    obtain ⟨answer, rest, next, hop, hrest, rfl⟩ := search_cons_eq_ok_iff.mp hrun
    obtain ⟨hcalm, hnarrows, hkept⟩ := h.perform_of_failing_eq_nil hcovers hfailing hop
    obtain ⟨hsettled, hscope, _, _⟩ := h.perform hop
    have hlater : (answer.model m).Covers next.vars := by
      rw [hscope.1]
      exact hnarrows.covers hcovers
    obtain ⟨hanswers, hlast⟩ := ih hsettled hlater hkept hrest
    exact ⟨List.forall_mem_cons.mpr ⟨hcalm, hanswers⟩, hnarrows.trans hlast⟩

theorem Step.covers_on (h : m.Covers n.vars) : (step.on m).Covers n.vars := by
  cases step with
  | record => exact h
  | fix => exact h
  | init => trivial
  | load s => trivial
  | restrictLess => trivial

theorem Step.isCycle_on : (step.on m).isCycle = step.isCycle := by
  cases step <;> rfl

theorem Settled.exists_search (h : n.Settled) (hcovers : m.Covers n.vars)
    (hfailing : m.failing = [])
    (hcalls : n.policy.schedule.calls + steps.countP Step.isCycle + UInt32.size ≤ UInt64.size) :
    ∃ answers n' last, n.search m steps = .ok (answers, n', last) := by
  induction steps generalizing n m with
  | nil => exact ⟨_, _, _, rfl⟩
  | cons step steps ih =>
    rw [List.countP_cons] at hcalls
    have hcovered : (step.on m).Covers n.vars := Step.covers_on hcovers
    obtain ⟨answer, next, hop⟩ := h.exists_perform hcovered (by omega)
    obtain ⟨_, hnarrows, hkept⟩ := h.perform_of_failing_eq_nil hcovers hfailing hop
    obtain ⟨hsettled, hscope, _, hcounted⟩ := h.perform hop
    rw [Step.isCycle_on] at hcounted
    have hlater : (answer.model m).Covers next.vars := by
      rw [hscope.1]
      exact hnarrows.covers hcovers
    obtain ⟨rest, n', last, hrest⟩ := ih hsettled hlater hkept (by omega)
    exact ⟨_, n', last, search_cons_eq_ok_iff.mpr ⟨answer, rest, next, hop, hrest, rfl⟩⟩

/-- A cycle fails exactly if one of the positions it would visit is refused. It stops at the first
of them, with nothing changed but the variables of the positions before it and the domain that is
emptied. A search on a model in which no variable refuses meets no contradiction and empties no
domain. -/
theorem fix_error_iff_refuses (reachable : n.Reachable) (hcovers : m.Covers n.vars) :
    (n.policy.schedule.calls + UInt32.size ≤ UInt64.size → ∃ cycle, n.fix m = .ok cycle) ∧
    (∀ cycle, n.fix m = .ok cycle →
      (∃ positions, n.visited = .ok positions ∧
        ((∃ c, cycle.result = .error c) ↔ ∃ position ∈ positions, n.refuses m position = true) ∧
        ∀ before position after, positions = before ++ position :: after →
          (∀ earlier ∈ before, n.refuses m earlier = false) → n.refuses m position = true →
            n.StopsAt m before position cycle) ∧
      n.SameScope cycle.neighbor ∧ cycle.neighbor.values = n.values ∧
      cycle.neighbor.policy.groups = n.policy.groups ∧
      cycle.neighbor.policy.fragment = n.policy.fragment ∧
      cycle.neighbor.policy.schedule.calls = n.policy.schedule.calls + 1) ∧
    ∀ steps, m.failing = [] →
      (∀ answers n' last, n.search m steps = .ok (answers, n', last) →
        (∀ answer ∈ answers, answer.isContradiction = false) ∧ m.Narrows last ∧
          ∀ index : Nat, last.domains[index]? = some .empty → m.domains[index]? = some .empty) ∧
      (n.policy.schedule.calls + steps.countP Step.isCycle + UInt32.size ≤ UInt64.size →
        ∃ answers n' last, n.search m steps = .ok (answers, n', last)) := by
  have h := reachable.settled
  refine ⟨?_, ?_, ?_⟩
  · intro hcalls
    obtain ⟨step, hstep⟩ := Schedule.exists_tick hcalls n.source
    exact h.exists_fix hcovers (Policy.tick_eq_ok_iff.mpr ⟨step, hstep, rfl⟩)
  · intro cycle hrun
    obtain ⟨positions, _, _, hvisited, _⟩ := h.fix_eq_visited hcovers hrun
    obtain ⟨_, hvalues, hscope, hcalls⟩ := h.fix hrun
    obtain ⟨paced, progress, hpaced, _, rfl⟩ := h.fix_eq_ok_iff.mp hrun
    obtain ⟨step, _, rfl⟩ := Policy.tick_eq_ok_iff.mp hpaced
    refine ⟨⟨positions, hvisited, h.isError_iff hcovers hrun hvisited, ?_⟩, hscope, hvalues, rfl,
      rfl, hcalls⟩
    rintro before position after rfl hcalm hrefuses
    exact h.stopsAt_of_visited hcovers hrun hvisited hcalm hrefuses
  · intro steps hfailing
    refine ⟨?_, h.exists_search hcovers hfailing⟩
    intro answers n' last hrun
    obtain ⟨hcalm, hnarrows⟩ := h.search hcovers hfailing hrun
    exact ⟨hcalm, hnarrows, fun _ => hnarrows.eq_empty⟩

def lastRefusing : Model :=
  (Model.ofBounds 3 0 3).failOn ⟨2⟩

def cyclesOnOneModel : List Step :=
  [.fix, .load (.ofList [(⟨0⟩, 2), (⟨1⟩, 0), (⟨2⟩, 2)]), .restrictLess, .fix]

/-- The first cycle draws the values 1 and 3; the position of 3 is refused after those of 1. Without
refusals the search goes on. -/
theorem fix_lastRefusing :
    twiceRecorded.Reachable ∧ lastRefusing.Covers twiceRecorded.vars ∧
    twiceRecorded.visited = .ok [0, 1, 3] ∧
    (∃ cycle, twiceRecorded.fix lastRefusing = .ok cycle ∧ cycle.result = .error ⟨⟨2⟩, 3⟩ ∧
      twiceRecorded.StopsAt lastRefusing [0, 1] 3 cycle ∧
      cycle.model.log = #[(⟨0⟩, 1), (⟨0⟩, 1)]) ∧
    ∃ answers n last, twiceRecorded.search (.ofBounds 3 0 3) cyclesOnOneModel =
        .ok (answers, n, last) ∧
      (∀ answer ∈ answers, answer.isContradiction = false) ∧
      (Model.ofBounds 3 0 3).Narrows last := by
  have hcovers : lastRefusing.Covers twiceRecorded.vars := by
    unfold Model.Covers
    decide
  obtain ⟨hexists, hcycles, _⟩ := fix_error_iff_refuses reachable_twiceRecorded hcovers
  obtain ⟨_, _, hsearch⟩ := fix_error_iff_refuses (m := .ofBounds 3 0 3) reachable_twiceRecorded
    (by unfold Model.Covers; decide)
  obtain ⟨cycle, hrun⟩ := hexists (by decide)
  obtain ⟨⟨positions, hvisited, _, hstops⟩, _⟩ := hcycles cycle hrun
  obtain ⟨hcalm, hgoes⟩ := hsearch cyclesOnOneModel rfl
  obtain ⟨answers, n, last, hsearched⟩ := hgoes (by decide)
  obtain ⟨hanswers, hnarrows, _⟩ := hcalm answers n last hsearched
  have hpositions : twiceRecorded.visited = .ok [0, 1, 3] := by
    decide +kernel
  obtain rfl : positions = [0, 1, 3] := Except.ok.inj (hvisited.symm.trans hpositions)
  have hreplay : (twiceRecorded.fix lastRefusing).map
      (fun cycle => (cycle.result, cycle.model.log)) =
        .ok (.error ⟨⟨2⟩, 3⟩, #[(⟨0⟩, 1), (⟨0⟩, 1)]) := by
    decide +kernel
  rw [hrun] at hreplay
  obtain ⟨hresult, hlog⟩ := Prod.mk.inj (Except.ok.inj hreplay)
  exact ⟨reachable_twiceRecorded, hcovers, hpositions,
    ⟨cycle, hrun, hresult, hstops [0, 1] 3 [] rfl (by decide) (by decide), hlog⟩,
    answers, n, last, hsearched, hanswers, hnarrows⟩

end LargeNeighborhood.Neighbor
