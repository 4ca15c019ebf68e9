import LargeNeighborhood.Proofs.Neighbor.Run
import LargeNeighborhood.Proofs.Policy.Cycle

/-!
# What a cycle freezes

A cycle looks at the model it is changing, but freezing one position does not change which other
positions can take their recorded values. So a cycle without a contradiction fixes exactly the
positions of the drawn groups that were possible before it.
-/

namespace LargeNeighborhood.Neighbor

def recordedAt (n : Neighbor) (position : Nat) : Option (VarId × Int32) :=
  match n.vars[position]?, n.values[position]? with
  | some var, some value => some (var, value)
  | _, _ => none

/-- The variable at a position can still take its recorded value. -/
def possible (n : Neighbor) (m : Model) (position : Nat) : Bool :=
  (n.recordedAt position).any fun (var, value) =>
    (m.domains[var.index]?).any fun d => d.contains value

variable {n : Neighbor} {m m' : Model} {position : Nat} {var : VarId} {value : Int32}

theorem recordedAt_eq_some_iff :
    n.recordedAt position = some (var, value) ↔
      n.vars[position]? = some var ∧ n.values[position]? = some value := by
  unfold recordedAt
  cases n.vars[position]? <;> cases n.values[position]? <;> simp

theorem possible_eq_true_iff :
    n.possible m position = true ↔ ∃ var value d, n.vars[position]? = some var ∧
      n.values[position]? = some value ∧ m.domains[var.index]? = some d ∧
        d.contains value = true := by
  unfold possible
  rw [Option.any_eq_true]
  constructor
  · rintro ⟨⟨var, value⟩, hentry, hcontains⟩
    obtain ⟨d, hdomain, hvalue⟩ := (Option.any_eq_true _ _).mp hcontains
    obtain ⟨hvar, hvalues⟩ := recordedAt_eq_some_iff.mp hentry
    exact ⟨var, value, d, hvar, hvalues, hdomain, hvalue⟩
  · rintro ⟨var, value, d, hvar, hvalues, hdomain, hvalue⟩
    refine ⟨(var, value), recordedAt_eq_some_iff.mpr ⟨hvar, hvalues⟩, ?_⟩
    exact (Option.any_eq_true _ _).mpr ⟨d, hdomain, hvalue⟩

theorem Settled.entry_agree (h : n.Settled) {i j : Nat} {value' : Int32}
    (hi : n.recordedAt i = some (var, value)) (hj : n.recordedAt j = some (var, value')) :
    value = value' := by
  obtain ⟨hvar, hvalue⟩ := recordedAt_eq_some_iff.mp hi
  obtain ⟨hvar', hvalue'⟩ := recordedAt_eq_some_iff.mp hj
  have hvalues := h.agree i j (hvar.trans hvar'.symm)
  rw [hvalue, hvalue', Option.some.injEq] at hvalues
  exact hvalues

/-- Freezing a position that is possible changes no answer about any position. -/
theorem Settled.possible_fixTo (h : n.Settled) (hentry : n.recordedAt position = some (var, value))
    (hpossible : n.possible m position = true) :
    n.possible (m.fixTo (var, value)) = n.possible m := by
  obtain ⟨hvar, hvalue⟩ := recordedAt_eq_some_iff.mp hentry
  obtain ⟨var', value', d, hvar', hvalue', hdomain, hcontains⟩ := possible_eq_true_iff.mp hpossible
  obtain rfl : var = var' := Option.some.inj (hvar.symm.trans hvar')
  obtain rfl : value = value' := Option.some.inj (hvalue.symm.trans hvalue')
  have hbound := (Array.getElem?_eq_some_iff.mp hdomain).1
  funext other
  unfold possible
  cases hother : n.recordedAt other with
  | none => rfl
  | some entry =>
    obtain ⟨otherVar, otherValue⟩ := entry
    simp only [Option.any_some, Model.fixTo, Model.setDomain]
    by_cases hsame : var.index = otherVar.index
    · obtain rfl : var = otherVar := VarId.ext hsame
      obtain rfl := h.entry_agree hentry hother
      rw [Array.getElem?_setIfInBounds_self_of_lt hbound, hdomain, Option.any_some, Option.any_some,
        hcontains]
      simp [Domain.contains, Domain.singleton]
    · rw [Array.getElem?_setIfInBounds_ne hsame]

theorem freezePosition_eq_ok {kept : Bool}
    (h : n.freezePosition position m = .ok (.ok kept, m')) :
    kept = n.possible m position ∧
      if kept then ∃ entry, n.recordedAt position = some entry ∧ m' = m.fixTo entry
      else m' = m := by
  obtain ⟨var, value, d, hvar, hvalue, hdomain⟩ := exists_of_freezePosition h
  have hentry := recordedAt_eq_some_iff.mpr ⟨hvar, hvalue⟩
  have hdomains : m.domains[var.index]? = some d := Checked.get_eq_ok_iff.mp hdomain
  have hpossible : n.possible m position = d.contains value := by
    simp only [possible, hentry, Option.any_some, hdomains]
  rw [freezePosition_eq hvar hvalue hdomain] at h
  rw [hpossible]
  cases hcontains : d.contains value <;> rw [hcontains] at h
  · cases h
    exact ⟨rfl, rfl⟩
  · cases hfailing : m.failing.contains var <;> rw [hfailing] at h <;> cases h
    exact ⟨rfl, _, hentry, rfl⟩

theorem Settled.freezeMembers_eq_ok (h : n.Settled) {positions frozen : List Nat}
    (hrun : freezeMembers n.freezePosition positions m = .ok (.ok frozen, m')) :
    frozen = positions.filter (n.possible m) ∧
      ∃ entries, frozen.map n.recordedAt = entries.map some ∧ m' = m.fixAll entries := by
  induction positions generalizing m frozen with
  | nil =>
    cases hrun
    exact ⟨rfl, [], rfl, rfl⟩
  | cons position rest ih =>
    rcases freezeMembers_cons_eq_ok hrun with
      ⟨c, _, hcontra⟩ | ⟨kept, next, later, hanswer, hlater, hfrozen⟩
    · cases hcontra
    · cases later with
      | error c => cases hfrozen
      | ok inner =>
        cases hfrozen
        obtain ⟨rfl, hnext⟩ := freezePosition_eq_ok hanswer
        obtain ⟨rfl, entries, hentries, rfl⟩ := ih hlater
        cases hpossible : n.possible m position with
        | false =>
          rw [hpossible] at hnext
          obtain rfl : next = m := hnext
          rw [List.filter_cons, hpossible]
          exact ⟨rfl, entries, hentries, rfl⟩
        | true =>
          rw [hpossible] at hnext
          obtain ⟨⟨var, value⟩, hentry, rfl⟩ := hnext
          -- fixing this variable changes no answer about the later positions
          rw [h.possible_fixTo hentry hpossible] at hentries ⊢
          rw [List.filter_cons, hpossible]
          refine ⟨rfl, (var, value) :: entries, ?_, rfl⟩
          change (position :: rest.filter (n.possible m)).map n.recordedAt = _
          rw [List.map_cons, hentry, hentries, List.map_cons]

/-- A cycle without a contradiction freezes the groups of its order, member by member. -/
theorem Settled.exists_order_of_fix (h : n.Settled) {cycle : Cycle} {outcome : Outcome}
    (hrun : n.fix m = .ok cycle) (hresult : cycle.result = .ok outcome) :
    ∃ (paced : Policy.Paced Random.Stream) (order : List Nat) (source : Random.Stream),
      n.policy.tick n.source = .ok paced ∧
      paced.policy.drawOrder paced.policy.schedule.target paced.source = (order, source) ∧
      cycle.neighbor = { n with source := source, policy := paced.policy } ∧
      (∀ id ∈ order, id ∈ n.policy.groups.occupied) ∧ order.Nodup ∧
      outcome.drawn = order.map n.policy.groups.valueAt ∧
      freezeMembers n.freezePosition (order.flatMap n.policy.groups.positions) m =
        .ok (.ok outcome.frozen, cycle.model) := by
  obtain ⟨paced, hpaced, hrest⟩ := Checked.bind_eq_ok_iff.mp hrun
  obtain ⟨inner, hinner, hcycle⟩ := Checked.bind_eq_ok_iff.mp hrest
  cases hcycle
  obtain ⟨hsettled, hgroups⟩ := h.policy.tick hpaced
  obtain ⟨hnodup, hoccupied⟩ :=
    hsettled.nodup_drawOrder paced.policy.schedule.target paced.source
  obtain ⟨hpolicy, hsource, hdrawn, hmembers⟩ := hsettled.selectAndFreeze_eq_ok hinner hresult
  rw [hgroups] at hoccupied hdrawn hmembers
  rcases horder : paced.policy.drawOrder paced.policy.schedule.target paced.source with
    ⟨order, source⟩
  rw [horder] at hnodup hoccupied hsource hdrawn hmembers
  exact ⟨paced, order, source, hpaced, horder, by simp only [hpolicy, hsource], hoccupied, hnodup,
    hdrawn, hmembers⟩

theorem Settled.fix_eq_ok (h : n.Settled) {cycle : Cycle} {outcome : Outcome}
    (hrun : n.fix m = .ok cycle) (hresult : cycle.result = .ok outcome) :
    ∃ (order : List Nat) (entries : List (VarId × Int32)),
      (∀ id ∈ order, id ∈ n.policy.groups.occupied) ∧ order.Nodup ∧
      outcome.drawn = order.map n.policy.groups.valueAt ∧
      outcome.frozen = (order.flatMap n.policy.groups.positions).filter (n.possible m) ∧
      outcome.frozen.map n.recordedAt = entries.map some ∧ cycle.model = m.fixAll entries := by
  obtain ⟨_, order, _, _, _, _, hoccupied, hnodup, hdrawn, hmembers⟩ :=
    h.exists_order_of_fix hrun hresult
  obtain ⟨hfrozen, entries, hentries, hmodel⟩ := h.freezeMembers_eq_ok hmembers
  exact ⟨order, entries, hoccupied, hnodup, hdrawn, hfrozen, hentries, hmodel⟩

section

variable {frozen : List Nat} {entries : List (VarId × Int32)}

theorem mem_entries_iff (hentries : frozen.map n.recordedAt = entries.map some)
    {entry : VarId × Int32} :
    entry ∈ entries ↔ ∃ position ∈ frozen, n.recordedAt position = some entry := by
  have hlist : some entry ∈ frozen.map n.recordedAt ↔ some entry ∈ entries.map some := by
    rw [hentries]
  rw [List.mem_map, List.mem_map] at hlist
  rw [hlist]
  simp

theorem Settled.entries_agree (h : n.Settled)
    (hentries : frozen.map n.recordedAt = entries.map some)
    (hmem : (var, value) ∈ entries) : ∀ entry ∈ entries, entry.1 = var → entry.2 = value := by
  rintro ⟨var', value'⟩ hmem' hsame
  obtain ⟨i, _, hi⟩ := (mem_entries_iff hentries).mp hmem
  obtain ⟨j, _, hj⟩ := (mem_entries_iff hentries).mp hmem'
  obtain rfl : var' = var := hsame
  exact h.entry_agree hj hi

theorem Settled.getElem?_fixAll_of_mem_frozen (h : n.Settled)
    (hentries : frozen.map n.recordedAt = entries.map some) (hposition : position ∈ frozen)
    (hentry : n.recordedAt position = some (var, value)) (hbound : var.index < m.domains.size) :
    (m.fixAll entries).domains[var.index]? = some (.singleton value) := by
  have hlisted : (var, value) ∈ entries := (mem_entries_iff hentries).mpr ⟨_, hposition, hentry⟩
  exact Model.getElem?_fixAll_of_mem hlisted (h.entries_agree hentries hlisted) hbound

theorem getElem?_fixAll_of_not_frozen (hentries : frozen.map n.recordedAt = entries.map some)
    (hvar : ∀ position ∈ frozen, n.vars[position]? ≠ some var) :
    (m.fixAll entries).domains[var.index]? = m.domains[var.index]? := by
  apply Model.getElem?_fixAll_of_forall_ne
  rintro ⟨var', value'⟩ hlisted hindex
  obtain ⟨position, hposition, hentry⟩ := (mem_entries_iff hentries).mp hlisted
  obtain ⟨hvar', _⟩ := recordedAt_eq_some_iff.mp hentry
  exact hvar position hposition (hvar'.trans (congrArg some (VarId.ext hindex)))

theorem entries_eq_map (hentries : frozen.map n.recordedAt = entries.map some) :
    entries.map (fun entry => (some entry.1, some entry.2)) =
      frozen.map fun position => (n.vars[position]?, n.values[position]?) := by
  have hsplit : ∀ position ∈ frozen, (n.vars[position]?, n.values[position]?) =
      ((n.recordedAt position).map Prod.fst, (n.recordedAt position).map Prod.snd) := by
    intro position hposition
    have hmem : n.recordedAt position ∈ entries.map some := by
      rw [← hentries]
      exact List.mem_map_of_mem hposition
    obtain ⟨⟨var, value⟩, _, hsome⟩ := List.mem_map.mp hmem
    obtain ⟨hvar, hvalue⟩ := recordedAt_eq_some_iff.mp hsome.symm
    rw [← hsome, hvar, hvalue]
    rfl
  calc entries.map (fun entry => (some entry.1, some entry.2))
      = (entries.map some).map fun slot => (slot.map Prod.fst, slot.map Prod.snd) := by
        rw [List.map_map]
        rfl
    _ = frozen.map fun position =>
          ((n.recordedAt position).map Prod.fst, (n.recordedAt position).map Prod.snd) := by
        rw [← hentries, List.map_map]
        rfl
    _ = frozen.map fun position => (n.vars[position]?, n.values[position]?) :=
        (List.map_congr_left hsplit).symm

end

theorem Settled.mem_frozen_iff (h : n.Settled) {order frozen : List Nat} {drawn : List Int32}
    (horder : ∀ id ∈ order, id ∈ n.policy.groups.occupied)
    (hdrawn : drawn = order.map n.policy.groups.valueAt)
    (hfrozen : frozen = (order.flatMap n.policy.groups.positions).filter (n.possible m)) :
    position ∈ frozen ↔ (∃ value ∈ drawn, n.values[position]? = some value) ∧
      n.possible m position = true := by
  rw [hfrozen, List.mem_filter, h.policy.indexes.mem_flatMap_positions_iff horder, hdrawn]
  simp only [Array.getElem?_toList]

/-- A cycle without a contradiction, from any state of the source: it freezes exactly the positions
of drawn values that were possible, fixes their variables and touches nothing else of the model. -/
theorem frozen_iff_of_fix {n : Neighbor} (reachable : n.Reachable) {m : Model}
    (hcovers : m.Covers n.vars) (source : Random.Stream) {cycle : Cycle} {outcome : Outcome}
    (hrun : { n with source := source }.fix m = .ok cycle)
    (hresult : cycle.result = .ok outcome) :
    (∀ position, position ∈ outcome.frozen ↔ ∃ var value d, n.vars[position]? = some var ∧
      n.values[position]? = some value ∧ value ∈ outcome.drawn ∧
        m.domains[var.index]? = some d ∧ d.contains value = true) ∧
    (∀ position ∈ outcome.frozen, ∀ var value, n.vars[position]? = some var →
      n.values[position]? = some value →
        cycle.model.domains[var.index]? = some (.singleton value)) ∧
    (∀ other : VarId, (∀ position ∈ outcome.frozen, n.vars[position]? ≠ some other) →
      cycle.model.domains[other.index]? = m.domains[other.index]?) ∧
    (∃ entries : List (VarId × Int32), cycle.model.log = m.log ++ entries.toArray ∧
      entries.map (fun entry => (some entry.1, some entry.2)) =
        outcome.frozen.map fun position => (n.vars[position]?, n.values[position]?)) ∧
    cycle.model.domains.size = m.domains.size ∧
    cycle.model.checkpoints = m.checkpoints ∧ cycle.model.failing = m.failing ∧
    ∀ i j, n.values[i]? = n.values[j]? → n.possible m i = true → n.possible m j = true →
      (i ∈ outcome.frozen ↔ j ∈ outcome.frozen) := by
  have h : n.Settled := reachable.settled
  obtain ⟨order, entries, horder, _, hdrawn, hfrozen, hentries, hmodel⟩ :=
    (h.pace source h.policy rfl).fix_eq_ok hrun hresult
  change outcome.frozen.map n.recordedAt = entries.map some at hentries
  have hmem : ∀ position, position ∈ outcome.frozen ↔
      (∃ value ∈ outcome.drawn, n.values[position]? = some value) ∧ n.possible m position = true :=
    fun _ => h.mem_frozen_iff horder hdrawn hfrozen
  obtain ⟨hsize, hcheckpoints, hfailing, hlog⟩ := m.fixAll_keeps entries
  rw [hmodel]
  refine ⟨?_, ?_, ?_, ⟨entries, hlog, entries_eq_map hentries⟩, hsize, hcheckpoints, hfailing, ?_⟩
  · intro position
    rw [hmem, possible_eq_true_iff]
    constructor
    · rintro ⟨⟨value, hdrawn, hvalue⟩, var, value', d, hvar, hvalue', hdomain⟩
      obtain rfl : value = value' := Option.some.inj (hvalue.symm.trans hvalue')
      exact ⟨var, value, d, hvar, hvalue, hdrawn, hdomain⟩
    · rintro ⟨var, value, d, hvar, hvalue, hdrawn, hdomain⟩
      exact ⟨⟨value, hdrawn, hvalue⟩, var, value, d, hvar, hvalue, hdomain⟩
  · intro position hposition var value hvar hvalue
    have hlisted : (var, value) ∈ entries :=
      (mem_entries_iff hentries).mpr
        ⟨position, hposition, recordedAt_eq_some_iff.mpr ⟨hvar, hvalue⟩⟩
    -- a variable that is listed twice is fixed twice to one value
    exact Model.getElem?_fixAll_of_mem hlisted (h.entries_agree hentries hlisted)
      (hcovers var (Array.mem_of_getElem? hvar))
  · intro other hother
    apply Model.getElem?_fixAll_of_forall_ne
    rintro ⟨var, value⟩ hlisted hindex
    obtain ⟨position, hposition, hsome⟩ := (mem_entries_iff hentries).mp hlisted
    obtain ⟨hvar, _⟩ := recordedAt_eq_some_iff.mp hsome
    exact hother position hposition (hvar.trans (congrArg some (VarId.ext hindex)))
  · intro i j hvalues hi hj
    rw [hmem, hmem, hvalues, hi, hj]

/-- The values 1, 1, 2 and 3 are recorded for the variables of `twice`. -/
def twiceRecorded : Neighbor where
  vars := #[⟨0⟩, ⟨0⟩, ⟨1⟩, ⟨2⟩]
  values := #[1, 1, 2, 3]
  min := 0
  max := 3
  source := .ofSeed 42
  policy := Policy.shared

theorem reachable_twiceRecorded : twiceRecorded.Reachable := by
  refine ⟨twice, [.load (.ofList [(⟨0⟩, 1), (⟨1⟩, 2), (⟨2⟩, 3)])], [.recorded (.ok ())],
    isNew_twice, ?_⟩
  decide +kernel

theorem frozen_twiceRecorded :
    twiceRecorded.Reachable ∧
    ((Model.ofBounds 3 0 3).setDomain ⟨1⟩ (.singleton 0)).Covers twiceRecorded.vars ∧
    ∃ cycle, { twiceRecorded with source := .ofSeed 1 }.fix
        ((Model.ofBounds 3 0 3).setDomain ⟨1⟩ (.singleton 0)) = .ok cycle ∧
      cycle.result = .ok ⟨[2, 1], [0, 1]⟩ ∧ cycle.model.domains[0]? = some (.singleton 1) ∧
      cycle.model.domains[1]? = some (.singleton 0) := by
  have hcovers :
      ((Model.ofBounds 3 0 3).setDomain ⟨1⟩ (.singleton 0)).Covers twiceRecorded.vars := by
    unfold Model.Covers
    decide
  refine ⟨reachable_twiceRecorded, hcovers, ?_⟩
  have hreplay : ({ twiceRecorded with source := .ofSeed 1 }.fix
      ((Model.ofBounds 3 0 3).setDomain ⟨1⟩ (.singleton 0))).map Cycle.result =
        .ok (.ok ⟨[2, 1], [0, 1]⟩) := by
    decide +kernel
  obtain ⟨cycle, hrun, hresult⟩ := Checked.map_eq_ok_iff.mp hreplay
  obtain ⟨_, hfrozen, hother, _⟩ :=
    frozen_iff_of_fix reachable_twiceRecorded hcovers (.ofSeed 1) hrun hresult
  refine ⟨cycle, hrun, hresult, hfrozen 0 (by decide) ⟨0⟩ 1 rfl rfl, ?_⟩
  exact hother ⟨1⟩ (by decide)

end LargeNeighborhood.Neighbor
