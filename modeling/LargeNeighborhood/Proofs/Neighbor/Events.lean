import LargeNeighborhood.Proofs.Neighbor.Contradiction
import LargeNeighborhood.Proofs.Neighbor.Relaxation

/-!
# The events of a cycle

A cycle that fails leaves no outcome, so its events are the only record of what it did. They tell of
a redraw, of each drawn group in draw order and of how the cycle ended; the last draw before a
contradiction is that of the refused value.
-/

namespace LargeNeighborhood

section

variable {freeze : Freeze σ} {members : Nat → List Nat} {c : Contradiction}

theorem exists_call_of_freezeMembers {positions : List Nat} {state last : σ}
    (h : freezeMembers freeze positions state = .ok (.error c, last)) :
    ∃ position ∈ positions, ∃ before, freeze position before = .ok (.error c, last) := by
  induction positions generalizing state with
  | nil => cases h
  | cons position rest ih =>
    rcases freezeMembers_cons_eq_ok h with
      ⟨c', hanswer, hc⟩ | ⟨kept, next, later, _, hlater, hresult⟩
    · cases hc
      exact ⟨position, List.mem_cons_self, state, hanswer⟩
    · cases later with
      | ok frozen => cases hresult
      | error c' =>
        cases hresult
        obtain ⟨failed, hfailed, hcall⟩ := ih hlater
        exact ⟨failed, List.mem_cons_of_mem _ hfailed, hcall⟩

theorem exists_call_of_freezeGroups {ids : List Nat} {state : σ} {progress : Progress σ}
    (h : freezeGroups members freeze ids state = .ok progress)
    (hfrozen : progress.frozen = .error c) :
    ∃ id position before, ids[progress.closed]? = some id ∧ position ∈ members id ∧
      freeze position before = .ok (.error c, progress.state) := by
  induction ids generalizing state progress with
  | nil =>
    cases h
    cases hfrozen
  | cons id ids ih =>
    rcases freezeGroups_cons_eq_ok h with
      ⟨c', next, hmembers, rfl⟩ | ⟨frozen, next, rest, _, hrun, rfl⟩
    · cases hfrozen
      obtain ⟨position, hposition, before, hcall⟩ := exists_call_of_freezeMembers hmembers
      exact ⟨id, position, before, rfl, hposition, hcall⟩
    · cases hrest : rest.frozen with
      | ok later => simp [hrest, Except.map] at hfrozen
      | error c' =>
        simp only [hrest, Except.map, Except.error.injEq] at hfrozen
        subst hfrozen
        obtain ⟨failed, position, before, hid, hposition, hcall⟩ := ih hrun hrest
        exact ⟨failed, position, before, by simpa using hid, hposition, hcall⟩

theorem opened_le_length {ids : List Nat} {state : σ} {progress : Progress σ}
    (h : freezeGroups members freeze ids state = .ok progress) :
    progress.opened ≤ ids.length := by
  unfold Progress.opened
  cases hfrozen : progress.frozen with
  | ok frozen => exact (closed_eq_length h hfrozen).le
  | error c =>
    obtain ⟨_, _, _, hid, _, _⟩ := exists_call_of_freezeGroups h hfrozen
    exact (List.getElem?_eq_some_iff.mp hid).1

end

theorem length_filter_getElem? [DecidableEq α] (xs : List α) (x : α) :
    ((List.range xs.length).filter fun i => decide (xs[i]? = some x)).length = xs.count x := by
  induction xs using List.reverseRecOn with
  | nil => rfl
  | append_singleton xs y ih =>
    have hkeep : ∀ i ∈ List.range xs.length,
        decide ((xs ++ [y])[i]? = some x) = decide (xs[i]? = some x) := by
      intro i hi
      rw [List.getElem?_append_left (List.mem_range.mp hi)]
    rw [List.length_append, List.length_singleton, List.range_succ, List.filter_append,
      List.filter_congr hkeep, List.length_append, ih, List.count_append]
    congr 1
    by_cases hxy : y = x <;> simp [hxy]

theorem ValueGroups.Indexes.length_positions {g : ValueGroups} {values : List Int32}
    (h : g.Indexes values) {id : Nat} (hid : id < g.buckets.size) :
    (g.positions id).length = values.count (g.valueAt id) := by
  rw [h.positions_eq_filter hid, length_filter_getElem?]

theorem Policy.isPrefix_drawOrder [RandomSource ρ] (p : Policy) (target : Nat) (source : ρ) :
    (p.drawOrder target source).1 <+:
      (drawFrom p.groups.usedValues p.groups.occupiedIds source).1 := by
  have hfull : p.drawOrder p.groups.usedValues source =
      drawFrom p.groups.usedValues p.groups.occupiedIds source := by
    rw [drawOrder, Nat.min_self]
  rw [← take_drawOrder p target source, hfull]
  exact List.take_prefix _ _

namespace Neighbor

variable {n : Neighbor} {m m' : Model} {cycle : Cycle}

theorem recordedAt_of_freezePosition_error {position : Nat} {c : Contradiction}
    (h : n.freezePosition position m = .ok (.error c, m')) :
    n.recordedAt position = some (c.var, c.value) := by
  obtain ⟨var, value, d, hvar, hvalue, hdomain⟩ := exists_of_freezePosition h
  rw [freezePosition_eq hvar hvalue hdomain] at h
  cases hcontains : d.contains value with
  | false =>
    rw [hcontains] at h
    cases h
  | true =>
    cases hfailing : m.failing.contains var <;> rw [hcontains, hfailing] at h <;> cases h
    exact recordedAt_eq_some_iff.mpr ⟨hvar, hvalue⟩

def holders (n : Neighbor) (value : Int32) : Nat :=
  n.values.toList.count value

/-- The report of a redraw in a cycle, if one was due. The cycle is not counted yet. -/
def redrawEvents (n : Neighbor) (cycle : Cycle) : List Event :=
  if n.policy.schedule.limit < n.policy.schedule.calls then
    [.relax n.policy.schedule.calls cycle.neighbor.policy.schedule.limit
      cycle.neighbor.policy.schedule.fixedValues cycle.neighbor.policy.schedule.usedValues]
  else []

def finalEvent (cycle : Cycle) (drawn : List Int32) : Event :=
  match cycle.result with
  | .ok outcome =>
    .fix cycle.neighbor.policy.schedule.target drawn.length outcome.frozen.length
  | .error c => .fixFailed c

/-- The events of a cycle, and what the values they report as drawn have to do with the cycle. -/
structure Logs (n : Neighbor) (cycle : Cycle) (drawn : List Int32) : Prop where
  events : cycle.events = n.redrawEvents cycle ++
    drawn.map (fun value => Event.draw value (n.holders value)) ++ [finalEvent cycle drawn]
  /-- The draws are the first ones of the sampled order, and each has taken one rank. -/
  order : ∃ paced : Policy.Paced Random.Stream, n.policy.tick n.source = .ok paced ∧
    cycle.neighbor.policy = paced.policy ∧
    drawn <+: (drawFrom n.policy.groups.usedValues n.policy.groups.occupiedIds paced.source).1.map
      n.policy.groups.valueAt ∧
    cycle.neighbor.source =
      (drawFrom drawn.length n.policy.groups.occupiedIds paced.source).2
  distinct : drawn.Nodup
  recorded : ∀ value ∈ drawn, value ∈ n.values
  of_ok : ∀ outcome, cycle.result = .ok outcome → drawn = outcome.drawn ∧
    outcome.frozen.length ≤ (drawn.map n.holders).sum
  of_error : ∀ c, cycle.result = .error c → drawn.getLast? = some c.value

/-- The values of the groups that a cycle has opened. -/
def openedValues (paced : Policy.Paced Random.Stream) (progress : Progress Model) : List Int32 :=
  ((paced.policy.drawOrder paced.policy.schedule.target paced.source).1.take progress.opened).map
    paced.policy.groups.valueAt

theorem redrawEvents_cycleOf {paced : Policy.Paced Random.Stream}
    (hpaced : n.policy.tick n.source = .ok paced) (progress : Progress Model) :
    paced.events = n.redrawEvents (n.cycleOf paced progress) := by
  obtain ⟨step, hstep, rfl⟩ := Policy.tick_eq_ok_iff.mp hpaced
  obtain ⟨looked, hlooked, _, rfl⟩ := Schedule.tick_eq_ok_iff.mp hstep
  rw [Schedule.update_eq] at hlooked
  unfold redrawEvents
  split at hlooked
  · rename_i hbelow
    cases hlooked
    rw [if_neg (Nat.not_lt.mpr hbelow)]
    rfl
  · rename_i hpassed
    split at hlooked
    · cases hlooked
      rw [if_pos (Nat.lt_of_not_le hpassed)]
      rfl
    · cases hlooked

section

variable {paced : Policy.Paced Random.Stream} {progress : Progress Model}

theorem Settled.length_positions (h : n.Settled) {id : Nat} (hid : id ∈ n.policy.groups.occupied) :
    (n.policy.groups.positions id).length = n.holders (n.policy.groups.valueAt id) :=
  h.policy.indexes.length_positions (h.policy.indexes.occupied_lt hid)

theorem Settled.map_drawEvent (h : n.Settled) {order : List Nat}
    (horder : ∀ id ∈ order, id ∈ n.policy.groups.occupied) :
    order.map n.policy.groups.drawEvent =
      (order.map n.policy.groups.valueAt).map fun value => .draw value (n.holders value) := by
  rw [List.map_map]
  apply List.map_congr_left
  intro id hid
  rw [ValueGroups.drawEvent, h.length_positions (horder id hid)]
  rfl

theorem Settled.length_frozen_le (h : n.Settled) {order frozen : List Nat}
    (horder : ∀ id ∈ order, id ∈ n.policy.groups.occupied)
    (hmembers : freezeMembers n.freezePosition (order.flatMap n.policy.groups.positions) m =
      .ok (.ok frozen, m')) :
    frozen.length ≤ ((order.map n.policy.groups.valueAt).map n.holders).sum := by
  have hcount : order.map (fun id => (n.policy.groups.positions id).length) =
      (order.map n.policy.groups.valueAt).map n.holders := by
    rw [List.map_map]
    exact List.map_congr_left fun id hid => h.length_positions (horder id hid)
  obtain ⟨rfl, _⟩ := h.freezeMembers_eq_ok hmembers
  calc ((order.flatMap n.policy.groups.positions).filter (n.possible m)).length
      ≤ (order.flatMap n.policy.groups.positions).length := List.length_filter_le _ _
    _ = ((order.map n.policy.groups.valueAt).map n.holders).sum := by
      rw [List.length_flatMap, hcount]

/-- A contradiction names the value of the group that was opened last. -/
theorem Settled.getLast?_openedValues (h : n.Settled)
    (hgroups : paced.policy.groups = n.policy.groups)
    (hoccupied : ∀ id ∈ (paced.policy.drawOrder paced.policy.schedule.target paced.source).1,
      id ∈ n.policy.groups.occupied)
    (hprogress : freezeGroups n.policy.groups.positions n.freezePosition
      (paced.policy.drawOrder paced.policy.schedule.target paced.source).1 m = .ok progress)
    {c : Contradiction} (hfrozen : progress.frozen = .error c) :
    (openedValues paced progress).getLast? = some c.value := by
  obtain ⟨id, position, before, hid, hposition, hcall⟩ :=
    exists_call_of_freezeGroups hprogress hfrozen
  have hopened : progress.opened = progress.closed + 1 := by
    rw [Progress.opened, hfrozen]
  have hbound := h.policy.indexes.occupied_lt (hoccupied id (List.mem_of_getElem? hid))
  obtain ⟨_, hvalue⟩ := recordedAt_eq_some_iff.mp (recordedAt_of_freezePosition_error hcall)
  -- the position was recorded with the value of its group
  have hgroup := (h.policy.indexes.mem_positions_iff hbound).mp hposition
  rw [Array.getElem?_toList, hvalue, Option.some.injEq] at hgroup
  rw [openedValues, hopened, List.getLast?_map, List.take_add_one, hid, hgroups, Option.toList_some,
    List.getLast?_append_of_ne_nil _ (by simp), List.getLast?_singleton, Option.map_some, hgroup]

theorem length_openedValues
    (hprogress : freezeGroups n.policy.groups.positions n.freezePosition
      (paced.policy.drawOrder paced.policy.schedule.target paced.source).1 m = .ok progress) :
    (openedValues paced progress).length = progress.opened := by
  rw [openedValues, List.length_map, List.length_take_of_le (opened_le_length hprogress)]

theorem openedValues_of_ok
    (hprogress : freezeGroups n.policy.groups.positions n.freezePosition
      (paced.policy.drawOrder paced.policy.schedule.target paced.source).1 m = .ok progress)
    {frozen : List Nat} (hfrozen : progress.frozen = .ok frozen) :
    openedValues paced progress =
      (paced.policy.drawOrder paced.policy.schedule.target paced.source).1.map
        paced.policy.groups.valueAt := by
  rw [openedValues, Progress.opened, hfrozen]
  congr 1
  exact List.take_of_length_le (closed_eq_length hprogress hfrozen).ge

theorem events_cycleOf
    (hprogress : freezeGroups n.policy.groups.positions n.freezePosition
      (paced.policy.drawOrder paced.policy.schedule.target paced.source).1 m = .ok progress) :
    (n.cycleOf paced progress).events = paced.events ++
      ((paced.policy.drawOrder paced.policy.schedule.target paced.source).1.take
        progress.opened).map paced.policy.groups.drawEvent ++
      [finalEvent (n.cycleOf paced progress) (openedValues paced progress)] := by
  unfold finalEvent
  rw [length_openedValues hprogress]
  cases hfrozen : progress.frozen with
  | ok frozen =>
    have hclosed : progress.opened =
        (paced.policy.drawOrder paced.policy.schedule.target paced.source).1.length := by
      rw [Progress.opened, hfrozen]
      exact closed_eq_length hprogress hfrozen
    simp only [cycleOf, Policy.cycleOf, hfrozen, Except.map, hclosed, List.append_nil,
      List.append_assoc]
  | error c =>
    simp only [cycleOf, Policy.cycleOf, hfrozen, Except.map, List.append_nil]

theorem openedValues_isPrefix (hgroups : paced.policy.groups = n.policy.groups) :
    openedValues paced progress <+:
      (drawFrom n.policy.groups.usedValues n.policy.groups.occupiedIds paced.source).1.map
        n.policy.groups.valueAt := by
  have horder := Policy.isPrefix_drawOrder paced.policy paced.policy.schedule.target paced.source
  rw [openedValues, hgroups]
  rw [hgroups] at horder
  exact ((List.take_prefix progress.opened _).trans horder).map n.policy.groups.valueAt

theorem Settled.logs (h : n.Settled) (hpaced : n.policy.tick n.source = .ok paced)
    (hprogress : freezeGroups n.policy.groups.positions n.freezePosition
      (paced.policy.drawOrder paced.policy.schedule.target paced.source).1 m = .ok progress) :
    n.Logs (n.cycleOf paced progress) (openedValues paced progress) := by
  obtain ⟨hsettled, hgroups⟩ := h.policy.tick hpaced
  obtain ⟨hnodup, hoccupied⟩ := hsettled.nodup_drawOrder paced.policy.schedule.target paced.source
  rw [hgroups] at hoccupied
  have htake : ∀ id ∈ (paced.policy.drawOrder paced.policy.schedule.target paced.source).1.take
      progress.opened, id ∈ n.policy.groups.occupied :=
    fun id hid => hoccupied id (List.mem_of_mem_take hid)
  constructor
  case events =>
    rw [events_cycleOf hprogress, redrawEvents_cycleOf hpaced progress, openedValues, hgroups,
      h.map_drawEvent htake]
  case order =>
    refine ⟨paced, hpaced, rfl, openedValues_isPrefix hgroups, ?_⟩
    rw [length_openedValues hprogress, ← hgroups]
    rfl
  case distinct =>
    rw [openedValues, hgroups]
    exact h.policy.indexes.nodup_map_valueAt (hnodup.sublist (List.take_sublist _ _)) htake
  case recorded =>
    intro value hvalue
    rw [openedValues, hgroups] at hvalue
    obtain ⟨id, hid, rfl⟩ := List.mem_map.mp hvalue
    exact Array.mem_toList_iff.mp (h.policy.indexes.mem_values_of_occupied (htake id hid))
  case of_ok =>
    intro outcome hresult
    cases hfrozen : progress.frozen with
    | error c =>
      simp only [cycleOf, Policy.cycleOf, hfrozen, Except.map] at hresult
      cases hresult
    | ok frozen =>
      have hmembers := freezeMembers_flatMap hprogress
      rw [hfrozen] at hmembers
      simp only [cycleOf, Policy.cycleOf, hfrozen, Except.map] at hresult
      cases hresult
      rw [openedValues_of_ok hprogress hfrozen, hgroups]
      exact ⟨rfl, h.length_frozen_le hoccupied hmembers⟩
  case of_error =>
    -- the last value opened is the one whose member was refused
    intro c hresult
    cases hfrozen : progress.frozen with
    | ok frozen =>
      simp only [cycleOf, Policy.cycleOf, hfrozen, Except.map] at hresult
      cases hresult
    | error c' =>
      simp only [cycleOf, Policy.cycleOf, hfrozen, Except.map] at hresult
      cases hresult
      exact h.getLast?_openedValues hgroups hoccupied hprogress hfrozen

end

/-- The events of a cycle tell, in order, of a redraw if one was due, of each drawn group with its
value and the number of its members, and of the outcome or the contradiction. -/
theorem events_mirror_cycle (reachable : n.Reachable) (hcovers : m.Covers n.vars) :
    (n.policy.schedule.calls + UInt32.size ≤ UInt64.size → ∃ cycle, n.fix m = .ok cycle) ∧
    ∀ cycle, n.fix m = .ok cycle → ∃ drawn, n.Logs cycle drawn := by
  have h := reachable.settled
  constructor
  · intro hcalls
    obtain ⟨step, hstep⟩ := Schedule.exists_tick hcalls n.source
    exact h.exists_fix hcovers (Policy.tick_eq_ok_iff.mpr ⟨step, hstep, rfl⟩)
  · intro cycle hrun
    obtain ⟨paced, progress, hpaced, hprogress, rfl⟩ := h.fix_eq_ok_iff.mp hrun
    exact ⟨_, h.logs hpaced hprogress⟩

def twiceFixed : Neighbor :=
  { twiceCounted with source := { Random.Stream.ofSeed 42 with position := 2 } }

theorem reachable_twiceFixed : twiceFixed.Reachable := by
  have hrun : (twice.run [.load (.ofList [(⟨0⟩, 1), (⟨1⟩, 2), (⟨2⟩, 3)]),
      .fix (.ofBounds 3 0 3)]).map Prod.snd = .ok twiceFixed := by
    decide +kernel
  obtain ⟨⟨answers, n⟩, hrun, hn⟩ := Checked.map_eq_ok_iff.mp hrun
  obtain rfl : n = twiceFixed := hn
  exact ⟨twice, _, answers, isNew_twice, hrun⟩

/-- The second cycle redraws its size and draws the values 3 and 1; the variable listed first, which
holds 1 twice, refuses it. -/
theorem events_twiceFixed :
    twiceFixed.Reachable ∧ ((Model.ofBounds 3 0 3).failOn ⟨0⟩).Covers twiceFixed.vars ∧
    ∃ cycle, twiceFixed.fix ((Model.ofBounds 3 0 3).failOn ⟨0⟩) = .ok cycle ∧
      cycle.result = .error ⟨⟨0⟩, 1⟩ ∧ twiceFixed.Logs cycle [3, 1] ∧
      cycle.events.getLast? = some (.fixFailed ⟨⟨0⟩, 1⟩) ∧ cycle.events.length = 4 := by
  have hcovers : ((Model.ofBounds 3 0 3).failOn ⟨0⟩).Covers twiceFixed.vars := by
    unfold Model.Covers
    decide
  obtain ⟨hexists, hlogs⟩ := events_mirror_cycle reachable_twiceFixed hcovers
  obtain ⟨cycle, hrun⟩ := hexists (by decide)
  obtain ⟨drawn, hlog⟩ := hlogs cycle hrun
  have hreplay : (twiceFixed.fix ((Model.ofBounds 3 0 3).failOn ⟨0⟩)).map
      (fun cycle => (cycle.result, cycle.events.drop 1)) =
        .ok (.error ⟨⟨0⟩, 1⟩, [.draw 3 1, .draw 1 2, .fixFailed ⟨⟨0⟩, 1⟩]) := by
    decide +kernel
  rw [hrun] at hreplay
  obtain ⟨hresult, hevents⟩ := Prod.mk.inj (Except.ok.inj hreplay)
  obtain ⟨relax, hrelax⟩ : ∃ relax, twiceFixed.redrawEvents cycle = [relax] := ⟨_, rfl⟩
  have hall := hlog.events
  rw [hrelax, List.append_assoc, List.singleton_append] at hall
  rw [hall, List.drop_succ_cons, List.drop_zero] at hevents
  obtain ⟨first, second, rfl⟩ : ∃ first second, drawn = [first, second] := by
    have hlength := congrArg List.length hevents
    rw [List.length_append, List.length_map] at hlength
    exact List.length_eq_two.mp (Nat.succ.inj hlength)
  obtain ⟨rfl, rfl⟩ : first = 3 ∧ second = 1 := by
    simp only [List.map_cons, List.cons_append, List.cons.injEq, Event.draw.injEq] at hevents
    exact ⟨hevents.1.1, hevents.2.1.1⟩
  rw [hevents] at hall
  refine ⟨reachable_twiceFixed, hcovers, cycle, hrun, hresult, hlog, ?_, ?_⟩
  · rw [hall]
    rfl
  · rw [hall]
    rfl

end Neighbor

end LargeNeighborhood
