import LargeNeighborhood.Proofs.Neighbor.Contradiction
import LargeNeighborhood.Proofs.Neighbor.Recordable
import LargeNeighborhood.Proofs.Neighbor.Reset

/-!
# Recordings, all or nothing

A recording takes the value of every variable or leaves the neighborhood as it was, and then the
first variable that is in the way is named. Taking the values from a model or from a solution that
was captured in it comes to the same.
-/

namespace LargeNeighborhood

namespace Neighbor

variable {n n' : Neighbor} {m : Model} {op : Operation} {steps : List Step}
  {read : VarId → Checked (Except NeighborError Int32)} {holds : VarId → Int32 → Prop}
  {missing : VarId → NeighborError} {var : VarId} {value : Int32} {e : NeighborError}

/-! ## The first variable in the way -/

def Admits (n : Neighbor) (holds : VarId → Int32 → Prop) (var : VarId) : Prop :=
  ∃ value, holds var value ∧ n.min ≤ value ∧ value ≤ n.max

/-- A recording that either takes the values which hold for the variables or changes nothing. -/
structure AllOrNothing (n : Neighbor) (op : Operation) (holds : VarId → Int32 → Prop)
    (missing : VarId → NeighborError) : Prop where
  /-- It does not fault. -/
  decided : ∃ result n', n.perform op = .ok (.recorded result, n')
  ok_iff : (∃ n', n.perform op = .ok (.recorded (.ok ()), n')) ↔ ∀ var ∈ n.vars, n.Admits holds var
  /-- The random stream, the variables and the bounds are left alone. -/
  taken : ∀ n', n.perform op = .ok (.recorded (.ok ()), n') →
    List.Forall₂ holds n.vars.toList n'.values.toList ∧ n'.source = n.source ∧ n.SameScope n'
  /-- The error tells about the first variable in the way. -/
  error_iff : ∀ e n', n.perform op = .ok (.recorded (.error e), n') ↔
    n' = n ∧ ∃ before var after, n.vars.toList = before ++ var :: after ∧
      (∀ earlier ∈ before, n.Admits holds earlier) ∧ n.Offends holds missing var e

section

variable (hunique : ∀ var value value', holds var value → holds var value' → value = value')

include hunique

theorem Answers.reads_iff (h : Answers read holds missing var) :
    n.Reads read var value ↔ holds var value ∧ n.min ≤ value ∧ value ≤ n.max := by
  constructor
  · intro hreads
    exact ⟨h.holds_of_reads hreads, hreads.2⟩
  · rintro ⟨hvalue, hrange⟩
    rcases h with ⟨held, hheld, hread⟩ | ⟨hnone, _⟩
    · obtain rfl := hunique var held value hheld hvalue
      exact ⟨hread, hrange⟩
    · exact absurd hvalue (hnone value)

theorem Answers.admits_iff (h : Answers read holds missing var) :
    n.Admits holds var ↔ ∃ value, n.Reads read var value := by
  simp only [h.reads_iff hunique, Admits]

theorem Answers.rejects_iff (h : Answers read holds missing var) :
    n.Rejects read var e ↔ n.Offends holds missing var e := by
  constructor
  · exact h.offends_of_rejects
  · intro hoffends
    rcases h with ⟨held, hheld, hread⟩ | ⟨hnone, hread⟩
    · cases hoffends with
      | missing hnone => exact absurd hheld (hnone held)
      | outside hvalue hrange =>
        obtain rfl := hunique var held _ hheld hvalue
        exact .outside hread hrange
    · cases hoffends with
      | missing _ => exact .unread hread
      | outside hvalue _ => exact absurd hvalue (hnone _)

omit hunique in
theorem perform_eq_refused_iff (hreading : op.reading = some read) :
    n.perform op = .ok (.recorded (.error e), n') ↔
      n' = n ∧ n.recordWith read = .ok (.error e) := by
  rw [perform_eq_ok_iff]
  constructor
  · intro h
    cases h with
    | refused hread hrun =>
      obtain rfl := Option.some.inj (hreading.symm.trans hread)
      exact ⟨rfl, hrun⟩
  · rintro ⟨rfl, hrun⟩
    exact .refused hreading hrun

theorem not_admits_of_offends (hoffends : n.Offends holds missing var e) :
    ¬ n.Admits holds var := by
  rintro ⟨value, hvalue, hrange⟩
  cases hoffends with
  | missing hnone => exact hnone value hvalue
  | outside hheld hout =>
    obtain rfl := hunique var value _ hvalue hheld
    exact hout hrange

theorem perform_eq_error_iff (hreading : op.reading = some read)
    (hread : ∀ var ∈ n.vars, Answers read holds missing var) :
    n.perform op = .ok (.recorded (.error e), n') ↔
      n' = n ∧ ∃ before var after, n.vars.toList = before ++ var :: after ∧
        (∀ earlier ∈ before, n.Admits holds earlier) ∧ n.Offends holds missing var e := by
  rw [perform_eq_refused_iff hreading, recordWith_eq_error_iff, readValues_eq_error_iff]
  apply and_congr_right
  intro _
  refine exists_congr fun before => exists_congr fun var => exists_congr fun after => ?_
  apply and_congr_right
  intro hvars
  rw [(hread var (mem_vars_of_toList_eq hvars)).rejects_iff hunique]
  apply and_congr_left
  intro _
  refine forall₂_congr fun earlier hmem => ?_
  have hlisted : earlier ∈ n.vars := by
    rw [← Array.mem_toList_iff, hvars]
    exact List.mem_append_left _ hmem
  exact ((hread earlier hlisted).admits_iff hunique).symm

theorem Settled.allOrNothing (h : n.Settled) (hreading : op.reading = some read)
    (hread : ∀ var ∈ n.vars, Answers read holds missing var) :
    n.AllOrNothing op holds missing := by
  have htaken : ∀ n', n.perform op = .ok (.recorded (.ok ()), n') ↔
      ∃ reported, n.recordWith read = .ok (.ok reported) ∧ reported.neighbor = n' := by
    intro n'
    simp only [perform_eq_snapshot_iff, hreading, Option.some.injEq, exists_and_left,
      exists_eq_left']
  have hdecided : ∃ result n', n.perform op = .ok (.recorded result, n') := by
    obtain ⟨result, hresult⟩ := h.exists_recordWith fun var hvar => (hread var hvar).exists_answer
    cases result with
    | error e => exact ⟨.error e, n, (perform_eq_refused_iff hreading).mpr ⟨rfl, hresult⟩⟩
    | ok reported => exact ⟨.ok (), _, (htaken _).mpr ⟨reported, hresult, rfl⟩⟩
  constructor
  case decided => exact hdecided
  case ok_iff =>
    -- the converse uses that a recording is decided: it is not refused, so it was made
    constructor
    · rintro ⟨n', hrun⟩ var hvar
      obtain ⟨reported, hrecord, _⟩ := (htaken n').mp hrun
      obtain ⟨values, hreads, _⟩ := recordWith_eq_ok_iff.mp hrecord
      obtain ⟨value, _, hvalue⟩ := exists_mem_of_forall₂ hreads (Array.mem_toList_iff.mpr hvar)
      exact ((hread var hvar).admits_iff hunique).mpr ⟨value, hvalue⟩
    · intro hall
      obtain ⟨result, n', hrun⟩ := hdecided
      cases result with
      | ok _ => exact ⟨n', hrun⟩
      | error e =>
        obtain ⟨_, before, var, after, hvars, _, hoffends⟩ :=
          (perform_eq_error_iff hunique hreading hread).mp hrun
        have hadmits := hall var (mem_vars_of_toList_eq hvars)
        exact absurd hadmits (not_admits_of_offends hunique hoffends)
  case taken =>
    intro n' hrun
    obtain ⟨reported, hrecord, rfl⟩ := (htaken n').mp hrun
    obtain ⟨values, hreads, htaken⟩ := recordWith_eq_ok_iff.mp hrecord
    obtain ⟨_, hvalues, hscope, _⟩ := h.takeSnapshot hreads htaken
    have hlisted : ∀ var ∈ n.vars.toList, Answers read holds missing var :=
      fun var hvar => hread var (Array.mem_toList_iff.mp hvar)
    rw [hvalues]
    exact ⟨forall₂_holds hlisted hreads, source_takeSnapshot htaken, hscope⟩
  case error_iff => exact fun e n' => perform_eq_error_iff hunique hreading hread

end

/-! ## Snapshots of models and of solutions -/

theorem Settled.allOrNothing_record (h : n.Settled) (hcovers : m.Covers n.vars) :
    n.AllOrNothing (.record m) (fun var value => m.domain var = .ok (.singleton value))
      .uninstantiated := by
  have hunique : ∀ (var : VarId) (value value' : Int32), m.domain var = .ok (.singleton value) →
      m.domain var = .ok (.singleton value') → value = value' :=
    fun _ _ _ => Model.singleton_unique
  apply h.allOrNothing hunique rfl
  intro var hvar
  obtain ⟨d, _, hdomain⟩ := hcovers.domain_eq hvar
  exact answers_modelValue hdomain

theorem Settled.allOrNothing_load (h : n.Settled) (s : StoredSolution) :
    n.AllOrNothing (.load s) (fun var value => s.value? var = some value) .missingValue := by
  apply h.allOrNothing _ rfl fun var _ => answers_value? s var
  intro var value value' hvalue hvalue'
  exact Option.some.inj (hvalue.symm.trans hvalue')

def Step.isRecording : Step → Bool
  | .record | .load _ => true
  | .init | .fix | .restrictLess => false

theorem Settled.allOrNothing_step (h : n.Settled) (hcovers : m.Covers n.vars) {step : Step}
    (hstep : step.isRecording = true) :
    ∃ holds missing, n.AllOrNothing (step.on m) holds missing := by
  cases step with
  | record => exact ⟨_, _, h.allOrNothing_record hcovers⟩
  | load s => exact ⟨_, _, h.allOrNothing_load s⟩
  | init => cases hstep
  | fix => cases hstep
  | restrictLess => cases hstep

/-- A search that only records leaves the model and the random stream alone, and everything else too
if no recording succeeds. -/
theorem Settled.search_recordings (h : n.Settled) (hcovers : m.Covers n.vars)
    (hsteps : ∀ step ∈ steps, step.isRecording = true) :
    ∃ answers n', n.search m steps = .ok (answers, n', m) ∧ n'.source = n.source ∧
      n.SameScope n' ∧ ((∀ answer ∈ answers, answer.isSnapshot = false) → n' = n) := by
  induction steps generalizing n with
  | nil => exact ⟨[], n, rfl, rfl, .refl n, fun _ => rfl⟩
  | cons step steps ih =>
    obtain ⟨hstep, hsteps⟩ := List.forall_mem_cons.mp hsteps
    obtain ⟨holds, missing, hall⟩ := h.allOrNothing_step hcovers hstep
    obtain ⟨result, next, hrun⟩ := hall.decided
    have hfirst : next.source = n.source ∧ n.SameScope next ∧
        ((Answer.recorded result).isSnapshot = false → next = n) := by
      cases result with
      | ok _ =>
        obtain ⟨_, hsource, hscope⟩ := hall.taken next hrun
        exact ⟨hsource, hscope, nofun⟩
      | error e =>
        obtain ⟨rfl, _⟩ := (hall.error_iff e next).mp hrun
        exact ⟨rfl, .refl _, fun _ => rfl⟩
    obtain ⟨hsource, hscope, hsame⟩ := hfirst
    have hcovers' : m.Covers next.vars := by rwa [hscope.1]
    obtain ⟨answers, n', hrest, hsource', hscope', hsame'⟩ :=
      ih (h.perform hrun).settled hcovers' hsteps
    refine ⟨_, n', search_cons_eq_ok_iff.mpr ⟨_, _, _, hrun, hrest, rfl⟩, hsource'.trans hsource,
      hscope.trans hscope', ?_⟩
    intro hnone
    obtain ⟨hfailed, hnone⟩ := List.forall_mem_cons.mp hnone
    exact (hsame' hnone).trans (hsame hfailed)

/-- Recordings are all or nothing and name the first variable in the way. No recording draws from
the random stream or changes the model. -/
theorem recording_all_or_nothing (reachable : n.Reachable) :
    (∀ m : Model, m.Covers n.vars →
      n.AllOrNothing (.record m) (fun var value => m.domain var = .ok (.singleton value))
        .uninstantiated) ∧
    (∀ s : StoredSolution,
      n.AllOrNothing (.load s) (fun var value => s.value? var = some value) .missingValue) ∧
    ∀ (m : Model) (steps : List Step), m.Covers n.vars →
      (∀ step ∈ steps, step.isRecording = true) →
        ∃ answers n', n.search m steps = .ok (answers, n', m) ∧ n'.source = n.source ∧
          n.SameScope n' ∧ ((∀ answer ∈ answers, answer.isSnapshot = false) → n' = n) := by
  have h := reachable.settled
  refine ⟨?_, h.allOrNothing_load, ?_⟩
  · intro m hcovers
    exact h.allOrNothing_record hcovers
  · intro m steps hcovers hsteps
    exact h.search_recordings hcovers hsteps

def mixed : Model :=
  { Model.empty with domains := #[.singleton 1, .empty, .singleton 9] }

theorem covers_mixed : mixed.Covers twiceRecorded.vars := by
  unfold Model.Covers
  decide

/-- The emptied variable comes before the one outside the bounds. In the solution a variable outside
the bounds comes before one without a value. -/
theorem recordings_twiceRecorded :
    twiceRecorded.Reachable ∧ mixed.Covers twiceRecorded.vars ∧
    twiceRecorded.perform (.record mixed) =
      .ok (.recorded (.error (.uninstantiated ⟨1⟩)), twiceRecorded) ∧
    twiceRecorded.perform (.load (.ofList [(⟨0⟩, 1), (⟨1⟩, 9)])) =
      .ok (.recorded (.error (.valueOutOfRange ⟨1⟩ 9 0 3)), twiceRecorded) ∧
    ∃ n, twiceRecorded.perform (.load (.ofList [(⟨0⟩, 0), (⟨1⟩, 3), (⟨2⟩, 0)])) =
      .ok (.recorded (.ok ()), n) ∧ n.source = twiceRecorded.source := by
  obtain ⟨hrecord, hload, _⟩ := recording_all_or_nothing reachable_twiceRecorded
  refine ⟨reachable_twiceRecorded, covers_mixed, ?_, ?_, ?_⟩
  · refine ((hrecord mixed covers_mixed).error_iff _ _).mpr
      ⟨rfl, [⟨0⟩, ⟨0⟩], ⟨1⟩, [⟨2⟩], rfl, ?_, .missing ?_⟩
    · intro earlier hearlier
      obtain rfl : earlier = ⟨0⟩ := by simpa using hearlier
      exact ⟨1, rfl, by decide, by decide⟩
    · intro value hvalue
      cases hvalue
  · refine ((hload _).error_iff _ _).mpr
      ⟨rfl, [⟨0⟩, ⟨0⟩], ⟨1⟩, [⟨2⟩], rfl, ?_, .outside rfl (by decide)⟩
    intro earlier hearlier
    obtain rfl : earlier = ⟨0⟩ := by simpa using hearlier
    exact ⟨1, rfl, by decide, by decide⟩
  · have hall : ∀ var ∈ (#[⟨0⟩, ⟨0⟩, ⟨1⟩, ⟨2⟩] : Array VarId),
        twiceRecorded.Admits (fun var value =>
          (StoredSolution.ofList [(⟨0⟩, 0), (⟨1⟩, 3), (⟨2⟩, 0)]).value? var = some value) var := by
      simp only [List.mem_toArray, List.forall_mem_cons]
      exact ⟨⟨0, rfl, by decide, by decide⟩, ⟨0, rfl, by decide, by decide⟩,
        ⟨3, rfl, by decide, by decide⟩, ⟨0, rfl, by decide, by decide⟩, nofun⟩
    obtain ⟨n, hrun⟩ := (hload _).ok_iff.mpr hall
    exact ⟨n, hrun, ((hload _).taken n hrun).2.1⟩

/-! ## Through a solution -/

def asMissing : NeighborError → NeighborError
  | .uninstantiated var => .missingValue var
  | e => e

section

variable {reword : NeighborError → NeighborError}
  {read' : VarId → Checked (Except NeighborError Int32)}
  (hrange : ∀ var value, reword (.valueOutOfRange var value n.min n.max) =
    .valueOutOfRange var value n.min n.max)

include hrange

theorem checkRange_of_mapError (var : VarId) (answer : Except NeighborError Int32) :
    (answer.mapError reword).bind (n.checkRange var) =
      (answer.bind (n.checkRange var)).mapError reword := by
  cases answer with
  | error e => rfl
  | ok value =>
    change n.checkRange var value = (n.checkRange var value).mapError reword
    cases hchecked : n.checkRange var value with
    | error e =>
      obtain ⟨_, rfl⟩ := checkRange_eq_error_iff.mp hchecked
      rw [Except.mapError, hrange]
    | ok checked => rfl

theorem readValues_of_mapError {vars : List VarId}
    (hread : ∀ var ∈ vars, read' var = (read var).map (Except.mapError reword)) :
    n.readValues read' vars = (n.readValues read vars).map (Except.mapError reword) := by
  induction vars with
  | nil => rfl
  | cons var vars ih =>
    obtain ⟨hfirst, hlater⟩ := List.forall_mem_cons.mp hread
    cases hanswer : read var with
    | error fault =>
      rw [hanswer] at hfirst
      rw [readValues, readValues, hfirst, hanswer]
      rfl
    | ok answer =>
      rw [hanswer] at hfirst
      have hreworded := checkRange_of_mapError hrange var answer
      cases hchecked : answer.bind (n.checkRange var) with
      | error e =>
        rw [hchecked] at hreworded
        rw [readValues_cons_error hanswer hchecked, readValues_cons_error hfirst hreworded]
        rfl
      | ok value =>
        rw [hchecked] at hreworded
        rw [readValues_cons_ok hanswer hchecked, readValues_cons_ok hfirst hreworded, ih hlater]
        cases n.readValues read vars with
        | error fault => rfl
        | ok later => cases later <;> rfl

theorem recordWith_of_mapError
    (hread : ∀ var ∈ n.vars, read' var = (read var).map (Except.mapError reword)) :
    n.recordWith read' = (n.recordWith read).map (Except.mapError reword) := by
  have hvalues := readValues_of_mapError hrange
    fun var hvar => hread var (Array.mem_toList_iff.mp hvar)
  rw [recordWith, recordWith, hvalues]
  cases n.readValues read n.vars.toList with
  | error fault => rfl
  | ok result =>
    cases result with
    | error e => rfl
    | ok values =>
      simp only [Except.map, Except.mapError, Checked.ok_bind]
      cases n.takeSnapshot values.toArray <;> rfl

theorem perform_of_mapError {op' : Operation} {result : Except NeighborError Unit}
    (hreading : op.reading = some read) (hreading' : op'.reading = some read')
    (hread : ∀ var ∈ n.vars, read' var = (read var).map (Except.mapError reword))
    (hrun : n.perform op = .ok (.recorded result, n')) :
    n.perform op' = .ok (.recorded (result.mapError reword), n') := by
  rw [perform_of_reading hreading] at hrun
  rw [perform_of_reading hreading', recordWith_of_mapError hrange hread]
  cases hrecord : n.recordWith read with
  | error fault =>
    rw [hrecord] at hrun
    cases hrun
  | ok outcome =>
    rw [hrecord] at hrun
    cases outcome with
    | error e =>
      cases hrun
      rfl
    | ok taken =>
      cases hrun
      rfl

end

/-- A captured solution has the values of its model and words the lack of one its own way. -/
theorem storedValue_eq_modelValue {s : StoredSolution} {listed : List VarId} {d : Domain}
    (hrecord : StoredSolution.record m listed = .ok s) (hlisted : var ∈ listed)
    (hdomain : m.domain var = .ok d) :
    storedValue s var = (modelValue m var).map (Except.mapError asMissing) := by
  rcases answers_modelValue hdomain with ⟨value, hvalue, hread⟩ | ⟨hnone, hread⟩ <;>
    rcases answers_storedValue var hrecord with ⟨value', hvalue', hread'⟩ | ⟨hnone', hread'⟩
  · obtain rfl := Model.singleton_unique hvalue hvalue'.2
    rw [hread, hread']
    rfl
  · exact absurd ⟨hlisted, hvalue⟩ (hnone' value)
  · exact absurd hvalue'.2 (hnone value')
  · rw [hread, hread']
    rfl

/-- Recording a model and loading a solution that was captured in it, with all of the variables
among the captured ones, lead to the same neighborhood, or fail for the same variable and change
nothing. -/
theorem load_record_agrees (reachable : n.Reachable) {listed : List VarId}
    (hcovers : ∀ var ∈ listed, var.index < m.domains.size)
    (hlisted : ∀ var ∈ n.vars, var ∈ listed) :
    ∃ s result n', StoredSolution.record m listed = .ok s ∧
      n.perform (.record m) = .ok (.recorded result, n') ∧
      n.perform (.load s) = .ok (.recorded (result.mapError asMissing), n') ∧
      ∀ e, result = .error e → n' = n ∧ ∃ var ∈ n.vars, e = .uninstantiated var ∨
        ∃ value, e = .valueOutOfRange var value n.min n.max := by
  have h := reachable.settled
  have hcovered : m.Covers n.vars := fun var hvar => hcovers var (hlisted var hvar)
  have hdomains : ∀ var ∈ listed, ∃ d, m.domain var = .ok d := fun var hvar =>
    ⟨_, Model.domain_eq_ok_iff.mpr (Array.getElem?_eq_getElem (hcovers var hvar))⟩
  obtain ⟨s, hs⟩ := StoredSolution.exists_record hdomains
  have hagree : ∀ var ∈ n.vars,
      storedValue s var = (modelValue m var).map (Except.mapError asMissing) := by
    intro var hvar
    obtain ⟨d, hdomain⟩ := hdomains var (hlisted var hvar)
    exact storedValue_eq_modelValue hs (hlisted var hvar) hdomain
  have hrecord := h.allOrNothing_record hcovered
  obtain ⟨result, n', hrun⟩ := hrecord.decided
  refine ⟨s, result, n', hs, hrun, perform_of_mapError (fun _ _ => rfl) rfl rfl hagree hrun, ?_⟩
  rintro e rfl
  obtain ⟨hsame, before, var, after, hvars, _, hoffends⟩ := (hrecord.error_iff e n').mp hrun
  refine ⟨hsame, var, mem_vars_of_toList_eq hvars, ?_⟩
  cases hoffends with
  | missing _ => exact .inl rfl
  | outside _ _ => exact .inr ⟨_, rfl⟩

theorem load_record_mixed :
    twiceRecorded.Reachable ∧
    ∃ s, StoredSolution.record mixed [⟨2⟩, ⟨1⟩, ⟨0⟩, ⟨2⟩] = .ok s ∧
      twiceRecorded.perform (.record mixed) =
        .ok (.recorded (.error (.uninstantiated ⟨1⟩)), twiceRecorded) ∧
      twiceRecorded.perform (.load s) =
        .ok (.recorded (.error (.missingValue ⟨1⟩)), twiceRecorded) := by
  have hcovers : ∀ var ∈ ([⟨2⟩, ⟨1⟩, ⟨0⟩, ⟨2⟩] : List VarId), var.index < mixed.domains.size := by
    decide
  have hlisted : ∀ var ∈ twiceRecorded.vars, var ∈ ([⟨2⟩, ⟨1⟩, ⟨0⟩, ⟨2⟩] : List VarId) := by
    decide
  refine ⟨reachable_twiceRecorded, ?_⟩
  obtain ⟨s, result, n', hs, hrun, hload, hfailed⟩ :=
    load_record_agrees reachable_twiceRecorded hcovers hlisted
  have hanswer : (twiceRecorded.perform (.record mixed)).map Prod.fst =
      .ok (.recorded (.error (.uninstantiated ⟨1⟩))) := by
    decide +kernel
  rw [hrun] at hanswer
  cases hanswer
  obtain ⟨rfl, _⟩ := hfailed _ rfl
  exact ⟨s, hs, hrun, hload⟩

end Neighbor

end LargeNeighborhood
