import LargeNeighborhood.Proofs.Neighbor.Run

/-!
# Recordings forget

A recording that succeeds puts a neighborhood into a state that its variables, bounds and settings
and the recorded values determine. Of the history before it only the random stream is left, so
neighborhoods with different pasts behave alike from there on.
-/

namespace LargeNeighborhood.Neighbor

variable {n n' : Neighbor} {op : Operation} {ops : List Operation} {answer : Answer}
  {answers : List Answer}

theorem perform_eq_snapshot_iff :
    n.perform op = .ok (.recorded (.ok ()), n') ↔
      ∃ read reported, op.reading = some read ∧ n.recordWith read = .ok (.ok reported) ∧
        reported.neighbor = n' := by
  rw [perform_eq_ok_iff]
  constructor
  · intro h
    cases h with
    | recorded hread hrun => exact ⟨_, _, hread, hrun, rfl⟩
  · rintro ⟨read, reported, hread, hrun, rfl⟩
    exact .recorded hread hrun

/-! ## What no operation changes -/

theorem Settled.settings_perform (h : n.Settled) (hrun : n.perform op = .ok (answer, n')) :
    n'.policy.schedule.settings = n.policy.schedule.settings := by
  cases perform_eq_ok_iff.mp hrun with
  | init m => rfl
  | refused _ _ => rfl
  | recorded _ htaken =>
    obtain ⟨values, _, htaken⟩ := recordWith_eq_ok_iff.mp htaken
    rw [schedule_takeSnapshot htaken]
    rfl
  | fix hcycle =>
    obtain ⟨paced, progress, hpaced, _, rfl⟩ := h.fix_eq_ok_iff.mp hcycle
    obtain ⟨step, hstep, rfl⟩ := Policy.tick_eq_ok_iff.mp hpaced
    exact (Schedule.tick_keeps hstep).1
  | restrictLess hrelaxed =>
    obtain ⟨paced, hpaced, hrelaxed⟩ := Checked.bind_eq_ok_iff.mp hrelaxed
    cases hrelaxed
    obtain ⟨step, hstep, rfl⟩ := Policy.relax_eq_ok_iff.mp hpaced
    exact (Schedule.update_keeps hstep).1

theorem Settled.settings_run (h : n.Settled) (hrun : n.run ops = .ok (answers, n')) :
    n'.policy.schedule.settings = n.policy.schedule.settings := by
  induction ops generalizing n answers with
  | nil =>
    cases hrun
    rfl
  | cons op ops ih =>
    obtain ⟨answer, rest, next, hop, hrest, rfl⟩ := run_cons_eq_ok_iff.mp hrun
    exact (ih (h.perform hop).settled hrest).trans (h.settings_perform hop)

/-! ## Two pasts -/

theorem SameScope.symm (h : n.SameScope n') : n'.SameScope n :=
  ⟨h.1.symm, h.2.1.symm, h.2.2.symm⟩

theorem Settled.sameRange (h : n.Settled) (h' : n'.Settled) (hscope : n.SameScope n') :
    n.policy.groups.SameRange n'.policy.groups := by
  have hbounds := h.bounds_eq
  have hbounds' := h'.bounds_eq
  rw [hscope.2.1, hscope.2.2, ← hbounds, Policy.bounds, Policy.bounds, Prod.mk.injEq] at hbounds'
  exact ValueGroups.sameRange_of_bounds h.policy.indexes.fits h'.policy.indexes.fits hbounds'.1
    hbounds'.2

variable {a b a' b' : Neighbor} {reported reported' : Reported}

/-- The recorded values decide the state after a recording, up to the random stream. -/
theorem Settled.takeSnapshot_unique (ha : a.Settled) (hb : b.Settled) (hscope : a.SameScope b)
    (hsettings : b.policy.schedule.settings = a.policy.schedule.settings) {values : Array Int32}
    (hrun : a.takeSnapshot values = .ok reported) (hrun' : b.takeSnapshot values = .ok reported') :
    reported' = { reported with neighbor := { reported.neighbor with source := b.source } } := by
  obtain ⟨regrouped, hregrouped, rfl⟩ := takeSnapshot_eq_ok_iff.mp hrun
  obtain ⟨regrouped', hregrouped', rfl⟩ := takeSnapshot_eq_ok_iff.mp hrun'
  obtain rfl : regrouped' = regrouped := ha.policy.snapshot_unique hb.policy
    (ha.sameRange hb hscope) hsettings hregrouped hregrouped'
  obtain ⟨hvars, hmin, hmax⟩ := hscope
  rw [hvars, hmin, hmax]

theorem Settled.recordWith_again (ha : a.Settled)
    {read : VarId → Checked (Except NeighborError Int32)}
    (hrun : a.recordWith read = .ok (.ok reported)) :
    reported.neighbor.recordWith read = .ok (.ok reported) := by
  obtain ⟨hsettled, _, hscope, _⟩ := ha.recordWith hrun
  obtain ⟨values, hreads, htaken⟩ := recordWith_eq_ok_iff.mp hrun
  have hvalues := (ha.takeSnapshot hreads htaken).2.1
  -- values that are recorded lie in the range, so taking them again cannot fault
  have hrange := hsettled.inRange
  rw [hvalues] at hrange
  obtain ⟨again, hagain⟩ := hsettled.exists_takeSnapshot hrange
  have hsettings := congrArg Schedule.settings (schedule_takeSnapshot htaken)
  obtain rfl : again = reported :=
    ha.takeSnapshot_unique hsettled hscope hsettings htaken hagain
  refine recordWith_eq_ok_iff.mpr ⟨values, ?_, hagain⟩
  have hsame : again.neighbor.Reads read = a.Reads read := by
    funext var value
    rw [Reads, Reads, hscope.2.1, hscope.2.2]
  rwa [hsame, hscope.1]

/-- After a recording nothing but the random stream is left of the past. Two neighborhoods of the
same variables, bounds and settings that have recorded the same values are equal but for their
streams, whatever happened to them before, and go the same way from equal streams. Recording a
solution again changes nothing. -/
theorem snapshot_forgets_history {a₀ b₀ : Neighbor} (hnewA : a₀.IsNew) (hnewB : b₀.IsNew)
    (hscope : a₀.SameScope b₀)
    (hsettings : b₀.policy.schedule.settings = a₀.policy.schedule.settings)
    {pastA pastB : List Operation} {answersA answersB : List Answer}
    (hpastA : a₀.run pastA = .ok (answersA, a)) (hpastB : b₀.run pastB = .ok (answersB, b))
    {opA opB : Operation} (hrecordA : a.perform opA = .ok (.recorded (.ok ()), a'))
    (hrecordB : b.perform opB = .ok (.recorded (.ok ()), b')) (hvalues : a'.values = b'.values) :
    b' = { a' with source := b.source } ∧ a'.source = a.source ∧
      (∀ (source : Random.Stream) (ops : List Operation),
        { a' with source := source }.run ops = { b' with source := source }.run ops) ∧
      a'.perform opA = .ok (.recorded (.ok ()), a') := by
  obtain ⟨hsettledA, hscopeA, _⟩ := hnewA.settled.1.run hpastA
  obtain ⟨hsettledB, hscopeB, _⟩ := hnewB.settled.1.run hpastB
  have hscope' : a.SameScope b := hscopeA.symm.trans (hscope.trans hscopeB)
  have hsettings' : b.policy.schedule.settings = a.policy.schedule.settings := by
    rw [hnewB.settled.1.settings_run hpastB, hsettings, hnewA.settled.1.settings_run hpastA]
  obtain ⟨readA, reportedA, hreadA, hrunA, rfl⟩ := perform_eq_snapshot_iff.mp hrecordA
  obtain ⟨readB, reportedB, hreadB, hrunB, rfl⟩ := perform_eq_snapshot_iff.mp hrecordB
  obtain ⟨valuesA, hreadsA, htakenA⟩ := recordWith_eq_ok_iff.mp hrunA
  obtain ⟨valuesB, hreadsB, htakenB⟩ := recordWith_eq_ok_iff.mp hrunB
  rw [(hsettledA.takeSnapshot hreadsA htakenA).2.1, (hsettledB.takeSnapshot hreadsB htakenB).2.1]
    at hvalues
  rw [← hvalues] at htakenB
  have hsame := hsettledA.takeSnapshot_unique hsettledB hscope' hsettings' htakenA htakenB
  have hstate := congrArg Reported.neighbor hsame
  refine ⟨hstate, source_takeSnapshot htakenA, ?_, ?_⟩
  · intro source ops
    rw [hstate]
  · exact perform_eq_snapshot_iff.mpr ⟨readA, _, hreadA, hsettledA.recordWith_again hrunA, rfl⟩

def twiceReseeded : Neighbor :=
  { twice with source := .ofSeed 7 }

theorem isNew_twiceReseeded : twiceReseeded.IsNew := by
  have hcreate : create (.ofBounds 3 0 3) #[⟨0⟩, ⟨0⟩, ⟨1⟩, ⟨2⟩] .standard 7 =
      .ok (.ok twiceReseeded) := by
    decide +kernel
  exact .create hcreate

/-- One search has been through failures and loads a solution, the other one is new and records it
from a model. -/
theorem snapshot_forgets_upsAndDowns :
    twice.IsNew ∧ twiceReseeded.IsNew ∧
    ∃ answers a a' b', twice.run upsAndDowns = .ok (answers, a) ∧
      a.perform (.load (.ofList [(⟨0⟩, 2), (⟨1⟩, 0), (⟨2⟩, 2)])) = .ok (.recorded (.ok ()), a') ∧
      twiceReseeded.perform
          (.record ((Model.ofBounds 3 2 2).setDomain ⟨1⟩ (.singleton 0))) =
        .ok (.recorded (.ok ()), b') ∧
      a'.values = #[2, 2, 0, 2] ∧ b' = { a' with source := .ofSeed 7 } ∧
      a'.perform (.load (.ofList [(⟨0⟩, 2), (⟨1⟩, 0), (⟨2⟩, 2)])) =
        .ok (.recorded (.ok ()), a') := by
  refine ⟨isNew_twice, isNew_twiceReseeded, ?_⟩
  have hreplayA : ((twice.run upsAndDowns >>= fun result =>
      result.2.perform (.load (.ofList [(⟨0⟩, 2), (⟨1⟩, 0), (⟨2⟩, 2)]))).map
        fun result => (result.1, result.2.values)) = .ok (.recorded (.ok ()), #[2, 2, 0, 2]) := by
    decide +kernel
  have hreplayB : (twiceReseeded.perform
      (.record ((Model.ofBounds 3 2 2).setDomain ⟨1⟩ (.singleton 0)))).map
        (fun result => (result.1, result.2.values)) = .ok (.recorded (.ok ()), #[2, 2, 0, 2]) := by
    decide +kernel
  obtain ⟨⟨_, a'⟩, hrun, hvaluesA⟩ := Checked.map_eq_ok_iff.mp hreplayA
  obtain ⟨⟨answers, a⟩, hpast, hrecordA⟩ := Checked.bind_eq_ok_iff.mp hrun
  obtain ⟨⟨_, b'⟩, hrecordB, hvaluesB⟩ := Checked.map_eq_ok_iff.mp hreplayB
  obtain ⟨rfl, hvaluesA⟩ := Prod.mk.inj hvaluesA
  obtain ⟨rfl, hvaluesB⟩ := Prod.mk.inj hvaluesB
  have hnothing : twiceReseeded.run [] = .ok ([], twiceReseeded) := rfl
  obtain ⟨hstate, _, _, hagain⟩ :=
    snapshot_forgets_history isNew_twice isNew_twiceReseeded ⟨rfl, rfl, rfl⟩ rfl hpast hnothing
      hrecordA hrecordB (hvaluesA.trans hvaluesB.symm)
  exact ⟨answers, a, a', b', hpast, hrecordA, hrecordB, hvaluesA, hstate, hagain⟩

end LargeNeighborhood.Neighbor
