import LargeNeighborhood.Neighbor
import LargeNeighborhood.Proofs.Policy.Settled
import Mathlib.Data.List.Forall2

/-!
# Recording values

A recording reads one value per variable, each inside the range of the neighborhood, and changes
nothing but the values and the policy. A recording that fails leaves no trace.
-/

namespace LargeNeighborhood.Neighbor

def Reads (n : Neighbor) (read : VarId → Checked (Except NeighborError Int32)) (var : VarId)
    (value : Int32) : Prop :=
  read var = .ok (.ok value) ∧ n.min ≤ value ∧ value ≤ n.max

/-- Why a variable cannot be recorded: nothing is read for it, or a value outside the range. -/
inductive Rejects (n : Neighbor) (read : VarId → Checked (Except NeighborError Int32))
    (var : VarId) : NeighborError → Prop
  | unread {e : NeighborError} (hread : read var = .ok (.error e)) : n.Rejects read var e
  | outside {value : Int32} (hread : read var = .ok (.ok value))
      (hrange : ¬ (n.min ≤ value ∧ value ≤ n.max)) :
      n.Rejects read var (.valueOutOfRange var value n.min n.max)

variable {n : Neighbor} {read : VarId → Checked (Except NeighborError Int32)}
  {reported : Reported} {e : NeighborError}

theorem checkRange_eq_ok_iff {var : VarId} {value checked : Int32} :
    n.checkRange var value = .ok checked ↔
      value = checked ∧ n.min ≤ checked ∧ checked ≤ n.max := by
  unfold checkRange
  by_cases hrange : value < n.min ∨ n.max < value
  · rw [if_pos hrange]
    constructor
    · intro h
      cases h
    · rintro ⟨rfl, hmin, hmax⟩
      rcases hrange with hlow | hhigh
      · exact absurd hmin (Int32.not_le.mpr hlow)
      · exact absurd hmax (Int32.not_le.mpr hhigh)
  · rw [not_or, Int32.not_lt, Int32.not_lt] at hrange
    rw [if_neg (by rwa [not_or, Int32.not_lt, Int32.not_lt])]
    constructor
    · intro h
      cases h
      exact ⟨rfl, hrange⟩
    · rintro ⟨rfl, _⟩
      rfl

theorem checkRange_eq_error_iff {var : VarId} {value : Int32} :
    n.checkRange var value = .error e ↔
      ¬ (n.min ≤ value ∧ value ≤ n.max) ∧ e = .valueOutOfRange var value n.min n.max := by
  rw [not_and_or, Int32.not_le, Int32.not_le, checkRange]
  split
  · rename_i hrange
    constructor
    · intro h
      cases h
      exact ⟨hrange, rfl⟩
    · rintro ⟨_, rfl⟩
      rfl
  · rename_i hrange
    constructor
    · intro h
      cases h
    · intro h
      exact absurd h.1 hrange

theorem reads_iff {var : VarId} {value : Int32} :
    n.Reads read var value ↔
      ∃ answer, read var = .ok answer ∧ answer.bind (n.checkRange var) = .ok value := by
  constructor
  · rintro ⟨hread, hrange⟩
    exact ⟨_, hread, checkRange_eq_ok_iff.mpr ⟨rfl, hrange⟩⟩
  · rintro ⟨answer, hread, hchecked⟩
    cases answer with
    | error e => cases hchecked
    | ok read =>
      obtain ⟨rfl, hrange⟩ := checkRange_eq_ok_iff.mp hchecked
      exact ⟨hread, hrange⟩

theorem rejects_iff {var : VarId} :
    n.Rejects read var e ↔
      ∃ answer, read var = .ok answer ∧ answer.bind (n.checkRange var) = .error e := by
  constructor
  · intro h
    cases h with
    | unread hread => exact ⟨_, hread, rfl⟩
    | outside hread hrange => exact ⟨_, hread, checkRange_eq_error_iff.mpr ⟨hrange, rfl⟩⟩
  · rintro ⟨answer, hread, hchecked⟩
    cases answer with
    | error e' =>
      cases hchecked
      exact .unread hread
    | ok value =>
      obtain ⟨hrange, rfl⟩ := checkRange_eq_error_iff.mp hchecked
      exact .outside hread hrange

theorem readValues_cons_error {var : VarId} {vars : List VarId}
    {answer : Except NeighborError Int32}
    {e : NeighborError} (hread : read var = .ok answer)
    (hchecked : answer.bind (n.checkRange var) = .error e) :
    n.readValues read (var :: vars) = .ok (.error e) := by
  rw [readValues, hread, Checked.ok_bind, hchecked]
  rfl

theorem readValues_cons_ok {var : VarId} {vars : List VarId} {answer : Except NeighborError Int32}
    {value : Int32} (hread : read var = .ok answer)
    (hchecked : answer.bind (n.checkRange var) = .ok value) :
    n.readValues read (var :: vars) =
      (n.readValues read vars).map fun later => later.map (value :: ·) := by
  rw [readValues, hread, Checked.ok_bind, hchecked]
  cases n.readValues read vars <;> rfl

theorem readValues_eq_ok_iff {vars : List VarId} {values : List Int32} :
    n.readValues read vars = .ok (.ok values) ↔ List.Forall₂ (n.Reads read) vars values := by
  induction vars generalizing values with
  | nil =>
    rw [readValues, List.forall₂_nil_left_iff]
    constructor
    · intro h
      cases h
      rfl
    · rintro rfl
      rfl
  | cons var vars ih =>
    rw [List.forall₂_cons_left_iff]
    constructor
    · intro h
      obtain ⟨answer, hread, _⟩ := Checked.bind_eq_ok_iff.mp h
      cases hchecked : answer.bind (n.checkRange var) with
      | error e =>
        rw [readValues_cons_error hread hchecked] at h
        cases h
      | ok value =>
        rw [readValues_cons_ok hread hchecked, Checked.map_eq_ok_iff] at h
        obtain ⟨later, hlater, hvalues⟩ := h
        cases later with
        | error e => cases hvalues
        | ok rest =>
          cases hvalues
          exact ⟨value, rest, reads_iff.mpr ⟨answer, hread, hchecked⟩, ih.mp hlater, rfl⟩
    · rintro ⟨value, rest, hreads, hrest, rfl⟩
      obtain ⟨answer, hread, hchecked⟩ := reads_iff.mp hreads
      rw [readValues_cons_ok hread hchecked, ih.mpr hrest]
      rfl

/-- The first variable that cannot be recorded decides the error. -/
theorem readValues_eq_error_iff {vars : List VarId} :
    n.readValues read vars = .ok (.error e) ↔ ∃ before var after, vars = before ++ var :: after ∧
      (∀ earlier ∈ before, ∃ value, n.Reads read earlier value) ∧ n.Rejects read var e := by
  induction vars with
  | nil =>
    constructor
    · intro h
      cases h
    · rintro ⟨before, var, after, hvars, _⟩
      simp at hvars
  | cons first rest ih =>
    constructor
    · intro h
      obtain ⟨answer, hread, _⟩ := Checked.bind_eq_ok_iff.mp h
      cases hchecked : answer.bind (n.checkRange first) with
      | error e' =>
        rw [readValues_cons_error hread hchecked] at h
        cases h
        exact ⟨[], first, rest, rfl, by simp, rejects_iff.mpr ⟨answer, hread, hchecked⟩⟩
      | ok value =>
        rw [readValues_cons_ok hread hchecked, Checked.map_eq_ok_iff] at h
        obtain ⟨later, hlater, hresult⟩ := h
        cases later with
        | ok values => cases hresult
        | error e' =>
          cases hresult
          -- the first value was read, so the later refusal is still the first one
          obtain ⟨before, var, after, rfl, hbefore, hrejects⟩ := ih.mp hlater
          have hfirst : ∃ value, n.Reads read first value :=
            ⟨value, reads_iff.mpr ⟨answer, hread, hchecked⟩⟩
          exact ⟨first :: before, var, after, rfl, List.forall_mem_cons.mpr ⟨hfirst, hbefore⟩,
            hrejects⟩
    · rintro ⟨before, var, after, hvars, hbefore, hrejects⟩
      cases before with
      | nil =>
        obtain ⟨rfl, rfl⟩ := List.cons.inj hvars
        obtain ⟨answer, hread, hchecked⟩ := rejects_iff.mp hrejects
        exact readValues_cons_error hread hchecked
      | cons earlier before =>
        obtain ⟨rfl, rfl⟩ := List.cons.inj hvars
        obtain ⟨⟨value, hreads⟩, hbefore⟩ := List.forall_mem_cons.mp hbefore
        obtain ⟨answer, hread, hchecked⟩ := reads_iff.mp hreads
        rw [readValues_cons_ok hread hchecked, ih.mpr ⟨before, var, after, rfl, hbefore, hrejects⟩]
        rfl

theorem mem_vars_of_toList_eq {var : VarId} {before after : List VarId}
    (hvars : n.vars.toList = before ++ var :: after) : var ∈ n.vars := by
  rw [← Array.mem_toList_iff, hvars]
  exact List.mem_append_right _ List.mem_cons_self

theorem exists_readValues {vars : List VarId}
    (hread : ∀ var ∈ vars, ∃ answer, read var = .ok answer) :
    ∃ result, n.readValues read vars = .ok result := by
  induction vars with
  | nil => exact ⟨_, rfl⟩
  | cons var vars ih =>
    obtain ⟨answer, hanswer⟩ := hread var List.mem_cons_self
    obtain ⟨later, hlater⟩ := ih fun var hvar => hread var (List.mem_cons_of_mem _ hvar)
    cases hchecked : answer.bind (n.checkRange var) with
    | error e => exact ⟨_, readValues_cons_error hanswer hchecked⟩
    | ok value =>
      rw [readValues_cons_ok hanswer hchecked, hlater]
      exact ⟨_, rfl⟩

theorem takeSnapshot_eq_ok_iff {values : Array Int32} :
    n.takeSnapshot values = .ok reported ↔
      ∃ regrouped, n.policy.snapshot values = .ok regrouped ∧
        reported = ⟨{ n with values := values, policy := regrouped.policy }, regrouped.events⟩ := by
  rw [takeSnapshot, Checked.bind_eq_ok_iff]
  simp only [pure, Except.pure, Except.ok.injEq, eq_comm]

theorem source_takeSnapshot {values : Array Int32} (hrun : n.takeSnapshot values = .ok reported) :
    reported.neighbor.source = n.source := by
  obtain ⟨regrouped, _, rfl⟩ := takeSnapshot_eq_ok_iff.mp hrun
  rfl

theorem schedule_takeSnapshot {values : Array Int32}
    (hrun : n.takeSnapshot values = .ok reported) :
    reported.neighbor.policy.schedule =
      n.policy.schedule.reset reported.neighbor.policy.groups.usedValues := by
  obtain ⟨regrouped, hregrouped, rfl⟩ := takeSnapshot_eq_ok_iff.mp hrun
  exact Policy.schedule_snapshot hregrouped

theorem recordWith_eq_error_iff :
    n.recordWith read = .ok (.error e) ↔ n.readValues read n.vars.toList = .ok (.error e) := by
  rw [recordWith, Checked.bind_eq_ok_iff]
  constructor
  · rintro ⟨result, hread, hresult⟩
    cases result with
    | error e' =>
      cases hresult
      exact hread
    | ok values =>
      obtain ⟨taken, _, hresult⟩ := Checked.bind_eq_ok_iff.mp hresult
      cases hresult
  · intro hread
    exact ⟨_, hread, rfl⟩

theorem recordWith_eq_ok_iff :
    n.recordWith read = .ok (.ok reported) ↔
      ∃ values, List.Forall₂ (n.Reads read) n.vars.toList values ∧
        n.takeSnapshot values.toArray = .ok reported := by
  unfold recordWith
  rw [Checked.bind_eq_ok_iff]
  constructor
  · rintro ⟨result, hread, h⟩
    cases result with
    | error e => cases h
    | ok values =>
      obtain ⟨taken, htaken, hresult⟩ := Checked.bind_eq_ok_iff.mp h
      cases hresult
      exact ⟨values, readValues_eq_ok_iff.mp hread, htaken⟩
  · rintro ⟨values, hreads, htaken⟩
    refine ⟨.ok values, readValues_eq_ok_iff.mpr hreads, ?_⟩
    simp only [htaken, bind, Except.bind]
    rfl

/-- What a neighborhood has recorded, as it is reported. -/
def snapshotEvent (n : Neighbor) : Event :=
  .snapshot n.values.size n.policy.groups.usedValues n.policy.schedule.fixedValues

/-- A recording that succeeds reports the state it leaves, and nothing else. -/
theorem events_recordWith (hrun : n.recordWith read = .ok (.ok reported)) :
    reported.events = [reported.neighbor.snapshotEvent] := by
  obtain ⟨values, _, htaken⟩ := recordWith_eq_ok_iff.mp hrun
  obtain ⟨regrouped, hregrouped, rfl⟩ := takeSnapshot_eq_ok_iff.mp htaken
  obtain ⟨groups, _, hgroups⟩ := Checked.bind_eq_ok_iff.mp hregrouped
  cases hgroups
  rfl

end LargeNeighborhood.Neighbor
