import LargeNeighborhood.Proofs.Model.Domain
import LargeNeighborhood.Proofs.Neighbor.Cycle

/-!
# The span of a neighborhood

The bounds of a new neighborhood are the hull of the domains of its variables. A recording that
takes its values from inside the bounds can fail only for a variable without a value.
-/

namespace LargeNeighborhood

theorem exists_mem_of_forall₂ {R : α → β → Prop} {xs : List α} {ys : List β}
    (h : List.Forall₂ R xs ys) {x : α} (hx : x ∈ xs) : ∃ y ∈ ys, R x y := by
  induction h with
  | nil => cases hx
  | cons hfirst _ ih =>
    rcases List.mem_cons.mp hx with rfl | hmem
    · exact ⟨_, List.mem_cons_self, hfirst⟩
    · obtain ⟨y, hy, hxy⟩ := ih hmem
      exact ⟨y, List.mem_cons_of_mem _ hy, hxy⟩

theorem Checked.forall₂_of_mapM {f : α → Checked β} {xs : List α} {ys : List β}
    (h : xs.mapM f = .ok ys) : List.Forall₂ (fun x y => f x = .ok y) xs ys := by
  induction xs generalizing ys with
  | nil =>
    cases h
    exact .nil
  | cons x xs ih =>
    rw [List.mapM_cons, Checked.bind_eq_ok_iff] at h
    obtain ⟨y, hy, h⟩ := h
    obtain ⟨rest, hrest, hys⟩ := Checked.bind_eq_ok_iff.mp h
    cases hys
    exact .cons hy (ih hrest)

namespace Neighbor

variable {n n' : Neighbor} {m : Model} {vars : Array VarId} {settings : Settings} {seed : UInt64}
  {read : VarId → Checked (Except NeighborError Int32)} {holds : VarId → Int32 → Prop}
  {missing : VarId → NeighborError} {e : NeighborError}

/-! ## Bounds of a new neighborhood -/

theorem bounds_of_valueRange {min max : Int32} (h : valueRange m vars = .ok (.ok (min, max))) :
    ∀ var ∈ vars, ∃ d, m.domain var = .ok d ∧ min ≤ d.lower ∧ d.upper ≤ max := by
  obtain ⟨lowers, hlowers, h⟩ := Checked.bind_eq_ok_iff.mp h
  obtain ⟨uppers, huppers, h⟩ := Checked.bind_eq_ok_iff.mp h
  intro var hvar
  have hmem := Array.mem_toList_iff.mpr hvar
  split at h
  · rename_i least greatest hmin hmax
    cases h
    obtain ⟨lower, hlower, hread⟩ :=
      exists_mem_of_forall₂ (Checked.forall₂_of_mapM hlowers) hmem
    obtain ⟨upper, hupper, hread'⟩ :=
      exists_mem_of_forall₂ (Checked.forall₂_of_mapM huppers) hmem
    obtain ⟨d, hdomain, hlow⟩ := Checked.bind_eq_ok_iff.mp hread
    obtain ⟨d', hdomain', hhigh⟩ := Checked.bind_eq_ok_iff.mp hread'
    obtain rfl : d = d' := Except.ok.inj (hdomain.symm.trans hdomain')
    cases hlow
    cases hhigh
    exact ⟨d, hdomain, (List.min?_eq_some_iff.mp hmin).2 _ hlower,
      (List.max?_eq_some_iff.mp hmax).2 _ hupper⟩
  · cases h

/-- A new neighborhood spans every value its variables can take. -/
theorem span_of_create (h : create m vars settings seed = .ok (.ok n)) :
    n.vars = vars ∧ ∀ var ∈ vars, ∃ d, m.domain var = .ok d ∧
      ∀ value ∈ d.values, n.min ≤ value ∧ value ≤ n.max := by
  obtain ⟨min, max, p, hrange, hpolicy, hn⟩ := create_eq_ok h
  obtain ⟨_, rfl⟩ := ofPolicy_eq_ok hn
  obtain ⟨_, hgroups, hle, _⟩ := Policy.settled_of_create hpolicy
  have hbounds : p.bounds = (min, max) := by
    rw [Policy.bounds, hgroups, ValueGroups.max_empty hle]
    rfl
  refine ⟨rfl, ?_⟩
  intro var hvar
  obtain ⟨d, hdomain, hlower, hupper⟩ := bounds_of_valueRange hrange var hvar
  refine ⟨d, hdomain, ?_⟩
  intro value hvalue
  rw [hbounds]
  exact ⟨Int32.le_trans hlower (Domain.lower_le hvalue),
    Int32.le_trans (Domain.le_upper hvalue) hupper⟩

/-! ## Recordings inside the bounds -/

/-- The result of a recording that takes the values which hold for some variables. -/
structure Records (vars : Array VarId) (holds : VarId → Int32 → Prop)
    (missing : VarId → NeighborError) (result : Except NeighborError Reported) : Prop where
  error : ∀ e, result = .error e → ∃ var ∈ vars, e = missing var ∧ ∀ value, ¬ holds var value
  ok_iff : (∃ reported, result = .ok reported) ↔ ∀ var ∈ vars, ∃ value, holds var value
  values : ∀ reported, result = .ok reported →
    List.Forall₂ holds vars.toList reported.neighbor.values.toList
  events : ∀ reported, result = .ok reported →
    reported.events = [reported.neighbor.snapshotEvent]

theorem Records.of_missing {var : VarId} (hvar : var ∈ vars) (hnone : ∀ value, ¬ holds var value) :
    Records vars holds missing (.error (missing var)) := by
  refine ⟨?_, ⟨?_, ?_⟩, ?_, ?_⟩
  · intro e he
    cases he
    exact ⟨var, hvar, rfl, hnone⟩
  · rintro ⟨reported, hreported⟩
    cases hreported
  · intro hall
    obtain ⟨value, hvalue⟩ := hall var hvar
    exact absurd hvalue (hnone value)
  · intro reported hreported
    cases hreported
  · intro reported hreported
    cases hreported

theorem Records.of_forall₂ {reported : Reported}
    (hholds : List.Forall₂ holds vars.toList reported.neighbor.values.toList)
    (hevents : reported.events = [reported.neighbor.snapshotEvent]) :
    Records vars holds missing (.ok reported) := by
  refine ⟨?_, ⟨fun _ => ?_, fun _ => ⟨reported, rfl⟩⟩, ?_, ?_⟩
  · intro e he
    cases he
  · intro var hvar
    obtain ⟨value, _, hvalue⟩ := exists_mem_of_forall₂ hholds (Array.mem_toList_iff.mpr hvar)
    exact ⟨value, hvalue⟩
  · intro taken htaken
    cases htaken
    exact hholds
  · intro taken htaken
    cases htaken
    exact hevents

theorem Records.ne_valueOutOfRange {result : Except NeighborError Reported}
    (h : Records vars holds missing result)
    (hmissing : ∀ var other value min max, missing var ≠ .valueOutOfRange other value min max) :
    ∀ var value min max, result ≠ .error (.valueOutOfRange var value min max) := by
  intro var value min max hresult
  obtain ⟨other, _, hother, _⟩ := h.error _ hresult
  exact hmissing other var value min max hother.symm

def Answers (read : VarId → Checked (Except NeighborError Int32)) (holds : VarId → Int32 → Prop)
    (missing : VarId → NeighborError) (var : VarId) : Prop :=
  (∃ value, holds var value ∧ read var = .ok (.ok value)) ∨
    ((∀ value, ¬ holds var value) ∧ read var = .ok (.error (missing var)))

theorem Answers.exists_answer {var : VarId} (h : Answers read holds missing var) :
    ∃ answer, read var = .ok answer := by
  rcases h with ⟨value, _, hvalue⟩ | ⟨_, hvalue⟩
  · exact ⟨_, hvalue⟩
  · exact ⟨_, hvalue⟩

theorem Answers.holds_of_reads {var : VarId} {value : Int32} (h : Answers read holds missing var)
    (hreads : n.Reads read var value) : holds var value := by
  rcases h with ⟨held, hholds, hread⟩ | ⟨_, hread⟩
  · have hsame := Except.ok.inj (Except.ok.inj (hread.symm.trans hreads.1))
    rwa [← hsame]
  · have hsame := Except.ok.inj (hread.symm.trans hreads.1)
    cases hsame

theorem forall₂_holds {vars : List VarId} {values : List Int32}
    (hread : ∀ var ∈ vars, Answers read holds missing var)
    (hreads : List.Forall₂ (n.Reads read) vars values) : List.Forall₂ holds vars values := by
  rw [List.forall₂_iff_zip] at hreads ⊢
  refine ⟨hreads.1, ?_⟩
  intro var value hmem
  exact (hread var (List.of_mem_zip hmem).1).holds_of_reads (hreads.2 hmem)

/-- What is wrong with a variable that cannot be recorded: it has no value, or one outside the
bounds. -/
inductive Offends (n : Neighbor) (holds : VarId → Int32 → Prop) (missing : VarId → NeighborError)
    (var : VarId) : NeighborError → Prop
  | missing (hnone : ∀ value, ¬ holds var value) : n.Offends holds missing var (missing var)
  | outside {value : Int32} (hvalue : holds var value)
      (hrange : ¬ (n.min ≤ value ∧ value ≤ n.max)) :
      n.Offends holds missing var (.valueOutOfRange var value n.min n.max)

theorem Answers.offends_of_rejects {var : VarId} (h : Answers read holds missing var)
    (hrejects : n.Rejects read var e) : n.Offends holds missing var e := by
  rcases h with ⟨value, hholds, hvalue⟩ | ⟨hnone, hvalue⟩
  · cases hrejects with
    | unread hread => cases hvalue.symm.trans hread
    | outside hread hrange =>
      cases hvalue.symm.trans hread
      exact .outside hholds hrange
  · cases hrejects with
    | unread hread =>
      cases hvalue.symm.trans hread
      exact .missing hnone
    | outside hread _ => cases hvalue.symm.trans hread

theorem Settled.exists_records (h : n.Settled)
    (hread : ∀ var ∈ n.vars, Answers read holds missing var)
    (hrange : ∀ var ∈ n.vars, ∀ value, holds var value → n.min ≤ value ∧ value ≤ n.max) :
    ∃ result, n.recordWith read = .ok result ∧ Records n.vars holds missing result := by
  obtain ⟨result, hresult⟩ := h.exists_recordWith fun var hvar => (hread var hvar).exists_answer
  refine ⟨result, hresult, ?_⟩
  cases result with
  | error e =>
    obtain ⟨before, var, after, hvars, _, hrejects⟩ :=
      readValues_eq_error_iff.mp (recordWith_eq_error_iff.mp hresult)
    have hvar := mem_vars_of_toList_eq hvars
    cases (hread var hvar).offends_of_rejects hrejects with
    | missing hnone => exact .of_missing hvar hnone
    | outside hvalue hout => exact absurd (hrange var hvar _ hvalue) hout
  | ok reported =>
    obtain ⟨values, hreads, htaken⟩ := recordWith_eq_ok_iff.mp hresult
    refine Records.of_forall₂ ?_ (events_recordWith hresult)
    rw [(h.takeSnapshot hreads htaken).2.1]
    exact forall₂_holds (fun var hvar => hread var (Array.mem_toList_iff.mp hvar)) hreads

end Neighbor

end LargeNeighborhood
