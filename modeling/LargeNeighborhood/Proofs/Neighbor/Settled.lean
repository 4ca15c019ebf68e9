import LargeNeighborhood.Config.Basic
import LargeNeighborhood.Proofs.Neighbor.Snapshot

/-!
# Neighborhoods between operations

The policy of a neighborhood is settled for its recorded values, and a variable that is listed twice
has one recorded value. New neighborhoods are settled and recordings keep them so.
-/

namespace LargeNeighborhood

theorem getElem?_of_forall₂ {R : α → β → Prop} {xs : List α} {ys : List β}
    (h : List.Forall₂ R xs ys) (i : Nat) :
    (xs[i]? = none ∧ ys[i]? = none) ∨ ∃ x y, xs[i]? = some x ∧ ys[i]? = some y ∧ R x y := by
  induction h generalizing i with
  | nil => exact .inl ⟨rfl, rfl⟩
  | @cons x y xs ys hxy _ ih =>
    cases i with
    | zero => exact .inr ⟨x, y, rfl, rfl, hxy⟩
    | succ i => exact ih i

namespace Neighbor

/-- Between operations: the policy groups the recorded values inside the bounds, and equal variables
have equal values. -/
structure Settled (n : Neighbor) : Prop where
  vars_ne : n.vars ≠ #[]
  policy : n.policy.Settled n.values.toList
  bounds_eq : n.policy.bounds = (n.min, n.max)
  size_eq : n.values = #[] ∨ n.values.size = n.vars.size
  agree : ∀ i j : Nat, n.vars[i]? = n.vars[j]? → n.values[i]? = n.values[j]?

def SameScope (n n' : Neighbor) : Prop :=
  n'.vars = n.vars ∧ n'.min = n.min ∧ n'.max = n.max

/-- A neighborhood as it is made, before any operation. -/
inductive IsNew : Neighbor → Prop
  | create {m : Model} {vars : Array VarId} {settings : Settings} {seed : UInt64} {n : Neighbor}
    (h : create m vars settings seed = .ok (.ok n)) : IsNew n
  | build {c : Config} {freshSeed : UInt64} {m : Model} {vars : Array VarId} {n : Neighbor}
    {events : List Event} (h : c.build freshSeed m vars = .ok (.ok n, events)) : IsNew n
  | around {min max : Int32} {settings : Settings} {p : Policy} {vars : Array VarId}
    {seed : UInt64} {n : Neighbor} (hpolicy : Policy.create min max settings = .ok p)
    (h : ofPolicy vars p seed = .ok n) : IsNew n

variable {n : Neighbor} {reported : Reported} {m : Model}
  {read : VarId → Checked (Except NeighborError Int32)}

/-! ## New neighborhoods -/

theorem create_eq_ok {vars : Array VarId} {settings : Settings} {seed : UInt64}
    (h : create m vars settings seed = .ok (.ok n)) :
    ∃ min max p, valueRange m vars = .ok (.ok (min, max)) ∧
      Policy.create min max settings = .ok p ∧ ofPolicy vars p seed = .ok n := by
  obtain ⟨range, hrange, hresult⟩ := Checked.bind_eq_ok_iff.mp h
  cases range with
  | error e => cases hresult
  | ok range =>
    obtain ⟨min, max⟩ := range
    have hbind : ((Policy.create min max settings).bind fun policy => ofPolicy vars policy seed) =
        .ok n := Except.ok.inj hresult
    cases hpolicy : Policy.create min max settings with
    | error e =>
      rw [hpolicy] at hbind
      cases hbind
    | ok p =>
      rw [hpolicy] at hbind
      exact ⟨min, max, p, hrange, hpolicy, hbind⟩

theorem exists_policy_of_create {vars : Array VarId} {settings : Settings} {seed : UInt64}
    (h : create m vars settings seed = .ok (.ok n)) :
    ∃ min max p, Policy.create min max settings = .ok p ∧ ofPolicy vars p seed = .ok n := by
  obtain ⟨min, max, p, _, hpolicy, hn⟩ := create_eq_ok h
  exact ⟨min, max, p, hpolicy, hn⟩

theorem IsNew.exists_policy (h : n.IsNew) :
    ∃ vars min max settings p seed, Policy.create min max settings = .ok p ∧
      ofPolicy vars p seed = .ok n := by
  cases h with
  | create h =>
    obtain ⟨min, max, p, hpolicy, hn⟩ := exists_policy_of_create h
    exact ⟨_, min, max, _, p, _, hpolicy, hn⟩
  | @build c freshSeed m vars n events h =>
    unfold Config.build at h
    cases hvalid : c.validate with
    | error e => simp [hvalid, pure, Except.pure] at h
    | ok checked =>
      simp only [hvalid] at h
      obtain ⟨built, hbuilt, hresult⟩ := Checked.bind_eq_ok_iff.mp h
      cases hresult
      obtain ⟨min, max, p, hpolicy, hn⟩ := exists_policy_of_create hbuilt
      exact ⟨_, min, max, _, p, _, hpolicy, hn⟩
  | around hpolicy h => exact ⟨_, _, _, _, _, _, hpolicy, h⟩

theorem ofPolicy_eq_ok {vars : Array VarId} {p : Policy} {seed : UInt64}
    (h : ofPolicy vars p seed = .ok n) :
    vars ≠ #[] ∧ n = ⟨vars, #[], p.bounds.1, p.bounds.2, .ofSeed seed, p⟩ := by
  unfold ofPolicy at h
  split at h
  · cases h
  · rename_i hvars
    cases h
    exact ⟨by simpa using hvars, rfl⟩

theorem IsNew.settled (h : n.IsNew) :
    n.Settled ∧ n.values = #[] ∧ n.policy.schedule.calls = 0 := by
  obtain ⟨vars, min, max, settings, p, seed, hpolicy, hn⟩ := h.exists_policy
  obtain ⟨hvars, rfl⟩ := ofPolicy_eq_ok hn
  obtain ⟨hsettled, _, _, hschedule⟩ := Policy.settled_of_create hpolicy
  refine ⟨⟨hvars, hsettled, rfl, .inl rfl, fun i j _ => by simp⟩, rfl, ?_⟩
  rw [hschedule]
  rfl

/-! ## Recordings -/

theorem Settled.inRange (h : n.Settled) :
    ∀ value ∈ n.values, n.min ≤ value ∧ value ≤ n.max := by
  intro value hvalue
  have hgroup := h.policy.indexes.inRange value (Array.mem_toList_iff.mpr hvalue)
  rw [ValueGroups.groupOf_lt_iff h.policy.indexes.fits] at hgroup
  have hbounds := h.bounds_eq
  simp only [Policy.bounds, Prod.mk.injEq] at hbounds
  rwa [hbounds.1, hbounds.2] at hgroup

theorem Settled.exists_takeSnapshot (h : n.Settled) {values : Array Int32}
    (hvalues : ∀ value ∈ values, n.min ≤ value ∧ value ≤ n.max) :
    ∃ reported, n.takeSnapshot values = .ok reported := by
  have hbounds := h.bounds_eq
  simp only [Policy.bounds, Prod.mk.injEq] at hbounds
  have hgroups : ∀ value ∈ values,
      n.policy.groups.groupOf value < n.policy.groups.buckets.size := by
    intro value hvalue
    rw [ValueGroups.groupOf_lt_iff h.policy.indexes.fits, hbounds.1, hbounds.2]
    exact hvalues value hvalue
  obtain ⟨groups, hrebuild, _⟩ := h.policy.indexes.rebuild values hgroups
  exact ⟨_, takeSnapshot_eq_ok_iff.mpr ⟨_, Checked.bind_eq_ok_iff.mpr ⟨groups, hrebuild, rfl⟩, rfl⟩⟩

/-- A recording that succeeds keeps everything but the values and the policy, which restarts its
schedule. -/
theorem Settled.takeSnapshot (h : n.Settled) {values : List Int32}
    (hreads : List.Forall₂ (n.Reads read) n.vars.toList values)
    (hrun : n.takeSnapshot values.toArray = .ok reported) :
    reported.neighbor.Settled ∧ reported.neighbor.values = values.toArray ∧
      n.SameScope reported.neighbor ∧ reported.neighbor.policy.schedule.calls = 0 := by
  obtain ⟨regrouped, hregrouped, rfl⟩ := takeSnapshot_eq_ok_iff.mp hrun
  obtain ⟨hsettled, hrange⟩ := h.policy.snapshot hregrouped
  have hcalls : regrouped.policy.schedule.calls = 0 :=
    congrArg Schedule.calls (Policy.schedule_snapshot hregrouped)
  refine ⟨⟨h.vars_ne, hsettled, ?_, .inr ?_, ?_⟩, rfl, ⟨rfl, rfl, rfl⟩, hcalls⟩
  · have hbounds := h.bounds_eq
    simp only [Policy.bounds, ValueGroups.max, ValueGroups.valueAt, hrange.1, hrange.2] at hbounds ⊢
    exact hbounds
  · have hlength := hreads.length_eq
    simpa using hlength.symm
  · intro i j hij
    have hi := getElem?_of_forall₂ hreads i
    have hj := getElem?_of_forall₂ hreads j
    rw [Array.getElem?_toList] at hi hj
    simp only [List.getElem?_toArray]
    rcases hi with ⟨hvar, hvalue⟩ | ⟨var, value, hvar, hvalue, hread, _⟩ <;>
      rcases hj with ⟨hvar', hvalue'⟩ | ⟨var', value', hvar', hvalue', hread', _⟩
    · rw [hvalue, hvalue']
    · simp [hvar, hvar'] at hij
    · simp [hvar, hvar'] at hij
    · -- one variable was read twice, with one answer
      have hvars : var = var' := by simpa [hvar, hvar'] using hij
      rw [hvars, hread'] at hread
      cases hread
      rw [hvalue, hvalue']

theorem Settled.recordWith (h : n.Settled) (hrun : n.recordWith read = .ok (.ok reported)) :
    reported.neighbor.Settled ∧ reported.neighbor.values.size = n.vars.size ∧
      n.SameScope reported.neighbor ∧ reported.neighbor.policy.schedule.calls = 0 := by
  obtain ⟨values, hreads, htaken⟩ := recordWith_eq_ok_iff.mp hrun
  obtain ⟨hcoherent, hvalues, hvars, hcalls⟩ := h.takeSnapshot hreads htaken
  have hlength := hreads.length_eq
  refine ⟨hcoherent, ?_, hvars, hcalls⟩
  rw [hvalues]
  simpa using hlength.symm

theorem Settled.exists_recordWith (h : n.Settled)
    (hread : ∀ var ∈ n.vars, ∃ answer, read var = .ok answer) :
    ∃ result, n.recordWith read = .ok result := by
  obtain ⟨result, hresult⟩ :=
    exists_readValues (n := n) fun var hvar => hread var (Array.mem_toList_iff.mp hvar)
  cases result with
  | error e =>
    simp only [Neighbor.recordWith, hresult, bind, Except.bind]
    exact ⟨_, rfl⟩
  | ok values =>
    have hreads := readValues_eq_ok_iff.mp hresult
    have hvalues : ∀ value ∈ values.toArray, n.min ≤ value ∧ value ≤ n.max := by
      intro value hvalue
      obtain ⟨i, hi⟩ := List.mem_iff_getElem?.mp (List.mem_toArray.mp hvalue)
      rcases getElem?_of_forall₂ hreads i with ⟨_, hnone⟩ | ⟨var, value', _, hvalue', _, hrange⟩
      · simp [hnone] at hi
      · rw [hvalue', Option.some.injEq] at hi
        rwa [← hi]
    obtain ⟨reported, htaken⟩ := h.exists_takeSnapshot hvalues
    exact ⟨.ok reported, recordWith_eq_ok_iff.mpr ⟨values, hreads, htaken⟩⟩

end Neighbor

end LargeNeighborhood
