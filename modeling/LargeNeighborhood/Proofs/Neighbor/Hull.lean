import LargeNeighborhood.Proofs.Config.Build
import LargeNeighborhood.Proofs.Neighbor.Span
import Mathlib.Order.Bounds.Defs

/-!
# The hull of the variables

A neighborhood can be made exactly if its settings are in range and its variables can take some
value. Its bounds are the least and the greatest value that one of them can take. Variables without
a value report the neutral elements of minimum and maximum, which no other variable exceeds; if
there are no others, these are the wrong way round and the range is refused as empty.
-/

namespace LargeNeighborhood

def Model.Offers (m : Model) (vars : Array VarId) (value : Int32) : Prop :=
  ∃ var ∈ vars, ∃ d, m.domain var = .ok d ∧ value ∈ d.values

theorem Settings.check_eq_ok_iff {s : Settings} :
    s.check = .ok () ↔
      (Binary64.zero < s.proportion ∧ s.proportion ≤ Binary64.one) ∧ 1 ≤ s.level := by
  have hlevel : s.level ≠ 0 ↔ 1 ≤ s.level := by
    rw [ne_eq, ← UInt32.toNat_inj, UInt32.le_iff_toNat_le]
    exact Nat.pos_iff_ne_zero.symm
  rw [check, ← hlevel]
  split
  · rename_i hproportion
    constructor
    · intro h
      cases h
    · intro h
      exact absurd h.1 hproportion
  · rename_i hproportion
    split
    · rename_i hzero
      constructor
      · intro h
        cases h
      · intro h
        exact absurd hzero h.2
    · rename_i hpositive
      exact iff_of_true rfl ⟨not_not.mp hproportion, hpositive⟩

namespace Domain

theorem lower_mem_or (d : Domain) :
    d.lower ∈ d.values ∨ d.values = [] ∧ d.lower = Int32.maxValue := by
  cases hhead : d.values.head? with
  | none =>
    rw [lower, hhead, Option.getD_none]
    exact .inr ⟨List.head?_eq_none_iff.mp hhead, rfl⟩
  | some first =>
    rw [lower, hhead, Option.getD_some]
    exact .inl (List.mem_of_head? hhead)

theorem upper_mem_or (d : Domain) :
    d.upper ∈ d.values ∨ d.values = [] ∧ d.upper = Int32.minValue := by
  cases hlast : d.values.getLast? with
  | none =>
    rw [upper, hlast, Option.getD_none]
    exact .inr ⟨List.getLast?_eq_none_iff.mp hlast, rfl⟩
  | some last =>
    rw [upper, hlast, Option.getD_some]
    exact .inl (List.mem_of_getLast? hlast)

end Domain

namespace Neighbor

/-- Why no neighborhood can be made. Missing variables come before missing values, and both before
the settings. -/
inductive Denies (m : Model) (vars : Array VarId) (settings : Settings) : Refusal → Prop
  | noVariables (hvars : vars = #[]) : Denies m vars settings .noVariables
  | noValues (hvars : vars ≠ #[]) (hnone : ∀ value, ¬ m.Offers vars value) :
      Denies m vars settings (.emptyRange Int32.maxValue Int32.minValue)
  | settings {e : SettingsError} (hvalue : ∃ value, m.Offers vars value)
      (hcheck : settings.check = .error e) : Denies m vars settings (.settings e)

/-- A neighborhood between the least and the greatest value of its variables that has recorded
nothing yet. -/
structure SpansHull (n : Neighbor) (m : Model) (vars : Array VarId) : Prop where
  vars_eq : n.vars = vars
  least : IsLeast {value | m.Offers vars value} n.min
  greatest : IsGreatest {value | m.Offers vars value} n.max
  bounds_eq : n.policy.bounds = (n.min, n.max)
  rangeLength_eq : (n.policy.groups.rangeLength : Int) = n.max.toInt - n.min.toInt + 1
  values_eq : n.values = #[]
  occupied_eq : n.policy.groups.occupied = #[]
  members_eq : ∀ id < n.policy.groups.rangeLength, n.policy.groups.members id = .ok #[]
  fragment_eq : n.policy.fragment = .empty n.policy.groups.rangeLength

variable {m : Model} {vars : Array VarId} {settings : Settings} {seed : UInt64}
  {min max value : Int32} {e : NeighborError}

theorem exists_offers_iff : (∃ value, m.Offers vars value) ↔
    ∃ var ∈ vars, ∃ d, m.domain var = .ok d ∧ d.values ≠ [] := by
  constructor
  · rintro ⟨value, var, hvar, d, hdomain, hmem⟩
    exact ⟨var, hvar, d, hdomain, List.ne_nil_of_mem hmem⟩
  · rintro ⟨var, hvar, d, hdomain, hvalues⟩
    obtain ⟨value, hmem⟩ := List.exists_mem_of_ne_nil _ hvalues
    exact ⟨value, var, hvar, d, hdomain, hmem⟩

/-! ## The range of the variables -/

theorem valueRange_eq_error (h : valueRange m vars = .ok (.error e)) :
    vars = #[] ∧ e = .refused .noVariables := by
  obtain ⟨lowers, hlowers, h⟩ := Checked.bind_eq_ok_iff.mp h
  obtain ⟨uppers, huppers, h⟩ := Checked.bind_eq_ok_iff.mp h
  have hlengths : vars.toList.length = lowers.length ∧ vars.toList.length = uppers.length :=
    ⟨(Checked.forall₂_of_mapM hlowers).length_eq,
      (Checked.forall₂_of_mapM huppers).length_eq⟩
  split at h
  · cases h
  · rename_i hbounds
    cases h
    refine ⟨?_, rfl⟩
    rw [← Array.toList_eq_nil_iff, ← List.length_eq_zero_iff]
    cases hmin : lowers.min? with
    | none => rw [hlengths.1, List.min?_eq_none_iff.mp hmin, List.length_nil]
    | some min =>
      cases hmax : uppers.max? with
      | none => rw [hlengths.2, List.max?_eq_none_iff.mp hmax, List.length_nil]
      | some max => exact absurd hmax (hbounds min max hmin)

theorem exists_bounds_of_valueRange (h : valueRange m vars = .ok (.ok (min, max))) :
    (∃ var ∈ vars, ∃ d, m.domain var = .ok d ∧ d.lower = min) ∧
      ∃ var ∈ vars, ∃ d, m.domain var = .ok d ∧ d.upper = max := by
  obtain ⟨lowers, hlowers, h⟩ := Checked.bind_eq_ok_iff.mp h
  obtain ⟨uppers, huppers, h⟩ := Checked.bind_eq_ok_iff.mp h
  split at h
  · rename_i least greatest hmin hmax
    cases h
    obtain ⟨var, hvar, hread⟩ := exists_mem_of_forall₂
      (Checked.forall₂_of_mapM hlowers).flip (List.min?_eq_some_iff.mp hmin).1
    obtain ⟨var', hvar', hread'⟩ := exists_mem_of_forall₂
      (Checked.forall₂_of_mapM huppers).flip (List.max?_eq_some_iff.mp hmax).1
    obtain ⟨d, hdomain, hlower⟩ := Checked.bind_eq_ok_iff.mp hread
    obtain ⟨d', hdomain', hupper⟩ := Checked.bind_eq_ok_iff.mp hread'
    exact ⟨⟨var, Array.mem_toList_iff.mp hvar, d, hdomain, Except.ok.inj hlower⟩,
      var', Array.mem_toList_iff.mp hvar', d', hdomain', Except.ok.inj hupper⟩
  · cases h

theorem hull_of_valueRange (h : valueRange m vars = .ok (.ok (min, max)))
    (hvalue : m.Offers vars value) :
    IsLeast {value | m.Offers vars value} min ∧ IsGreatest {value | m.Offers vars value} max := by
  have hbounds : ∀ value, m.Offers vars value → min ≤ value ∧ value ≤ max := by
    rintro value ⟨var, hvar, d, hdomain, hmem⟩
    obtain ⟨d', hdomain', hlower, hupper⟩ := bounds_of_valueRange h var hvar
    obtain rfl : d = d' := Except.ok.inj (hdomain.symm.trans hdomain')
    exact ⟨Int32.le_trans hlower (Domain.lower_le hmem),
      Int32.le_trans (Domain.le_upper hmem) hupper⟩
  obtain ⟨⟨var, hvar, d, hdomain, hmin⟩, var', hvar', d', hdomain', hmax⟩ :=
    exists_bounds_of_valueRange h
  obtain ⟨hlow, hhigh⟩ := hbounds value hvalue
  -- a bound that no variable can take is beyond all values, so it is one of them after all
  have hmin_offered : m.Offers vars min := by
    rcases d.lower_mem_or with hmem | ⟨_, hneutral⟩
    · exact ⟨var, hvar, d, hdomain, hmin ▸ hmem⟩
    · rw [hneutral] at hmin
      rwa [Int32.le_antisymm hlow (hmin ▸ Int32.le_maxValue value)]
  have hmax_offered : m.Offers vars max := by
    rcases d'.upper_mem_or with hmem | ⟨_, hneutral⟩
    · exact ⟨var', hvar', d', hdomain', hmax ▸ hmem⟩
    · rw [hneutral] at hmax
      rwa [← Int32.le_antisymm hhigh (hmax ▸ Int32.minValue_le value)]
  exact ⟨⟨hmin_offered, fun other hother => (hbounds other hother).1⟩,
    hmax_offered, fun other hother => (hbounds other hother).2⟩

/-- Without a value the bounds are the neutral elements, the wrong way round. -/
theorem eq_neutral_of_valueRange (h : valueRange m vars = .ok (.ok (min, max)))
    (hnone : ∀ value, ¬ m.Offers vars value) :
    min = Int32.maxValue ∧ max = Int32.minValue := by
  obtain ⟨⟨var, hvar, d, hdomain, hmin⟩, var', hvar', d', hdomain', hmax⟩ :=
    exists_bounds_of_valueRange h
  constructor
  · rcases d.lower_mem_or with hmem | ⟨_, hneutral⟩
    · exact absurd ⟨var, hvar, d, hdomain, hmem⟩ (hnone _)
    · exact hmin.symm.trans hneutral
  · rcases d'.upper_mem_or with hmem | ⟨_, hneutral⟩
    · exact absurd ⟨var', hvar', d', hdomain', hmem⟩ (hnone _)
    · exact hmax.symm.trans hneutral

/-! ## Making a neighborhood -/

def fresh (vars : Array VarId) (min max : Int32) (settings : Settings) (seed : UInt64) :
    Neighbor where
  vars := vars
  values := #[]
  min := min
  max := max
  source := .ofSeed seed
  policy := .unrecorded min max settings

theorem create_of_eq_empty (m : Model) (settings : Settings) (seed : UInt64) :
    create m #[] settings seed = .ok (.error (.refused .noVariables)) :=
  rfl

theorem create_of_not_offers (hcovers : m.Covers vars) (hvars : vars ≠ #[])
    (hnone : ∀ value, ¬ m.Offers vars value) (settings : Settings) (seed : UInt64) :
    create m vars settings seed =
      .ok (.error (.refused (.emptyRange Int32.maxValue Int32.minValue))) := by
  obtain ⟨range, hrange⟩ := exists_valueRange hcovers
  cases range with
  | error e => exact absurd (valueRange_eq_error hrange).1 hvars
  | ok bounds =>
    obtain ⟨min, max⟩ := bounds
    obtain ⟨rfl, rfl⟩ := eq_neutral_of_valueRange hrange hnone
    rw [create, hrange]
    rfl

theorem bounds_unrecorded (hle : min ≤ max) :
    (Policy.unrecorded min max settings).bounds = (min, max) := by
  rw [Policy.bounds, Policy.unrecorded, ValueGroups.max_empty hle]
  rfl

theorem create_of_hull (hcovers : m.Covers vars)
    (hleast : IsLeast {value | m.Offers vars value} min)
    (hgreatest : IsGreatest {value | m.Offers vars value} max) (settings : Settings)
    (seed : UInt64) :
    create m vars settings seed =
      .ok ((settings.check.mapError fun e => .refused (.settings e)).map fun () =>
        fresh vars min max settings seed) := by
  obtain ⟨range, hrange⟩ := exists_valueRange hcovers
  obtain ⟨var, hvar, _⟩ := hleast.1
  have hvars : vars ≠ #[] := Array.ne_empty_of_mem hvar
  cases range with
  | error e => exact absurd (valueRange_eq_error hrange).1 hvars
  | ok bounds =>
    obtain ⟨low, high⟩ := bounds
    obtain ⟨hlow, hhigh⟩ := hull_of_valueRange hrange hleast.1
    obtain rfl := Int32.le_antisymm (hlow.2 hleast.1) (hleast.2 hlow.1)
    obtain rfl := Int32.le_antisymm (hgreatest.2 hhigh.1) (hhigh.2 hgreatest.1)
    have hle : low ≤ high := hlow.2 hhigh.1
    rw [create, hrange, Checked.ok_bind]
    cases hcheck : settings.check with
    | error e =>
      have hrefused : Policy.create low high settings = .error (.refused (.settings e)) := by
        rw [Policy.create, if_neg (Int32.not_lt.mpr hle), hcheck]
        rfl
      simp only [Except.bind, hrefused]
      rfl
    | ok _ =>
      have hmade : ofPolicy vars (.unrecorded low high settings) seed =
          .ok (fresh vars low high settings seed) := by
        rw [ofPolicy, if_neg (by simpa using hvars), bounds_unrecorded hle]
        rfl
      simp only [Except.bind, Policy.create_eq_ok hle hcheck, hmade]
      rfl

theorem spansHull_fresh (hleast : IsLeast {value | m.Offers vars value} min)
    (hgreatest : IsGreatest {value | m.Offers vars value} max) :
    (fresh vars min max settings seed).SpansHull m vars := by
  have hle : min ≤ max := hleast.2 hgreatest.1
  exact ⟨rfl, hleast, hgreatest, bounds_unrecorded hle, ValueGroups.rangeLength_empty hle,
    rfl, rfl, fun _ => ValueGroups.members_empty, rfl⟩

theorem exists_hull (hcovers : m.Covers vars) (hvalue : m.Offers vars value) :
    ∃ min max, IsLeast {value | m.Offers vars value} min ∧
      IsGreatest {value | m.Offers vars value} max := by
  obtain ⟨range, hrange⟩ := exists_valueRange hcovers
  cases range with
  | error e =>
    obtain ⟨var, hvar, _⟩ := hvalue
    exact absurd (valueRange_eq_error hrange).1 (Array.ne_empty_of_mem hvar)
  | ok bounds => exact ⟨_, _, hull_of_valueRange hrange hvalue⟩

theorem create_cases (hcovers : m.Covers vars) (settings : Settings) (seed : UInt64) :
    (∃ min max, IsLeast {value | m.Offers vars value} min ∧
      IsGreatest {value | m.Offers vars value} max ∧ settings.check = .ok () ∧
        create m vars settings seed = .ok (.ok (fresh vars min max settings seed))) ∨
    ∃ reason, Denies m vars settings reason ∧
      create m vars settings seed = .ok (.error (.refused reason)) := by
  by_cases hvalue : ∃ value, m.Offers vars value
  · obtain ⟨value, hoffers⟩ := hvalue
    obtain ⟨min, max, hleast, hgreatest⟩ := exists_hull hcovers hoffers
    have hcreate := create_of_hull hcovers hleast hgreatest settings seed
    cases hcheck : settings.check with
    | error e =>
      rw [hcheck] at hcreate
      exact .inr ⟨_, .settings ⟨value, hoffers⟩ hcheck, hcreate⟩
    | ok _ =>
      rw [hcheck] at hcreate
      exact .inl ⟨min, max, hleast, hgreatest, rfl, hcreate⟩
  · rw [not_exists] at hvalue
    by_cases hvars : vars = #[]
    · rw [hvars]
      exact .inr ⟨_, .noVariables rfl, create_of_eq_empty m settings seed⟩
    · exact .inr ⟨_, .noValues hvars hvalue,
        create_of_not_offers hcovers hvars hvalue settings seed⟩

theorem Denies.not_usable {reason : Refusal} (h : Denies m vars settings reason) :
    ¬ ((∃ value, m.Offers vars value) ∧ settings.check = .ok ()) := by
  rintro ⟨⟨value, hvalue⟩, hok⟩
  cases h with
  | noVariables hvars =>
    obtain ⟨var, hvar, _⟩ := hvalue
    exact Array.ne_empty_of_mem hvar hvars
  | noValues _ hnone => exact hnone value hvalue
  | settings _ hcheck => cases hok.symm.trans hcheck

/-- A neighborhood can be made exactly if some listed variable has a value and the settings are in
range. Its bounds are the least and the greatest value of the listed variables and nothing is
recorded in it. Any other list with the same values, on whatever model, makes the same neighborhood
of its own variables. A refusal names what is wrong. -/
theorem create_takes_hull (hcovers : m.Covers vars) (settings : Settings) (seed : UInt64) :
    ∃ built, create m vars settings seed = .ok built ∧
      ((∃ n, built = .ok n) ↔
        (∃ var ∈ vars, ∃ d, m.domain var = .ok d ∧ d.values ≠ []) ∧
          (Binary64.zero < settings.proportion ∧ settings.proportion ≤ Binary64.one) ∧
          1 ≤ settings.level) ∧
      (∀ n, built = .ok n → n.SpansHull m vars ∧
        ∀ (m' : Model) (vars' : Array VarId), m'.Covers vars' →
          (∀ value, m'.Offers vars' value ↔ m.Offers vars value) →
            create m' vars' settings seed = .ok (.ok { n with vars := vars' })) ∧
      ∀ e, built = .error e → ∃ reason, e = .refused reason ∧ Denies m vars settings reason := by
  rw [← Settings.check_eq_ok_iff, ← exists_offers_iff]
  rcases create_cases hcovers settings seed with
    ⟨min, max, hleast, hgreatest, hcheck, hcreate⟩ | ⟨reason, hdenies, hcreate⟩
  · refine ⟨_, hcreate, iff_of_true ⟨_, rfl⟩ ⟨⟨min, hleast.1⟩, hcheck⟩, ?_, ?_⟩
    · intro n hn
      cases hn
      refine ⟨spansHull_fresh hleast hgreatest, ?_⟩
      intro m' vars' hcovers' hsame
      have hvalues : {value | m'.Offers vars' value} = {value | m.Offers vars value} :=
        Set.ext hsame
      rw [← hvalues] at hleast hgreatest
      rw [create_of_hull hcovers' hleast hgreatest, hcheck]
      rfl
    · intro e he
      cases he
  · refine ⟨_, hcreate, iff_of_false ?_ hdenies.not_usable, ?_, ?_⟩
    · rintro ⟨n, hn⟩
      cases hn
    · intro n hn
      cases hn
    · intro e he
      cases he
      exact ⟨reason, rfl, hdenies⟩

def nearlyEmpty : Model :=
  { Model.empty with domains := #[.empty, .singleton Int32.maxValue, .empty] }

theorem offers_nearlyEmpty :
    nearlyEmpty.Offers vars value ↔ ⟨1⟩ ∈ vars ∧ value = Int32.maxValue := by
  constructor
  · rintro ⟨⟨index⟩, hvar, d, hdomain, hmem⟩
    rcases index with _ | _ | _ | index
    · cases hdomain
      cases hmem
    · cases hdomain
      exact ⟨hvar, List.mem_singleton.mp hmem⟩
    · cases hdomain
      cases hmem
    · cases hdomain
  · rintro ⟨hvar, rfl⟩
    exact ⟨⟨1⟩, hvar, .singleton Int32.maxValue, rfl, List.mem_singleton.mpr rfl⟩

/-- Emptied variables count for nothing, also beside a value that equals the bound they report.
Alone they are refused. -/
theorem create_nearlyEmpty :
    nearlyEmpty.Covers #[⟨0⟩, ⟨1⟩, ⟨2⟩, ⟨1⟩] ∧ nearlyEmpty.Covers #[⟨2⟩, ⟨0⟩] ∧
    (∃ n, create nearlyEmpty #[⟨0⟩, ⟨1⟩, ⟨2⟩, ⟨1⟩] .standard 42 = .ok (.ok n) ∧
      n.min = Int32.maxValue ∧ n.max = Int32.maxValue ∧ n.policy.groups.rangeLength = 1 ∧
      create nearlyEmpty #[⟨1⟩] .standard 42 = .ok (.ok { n with vars := #[⟨1⟩] })) ∧
    create nearlyEmpty #[⟨2⟩, ⟨0⟩] .standard 42 =
      .ok (.error (.refused (.emptyRange Int32.maxValue Int32.minValue))) := by
  have hcovers : nearlyEmpty.Covers #[⟨0⟩, ⟨1⟩, ⟨2⟩, ⟨1⟩] := by
    unfold Model.Covers
    decide
  have hcovers' : nearlyEmpty.Covers #[⟨1⟩] := by
    unfold Model.Covers
    decide
  have hemptied : nearlyEmpty.Covers #[⟨2⟩, ⟨0⟩] := by
    unfold Model.Covers
    decide
  refine ⟨hcovers, hemptied, ?_, ?_⟩
  · obtain ⟨built, hcreate, husable, hmade, _⟩ := create_takes_hull hcovers .standard 42
    have hproportion : Binary64.IsProportion Settings.standard.proportion := by decide +kernel
    obtain ⟨n, rfl⟩ := husable.mpr ⟨⟨⟨1⟩, by simp, .singleton Int32.maxValue, rfl,
      List.cons_ne_nil _ _⟩, hproportion, by decide⟩
    obtain ⟨hspans, hother⟩ := hmade n rfl
    have hmin : n.min = Int32.maxValue := (offers_nearlyEmpty.mp hspans.least.1).2
    have hmax : n.max = Int32.maxValue := (offers_nearlyEmpty.mp hspans.greatest.1).2
    have hlength := hspans.rangeLength_eq
    rw [hmin, hmax] at hlength
    refine ⟨n, hcreate, hmin, hmax, by omega, hother nearlyEmpty #[⟨1⟩] hcovers' ?_⟩
    intro value
    rw [offers_nearlyEmpty, offers_nearlyEmpty]
    exact and_congr_left fun _ => by simp
  · obtain ⟨built, hcreate, husable, _, hrefused⟩ := create_takes_hull hemptied .standard 42
    have hnone : ∀ value, ¬ nearlyEmpty.Offers #[⟨2⟩, ⟨0⟩] value := by
      intro value hvalue
      exact absurd (offers_nearlyEmpty.mp hvalue).1 (by simp)
    cases built with
    | ok n =>
      obtain ⟨value, hvalue⟩ := exists_offers_iff.mpr (husable.mp ⟨n, rfl⟩).1
      exact absurd hvalue (hnone value)
    | error e =>
      obtain ⟨reason, rfl, hdenies⟩ := hrefused e rfl
      rw [hcreate]
      cases hdenies with
      | noVariables hvars => cases hvars
      | noValues _ _ => rfl
      | settings hvalue _ =>
        obtain ⟨value, hvalue⟩ := hvalue
        exact absurd hvalue (hnone value)

end Neighbor

end LargeNeighborhood
