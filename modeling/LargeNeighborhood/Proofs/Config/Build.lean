import LargeNeighborhood.Proofs.Neighbor.Run

/-!
# Building from a configuration

A configuration is checked before the model is looked at, the direct constructor checks its settings
last. They agree all the same: both refuse invalid settings, and beyond that building does exactly
what the constructor does with the configured seed.
-/

namespace LargeNeighborhood

theorem Checked.exists_mapM {f : α → Checked β} {xs : List α} (h : ∀ x ∈ xs, ∃ y, f x = .ok y) :
    ∃ ys, xs.mapM f = .ok ys := by
  induction xs with
  | nil => exact ⟨[], rfl⟩
  | cons x xs ih =>
    rw [List.forall_mem_cons] at h
    obtain ⟨⟨y, hy⟩, hrest⟩ := h
    obtain ⟨ys, hys⟩ := ih hrest
    rw [List.mapM_cons, hy, hys]
    exact ⟨y :: ys, rfl⟩

namespace Neighbor

variable {m : Model} {vars : Array VarId}

theorem exists_valueRange (hcovers : m.Covers vars) : ∃ range, valueRange m vars = .ok range := by
  have hdomain : ∀ var ∈ vars.toList, ∃ d, m.domain var = .ok d := by
    intro var hvar
    obtain ⟨d, _, hd⟩ := hcovers.domain_eq (Array.mem_toList_iff.mp hvar)
    exact ⟨d, hd⟩
  have hlower : ∀ var ∈ vars.toList, ∃ lower, m.lower var = .ok lower := by
    intro var hvar
    obtain ⟨d, hd⟩ := hdomain var hvar
    exact ⟨d.lower, Checked.bind_eq_ok_iff.mpr ⟨d, hd, rfl⟩⟩
  have hupper : ∀ var ∈ vars.toList, ∃ upper, m.upper var = .ok upper := by
    intro var hvar
    obtain ⟨d, hd⟩ := hdomain var hvar
    exact ⟨d.upper, Checked.bind_eq_ok_iff.mpr ⟨d, hd, rfl⟩⟩
  obtain ⟨lowers, hlowers⟩ := Checked.exists_mapM hlower
  obtain ⟨uppers, huppers⟩ := Checked.exists_mapM hupper
  rw [valueRange, hlowers, huppers]
  cases hmin : lowers.min? <;> cases hmax : uppers.max? <;>
    exact ⟨_, by simp only [Checked.ok_bind, hmin, hmax]; rfl⟩

theorem exists_create (hcovers : m.Covers vars) (settings : Settings) (seed : UInt64) :
    ∃ built, create m vars settings seed = .ok built := by
  obtain ⟨range, hrange⟩ := exists_valueRange hcovers
  exact ⟨_, Checked.bind_eq_ok_iff.mpr ⟨range, hrange, rfl⟩⟩

theorem check_of_create {settings : Settings} {seed : UInt64} {n : Neighbor}
    (h : create m vars settings seed = .ok (.ok n)) : settings.check = .ok () := by
  obtain ⟨min, max, p, hpolicy, _⟩ := exists_policy_of_create h
  unfold Policy.create at hpolicy
  split at hpolicy
  · cases hpolicy
  · split at hpolicy
    · cases hpolicy
    · assumption

end Neighbor

namespace Config

variable {c : Config} {m : Model} {vars : Array VarId}

theorem build_of_invalid {e : SettingsError} (h : c.validate = .error e) (freshSeed : UInt64)
    (m : Model) (vars : Array VarId) :
    c.build freshSeed m vars = .ok (.error (.refused (.configuration e)), []) := by
  rw [build, h]
  rfl

theorem build_of_valid (h : c.validate = .ok ()) (freshSeed : UInt64) (m : Model)
    (vars : Array VarId) :
    c.build freshSeed m vars =
      (Neighbor.create m vars c.settings (c.seed.getD freshSeed)).map fun built =>
        (built, [.neighborBuild vars.size c.settings (c.seed.getD freshSeed)]) := by
  simp only [build, h]
  cases Neighbor.create m vars c.settings (c.seed.getD freshSeed) <;> rfl

/-- Building from a configuration with a seed and the direct constructor with that seed make the
same neighborhoods, randomness included. An invalid configuration is refused with the text of its
check, without an event and without a look at the model; a valid one is announced once, and the
result is that of the constructor. -/
theorem build_agrees_with_create {seed : UInt64} (hseed : c.seed = some seed)
    (hcovers : m.Covers vars) (freshSeed : UInt64) :
    ∃ built direct events, c.build freshSeed m vars = .ok (built, events) ∧
      Neighbor.create m vars c.settings seed = .ok direct ∧
      (∀ n, built = .ok n ↔ direct = .ok n) ∧
      (∀ e, c.validate = .error e →
        built = .error (.refused (.configuration e)) ∧
        (Refusal.configuration e).message = e.report ∧ events = [] ∧
        ∀ (other : Model) (others : Array VarId),
          c.build freshSeed other others = .ok (built, [])) ∧
      (c.validate = .ok () →
        built = direct ∧ events = [.neighborBuild vars.size c.settings seed]) := by
  obtain ⟨direct, hdirect⟩ := Neighbor.exists_create hcovers c.settings seed
  cases hvalid : c.validate with
  | error e =>
    have hbuild := build_of_invalid hvalid freshSeed
    have hfails : ∀ n, direct ≠ .ok n := by
      rintro n rfl
      have hcheck : c.validate = .ok () := Neighbor.check_of_create hdirect
      rw [hvalid] at hcheck
      cases hcheck
    refine ⟨_, direct, [], hbuild m vars, hdirect, ?_, ?_, ?_⟩
    · intro n
      constructor
      · intro hok
        cases hok
      · intro hok
        exact absurd hok (hfails n)
    · intro e' he'
      cases he'
      exact ⟨rfl, rfl, rfl, hbuild⟩
    · intro hok
      cases hok
  | ok checked =>
    have hbuild := build_of_valid hvalid freshSeed m vars
    rw [hseed, Option.getD_some, hdirect] at hbuild
    refine ⟨direct, direct, _, hbuild, hdirect, fun n => Iff.rfl, ?_, fun _ => ⟨rfl, rfl⟩⟩
    intro e he
    cases he

/-- A valid configuration builds what the constructor does. One whose proportion is no number is
refused by both, for the variables of a model and for none at all. -/
theorem build_twice_and_refused :
    (Model.ofBounds 3 0 3).Covers #[⟨0⟩, ⟨0⟩, ⟨1⟩, ⟨2⟩] ∧ Model.empty.Covers #[] ∧
    (∃ events, build ⟨some 42, .standard⟩ 7 (.ofBounds 3 0 3) #[⟨0⟩, ⟨0⟩, ⟨1⟩, ⟨2⟩] =
        .ok (.ok Neighbor.twice, events) ∧ events.length = 1) ∧
    (∃ direct, Neighbor.create .empty #[] ⟨.nan, 10⟩ 42 = .ok direct ∧ ∀ n, direct ≠ .ok n) ∧
    build ⟨some 42, ⟨.nan, 10⟩⟩ 7 .empty #[] =
      .ok (.error (.refused (.configuration (.proportion .nan))), []) := by
  have hcovers : (Model.ofBounds 3 0 3).Covers #[⟨0⟩, ⟨0⟩, ⟨1⟩, ⟨2⟩] := by
    unfold Model.Covers
    decide
  have hnone : Model.empty.Covers #[] := by
    unfold Model.Covers
    decide
  have hvalid : validate ⟨some 42, .standard⟩ = .ok () := by
    decide +kernel
  have hinvalid : validate ⟨some 42, ⟨.nan, 10⟩⟩ = .error (.proportion .nan) := by
    decide +kernel
  have hcreate : Neighbor.create (.ofBounds 3 0 3) #[⟨0⟩, ⟨0⟩, ⟨1⟩, ⟨2⟩] .standard 42 =
      .ok (.ok Neighbor.twice) := by
    decide +kernel
  refine ⟨hcovers, hnone, ?_, ?_⟩
  · obtain ⟨built, direct, events, hbuild, hdirect, _, _, hsame⟩ :=
      build_agrees_with_create (c := ⟨some 42, .standard⟩) rfl hcovers 7
    obtain ⟨rfl, rfl⟩ := hsame hvalid
    obtain rfl := Except.ok.inj (hcreate.symm.trans hdirect)
    exact ⟨_, hbuild, rfl⟩
  · obtain ⟨built, direct, events, hbuild, hdirect, hagree, hrefused, _⟩ :=
      build_agrees_with_create (c := ⟨some 42, ⟨.nan, 10⟩⟩) rfl hnone 7
    obtain ⟨rfl, _, rfl, _⟩ := hrefused _ hinvalid
    refine ⟨⟨direct, hdirect, ?_⟩, hbuild⟩
    intro n hn
    cases (hagree n).mpr hn

end Config

end LargeNeighborhood
