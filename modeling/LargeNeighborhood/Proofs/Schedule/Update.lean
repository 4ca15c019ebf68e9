import LargeNeighborhood.Schedule

/-!
# Looks at the schedule

A look either leaves a schedule alone or redraws its size and moves its limit; neither touches the
cycles counted so far. Counting can only fault at the end of the 64-bit range.
-/

namespace LargeNeighborhood.Schedule

variable [RandomSource ρ] {s : Schedule} {source : ρ} {step : Step ρ}

def redraw (s : Schedule) (source : ρ) : Step ρ :=
  let (part, source) := RandomSource.unit source
  let s := { s with
    limit := s.calls + s.settings.level.toNat
    fixedValues := part * Binary64.ofNat s.usedValues }
  ⟨s, source, some s.relaxEvent⟩

theorem reset_eq_of_settings {s t : Schedule} (h : t.settings = s.settings) (usedValues : Nat) :
    t.reset usedValues = s.reset usedValues := by
  rw [reset, reset, h]

theorem update_eq (s : Schedule) (source : ρ) :
    s.update source =
      if s.calls ≤ s.limit then .ok ⟨s, source, none⟩
      else if s.calls + s.settings.level.toNat < UInt64.size then .ok (s.redraw source)
      else .error .overflow := by
  unfold update Checked.word
  split
  · rfl
  · split <;> rfl

theorem tick_eq_ok_iff :
    s.tick source = .ok step ↔ ∃ looked, s.update source = .ok looked ∧
      looked.schedule.calls + 1 < UInt64.size ∧
      step = { looked with schedule := { looked.schedule with
        calls := looked.schedule.calls + 1 } } := by
  unfold tick Checked.word
  rw [Checked.bind_eq_ok_iff]
  apply exists_congr
  intro looked
  rw [and_congr_right_iff]
  intro _
  split
  · rename_i hcalls
    constructor
    · intro h
      cases h
      exact ⟨hcalls, rfl⟩
    · rintro ⟨_, rfl⟩
      rfl
  · rename_i hcalls
    constructor
    · intro h
      cases h
    · rintro ⟨h, _⟩
      exact absurd h hcalls

theorem update_keeps (h : s.update source = .ok step) :
    step.schedule.settings = s.settings ∧ step.schedule.calls = s.calls ∧
      step.schedule.usedValues = s.usedValues := by
  rw [update_eq] at h
  split at h
  · cases h
    exact ⟨rfl, rfl, rfl⟩
  · split at h
    · cases h
      exact ⟨rfl, rfl, rfl⟩
    · cases h

theorem tick_keeps (h : s.tick source = .ok step) :
    step.schedule.settings = s.settings ∧ step.schedule.calls = s.calls + 1 ∧
      step.schedule.usedValues = s.usedValues := by
  obtain ⟨looked, hlooked, _, rfl⟩ := tick_eq_ok_iff.mp h
  obtain ⟨hsettings, hcalls, hused⟩ := update_keeps hlooked
  exact ⟨hsettings, congrArg (· + 1) hcalls, hused⟩

theorem exists_update (hcalls : s.calls + UInt32.size ≤ UInt64.size) (source : ρ) :
    ∃ step, s.update source = .ok step := by
  have hlevel := s.settings.level.toNat_lt_size
  rw [update_eq]
  split
  · exact ⟨_, rfl⟩
  · rw [if_pos (by omega)]
    exact ⟨_, rfl⟩

theorem exists_tick (hcalls : s.calls + UInt32.size ≤ UInt64.size) (source : ρ) :
    ∃ step, s.tick source = .ok step := by
  obtain ⟨looked, hlooked⟩ := exists_update hcalls source
  have hkept := (update_keeps hlooked).2.1
  refine ⟨_, tick_eq_ok_iff.mpr ⟨looked, hlooked, ?_, rfl⟩⟩
  simp only [UInt32.size, UInt64.size] at hcalls ⊢
  omega

/-! ## Looks before a count -/

/-- A look leaves the limit where the next look does not pass it, also at level zero. -/
theorem calls_le_limit_of_update (h : s.update source = .ok step) :
    step.schedule.calls ≤ step.schedule.limit := by
  rw [update_eq] at h
  split at h
  · cases h
    assumption
  · split at h
    · cases h
      exact Nat.le_add_right _ _
    · cases h

theorem update_again (h : s.update source = .ok step) :
    step.schedule.update step.source = .ok { step with event := none } := by
  rw [update_eq, if_pos (calls_le_limit_of_update h)]

/-- A count looks first, so a look right before it only takes over its report. -/
theorem tick_of_update (h : s.update source = .ok step) :
    s.tick source =
      (step.schedule.tick step.source).map fun ticked => { ticked with event := step.event } := by
  unfold tick
  rw [h, update_again h, Checked.ok_bind, Checked.ok_bind]
  cases Checked.word (step.schedule.calls + 1) <;> rfl

theorem event_tick_of_update {ticked : Step ρ} (h : s.update source = .ok step)
    (hticked : step.schedule.tick step.source = .ok ticked) : ticked.event = none := by
  obtain ⟨looked, hlooked, _, rfl⟩ := tick_eq_ok_iff.mp hticked
  rw [update_again h] at hlooked
  cases hlooked
  rfl

end LargeNeighborhood.Schedule
