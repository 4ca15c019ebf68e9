import LargeNeighborhood.Proofs.Schedule.Update

/-!
# Runs of a schedule

A search resets its schedule for every snapshot and looks at it in cycles and in relaxations, in any
order. Within the 64-bit range a look has one of two effects, decided by the count alone.
-/

namespace LargeNeighborhood.Schedule

/-- A look at the limit: for a new cycle, which is then counted, or for a relaxation. -/
inductive Look
  | tick
  | update
deriving DecidableEq

def Look.ticks : Look → Nat
  | .tick => 1
  | .update => 0

inductive Operation
  | reset (usedValues : Nat)
  | look (look : Look)
deriving DecidableEq

def Operation.isReset : Operation → Bool
  | .reset _ => true
  | .look _ => false

structure Move (ρ : Type) where
  op : Operation
  before : Schedule
  source : ρ
  step : Step ρ

inductive IsNew : Schedule → Prop
  | ofSettings (settings : Settings) : IsNew (.ofSettings settings)
  | reset (s : Schedule) (usedValues : Nat) : IsNew (s.reset usedValues)

section

variable [RandomSource ρ]

def look (s : Schedule) (source : ρ) : Look → Checked (Step ρ)
  | .tick => s.tick source
  | .update => s.update source

def perform (s : Schedule) (source : ρ) : Operation → Checked (Step ρ)
  | .reset usedValues => return ⟨s.reset usedValues, source, none⟩
  | .look look => s.look source look

def trace (s : Schedule) (source : ρ) : List Operation → Checked (List (Move ρ))
  | [] => return []
  | op :: ops => do
    let step ← s.perform source op
    return ⟨op, s, source, step⟩ :: (← step.schedule.trace step.source ops)

/-- A look without the 64-bit range. -/
def looked (s : Schedule) (source : ρ) (look : Look) : Step ρ :=
  let step : Step ρ := if s.calls ≤ s.limit then ⟨s, source, none⟩ else s.redraw source
  { step with schedule := { step.schedule with calls := s.calls + look.ticks } }

/-- No counter leaves the 64-bit range in a look. -/
structure Fits (s : Schedule) (look : Look) : Prop where
  limit : s.limit < s.calls → s.calls + s.settings.level.toNat < UInt64.size
  calls : look = .tick → s.calls + 1 < UInt64.size

variable {s : Schedule} {source : ρ} {op : Operation} {ops : List Operation} {step : Step ρ}
  {moves : List (Move ρ)} {look : Look}

theorem trace_cons_eq_ok_iff :
    s.trace source (op :: ops) = .ok moves ↔ ∃ step rest, s.perform source op = .ok step ∧
      step.schedule.trace step.source ops = .ok rest ∧ moves = ⟨op, s, source, step⟩ :: rest := by
  rw [trace, Checked.bind_eq_ok_iff]
  constructor
  · rintro ⟨step, hop, hrest⟩
    obtain ⟨rest, htrace, hmoves⟩ := Checked.bind_eq_ok_iff.mp hrest
    cases hmoves
    exact ⟨step, rest, hop, htrace, rfl⟩
  · rintro ⟨step, rest, hop, htrace, rfl⟩
    exact ⟨step, hop, Checked.bind_eq_ok_iff.mpr ⟨rest, htrace, rfl⟩⟩

theorem map_op_trace (h : s.trace source ops = .ok moves) : moves.map Move.op = ops := by
  induction ops generalizing s source moves with
  | nil =>
    cases h
    rfl
  | cons op ops ih =>
    obtain ⟨step, rest, _, hrest, rfl⟩ := trace_cons_eq_ok_iff.mp h
    rw [List.map_cons, ih hrest]

/-! ## Looks -/

theorem looked_of_le (h : s.calls ≤ s.limit) (source : ρ) (look : Look) :
    s.looked source look = ⟨{ s with calls := s.calls + look.ticks }, source, none⟩ := by
  rw [looked, if_pos h]

theorem looked_of_lt (h : s.limit < s.calls) (source : ρ) (look : Look) :
    s.looked source look = { s.redraw source with
      schedule := { (s.redraw source).schedule with calls := s.calls + look.ticks } } := by
  rw [looked, if_neg (Nat.not_le_of_gt h)]

@[simp] theorem redrawn_looked (s : Schedule) (source : ρ) (look : Look) :
    (s.looked source look).redrawn = decide (s.limit < s.calls) := by
  rcases Nat.lt_or_ge s.limit s.calls with h | h
  · rw [looked_of_lt h, decide_eq_true h]
    rfl
  · rw [looked_of_le h, decide_eq_false (Nat.not_lt_of_ge h)]
    rfl

@[simp] theorem calls_looked (s : Schedule) (source : ρ) (look : Look) :
    (s.looked source look).schedule.calls = s.calls + look.ticks :=
  rfl

@[simp] theorem settings_looked (s : Schedule) (source : ρ) (look : Look) :
    (s.looked source look).schedule.settings = s.settings := by
  unfold looked
  split <;> rfl

@[simp] theorem usedValues_looked (s : Schedule) (source : ρ) (look : Look) :
    (s.looked source look).schedule.usedValues = s.usedValues := by
  unfold looked
  split <;> rfl

theorem limit_looked (s : Schedule) (source : ρ) (look : Look) :
    (s.looked source look).schedule.limit =
      if s.calls ≤ s.limit then s.limit else s.calls + s.settings.level.toNat := by
  unfold looked
  split <;> rfl

theorem fixedValues_looked (s : Schedule) (source : ρ) (look : Look) :
    (s.looked source look).schedule.fixedValues =
      if s.calls ≤ s.limit then s.fixedValues
      else (RandomSource.unit source).1 * Binary64.ofNat s.usedValues := by
  unfold looked
  split <;> rfl

theorem source_looked (s : Schedule) (source : ρ) (look : Look) :
    (s.looked source look).source =
      if s.calls ≤ s.limit then source else (RandomSource.unit source).2 := by
  unfold looked
  split <;> rfl

theorem update_eq_looked_iff :
    s.update source = .ok step ↔ s.Fits .update ∧ step = s.looked source .update := by
  rw [update_eq]
  rcases Nat.lt_or_ge s.limit s.calls with h | h
  · rw [if_neg (Nat.not_le_of_gt h), looked_of_lt h]
    split
    · rename_i hfits
      rw [Except.ok.injEq, eq_comm]
      exact (and_iff_right ⟨fun _ => hfits, nofun⟩).symm
    · rename_i hfits
      exact ⟨nofun, fun hboth => absurd (hboth.1.limit h) hfits⟩
  · rw [if_pos h, looked_of_le h, Except.ok.injEq, eq_comm]
    exact (and_iff_right ⟨fun hlt => absurd hlt (Nat.not_lt_of_ge h), nofun⟩).symm

theorem tick_eq_looked_iff :
    s.tick source = .ok step ↔ s.Fits .tick ∧ step = s.looked source .tick := by
  rw [tick_eq_ok_iff]
  constructor
  · rintro ⟨seen, hseen, hcalls, rfl⟩
    obtain ⟨hfits, rfl⟩ := update_eq_looked_iff.mp hseen
    exact ⟨⟨hfits.limit, fun _ => hcalls⟩, rfl⟩
  · rintro ⟨hfits, rfl⟩
    exact ⟨_, update_eq_looked_iff.mpr ⟨⟨hfits.limit, nofun⟩, rfl⟩, hfits.calls rfl, rfl⟩

theorem look_eq_ok_iff :
    s.look source look = .ok step ↔ s.Fits look ∧ step = s.looked source look := by
  cases look with
  | tick => exact tick_eq_looked_iff
  | update => exact update_eq_looked_iff

theorem fits_iff (hcalls : s.calls < UInt64.size) :
    s.Fits look ↔ (s.limit < s.calls → s.calls + s.settings.level.toNat < UInt64.size) ∧
      s.calls + look.ticks < UInt64.size := by
  constructor
  · intro h
    refine ⟨h.limit, ?_⟩
    cases look with
    | tick => exact h.calls rfl
    | update => exact hcalls
  · rintro ⟨hlimit, hticks⟩
    refine ⟨hlimit, ?_⟩
    rintro rfl
    exact hticks

theorem perform_look_eq_ok_iff :
    s.perform source (.look look) = .ok step ↔ s.Fits look ∧ step = s.looked source look :=
  look_eq_ok_iff

theorem exists_perform (hcalls : s.calls + UInt32.size ≤ UInt64.size) (source : ρ)
    (op : Operation) : ∃ step, s.perform source op = .ok step := by
  cases op with
  | reset usedValues => exact ⟨_, rfl⟩
  | look look =>
    cases look with
    | tick => exact exists_tick hcalls source
    | update => exact exists_update hcalls source

theorem calls_perform_le (h : s.perform source op = .ok step) :
    step.schedule.calls ≤ s.calls + [op].count (.look .tick) := by
  cases op with
  | reset usedValues =>
    cases h
    exact Nat.zero_le _
  | look look =>
    obtain ⟨_, rfl⟩ := perform_look_eq_ok_iff.mp h
    rw [calls_looked]
    cases look <;> exact Nat.le_refl _

/-- A run can only fault at the end of the 64-bit range. -/
theorem exists_trace (hcalls : s.calls + ops.count (.look .tick) + UInt32.size ≤ UInt64.size)
    (source : ρ) : ∃ moves, s.trace source ops = .ok moves := by
  induction ops generalizing s source with
  | nil => exact ⟨[], rfl⟩
  | cons op ops ih =>
    rw [← List.singleton_append, List.count_append] at hcalls
    obtain ⟨step, hstep⟩ := exists_perform (s := s) (by omega) source op
    have hcounted := calls_perform_le hstep
    obtain ⟨rest, hrest⟩ := ih (s := step.schedule) (by omega) step.source
    exact ⟨_, trace_cons_eq_ok_iff.mpr ⟨step, rest, hstep, hrest, rfl⟩⟩

/-! ## Settings -/

theorem settings_perform (h : s.perform source op = .ok step) :
    step.schedule.settings = s.settings := by
  cases op with
  | reset usedValues =>
    cases h
    rfl
  | look look =>
    obtain ⟨_, rfl⟩ := perform_look_eq_ok_iff.mp h
    exact settings_looked s source look

theorem settings_trace (h : s.trace source ops = .ok moves) :
    ∀ move ∈ moves, move.before.settings = s.settings ∧
      move.step.schedule.settings = s.settings := by
  induction ops generalizing s source moves with
  | nil =>
    cases h
    intro move hmem
    cases hmem
  | cons op ops ih =>
    obtain ⟨step, rest, hstep, hrest, rfl⟩ := trace_cons_eq_ok_iff.mp h
    have hkept := settings_perform hstep
    rintro move (_ | ⟨_, hmem⟩)
    · exact ⟨rfl, hkept⟩
    · rw [← hkept]
      exact ih hrest move hmem

end

end LargeNeighborhood.Schedule
