import LargeNeighborhood.Proofs.Draws.Ranks
import LargeNeighborhood.Proofs.Schedule.Run
import Mathlib.Data.List.DropRight

/-!
# The configured proportion

A schedule consults its proportion at a reset only, and the first redraw after the reset overwrites
what came of it. Two schedules that differ in the proportion keep the same pace, and their sizes
differ from a reset to the next redraw at most.
-/

namespace LargeNeighborhood.Schedule

def sinceReset (moves : List (Move ρ)) : List (Move ρ) :=
  moves.rtakeWhile fun move => !move.op.isReset

def Redrawn (moves : List (Move ρ)) : Prop :=
  ∃ move ∈ sinceReset moves, move.step.redrawn = true

def Counted (moves : List (Move ρ)) : Prop :=
  ∃ move ∈ sinceReset moves, move.op = .look .tick

/-- The same operation with the same effect on all but the size. -/
structure Move.SamePace (move move' : Move ρ) : Prop where
  op : move.op = move'.op
  calls : move.step.schedule.calls = move'.step.schedule.calls
  limit : move.step.schedule.limit = move'.step.schedule.limit
  usedValues : move.step.schedule.usedValues = move'.step.schedule.usedValues
  redrawn : move.step.redrawn = move'.step.redrawn
  source : move.step.source = move'.step.source

/-- Runs that differ in the size alone, and there only as long as it comes of the proportion. -/
structure SameRuns (moves moves' : List (Move ρ)) : Prop where
  pace : List.Forall₂ Move.SamePace moves moves'
  size : ∀ i move move', moves[i]? = some move → moves'[i]? = some move' →
    Redrawn (moves.take (i + 1)) →
      move.step.schedule.fixedValues = move'.step.schedule.fixedValues ∧
        move.step.schedule.target = move'.step.schedule.target
  /-- A new cycle that is not the first one has the same target. -/
  tick : ∀ i move move', moves[i]? = some move → moves'[i]? = some move' →
    move.op = .look .tick → Counted (moves.take i) →
      move.step.schedule.target = move'.step.schedule.target

structure Paired (seen : List (Move ρ)) (s s' : Schedule) : Prop where
  level : s.settings.level = s'.settings.level
  calls : s.calls = s'.calls
  limit : s.limit = s'.limit
  usedValues : s.usedValues = s'.usedValues
  fixedValues : Redrawn seen → s.fixedValues = s'.fixedValues
  limit_eq_zero : ¬ Redrawn seen → s.limit = 0
  calls_pos : Counted seen → 0 < s.calls

section

variable {move : Move ρ} {moves : List (Move ρ)}

theorem sinceReset_concat_of_reset (h : move.op.isReset = true) :
    sinceReset (moves ++ [move]) = [] := by
  rw [sinceReset, List.rtakeWhile_concat_neg _ _ _ (by simp [h])]

theorem sinceReset_concat_of_look {look : Look} (h : move.op = .look look) :
    sinceReset (moves ++ [move]) = sinceReset moves ++ [move] := by
  rw [sinceReset, List.rtakeWhile_concat_pos _ _ _ (by simp [h, Operation.isReset])]
  rfl

theorem redrawn_concat_of_look {look : Look} (h : move.op = .look look) :
    Redrawn (moves ++ [move]) ↔ Redrawn moves ∨ move.step.redrawn = true := by
  simp only [Redrawn, sinceReset_concat_of_look h, List.mem_append, List.mem_singleton,
    or_and_right, exists_or, exists_eq_left]

theorem counted_concat_of_look {look : Look} (h : move.op = .look look) :
    Counted (moves ++ [move]) ↔ Counted moves ∨ look = .tick := by
  simp only [Counted, sinceReset_concat_of_look h, List.mem_append, List.mem_singleton,
    or_and_right, exists_or, exists_eq_left, h, Operation.look.injEq]

end

section

variable {s s' : Schedule} {seen : List (Move ρ)} {look : Look}

theorem Paired.ofSettings {settings settings' : Settings}
    (hlevel : settings.level = settings'.level) :
    Paired ([] : List (Move ρ)) (.ofSettings settings) (.ofSettings settings') :=
  ⟨hlevel, rfl, rfl, rfl, fun _ => rfl, fun _ => rfl, by rintro ⟨move, hmem, _⟩; cases hmem⟩

theorem Paired.fits (h : Paired seen s s') (hfits : s.Fits look) : s'.Fits look := by
  obtain ⟨hlimit, hcalls⟩ := hfits
  rw [h.limit, h.calls, h.level] at hlimit
  rw [h.calls] at hcalls
  exact ⟨hlimit, hcalls⟩

theorem Paired.reset (h : Paired seen s s') (usedValues : Nat) (source : ρ) :
    Paired (seen ++ [⟨.reset usedValues, s, source, ⟨s.reset usedValues, source, none⟩⟩])
      (s.reset usedValues) (s'.reset usedValues) := by
  have hnone : ∀ move : Move ρ, move ∉ sinceReset
      (seen ++ [⟨.reset usedValues, s, source, ⟨s.reset usedValues, source, none⟩⟩]) := by
    intro move
    rw [sinceReset_concat_of_reset rfl]
    exact List.not_mem_nil
  refine ⟨h.level, rfl, rfl, rfl, ?_, fun _ => rfl, ?_⟩
  · rintro ⟨move, hmem, _⟩
    exact absurd hmem (hnone move)
  · rintro ⟨move, hmem, _⟩
    exact absurd hmem (hnone move)

end

/-! ## One operation -/

section

variable [RandomSource ρ] {s s' : Schedule} {source : ρ} {op : Operation} {ops : List Operation}
  {seen : List (Move ρ)} {step : Step ρ} {moves : List (Move ρ)}

theorem Paired.fixedValues_looked (h : Paired seen s s') (source : ρ) (look : Look)
    (hredrawn : Redrawn (seen ++ [⟨.look look, s, source, s.looked source look⟩])) :
    (s.looked source look).schedule.fixedValues =
      (s'.looked source look).schedule.fixedValues := by
  rw [Schedule.fixedValues_looked, Schedule.fixedValues_looked, ← h.calls, ← h.limit,
    ← h.usedValues]
  split
  · rename_i hle
    rcases (redrawn_concat_of_look rfl).mp hredrawn with hbefore | hnow
    · exact h.fixedValues hbefore
    · rw [redrawn_looked, decide_eq_true_iff] at hnow
      exact absurd hle (Nat.not_le_of_gt hnow)
  · rfl

theorem Paired.looked (h : Paired seen s s') (source : ρ) (look : Look) :
    Paired (seen ++ [⟨.look look, s, source, s.looked source look⟩])
      (s.looked source look).schedule (s'.looked source look).schedule := by
  refine ⟨?_, ?_, ?_, ?_, h.fixedValues_looked source look, ?_, ?_⟩
  · rw [settings_looked, settings_looked, h.level]
  · rw [calls_looked, calls_looked, h.calls]
  · rw [limit_looked, limit_looked, h.calls, h.limit, h.level]
  · rw [usedValues_looked, usedValues_looked, h.usedValues]
  · intro hnone
    rw [redrawn_concat_of_look rfl, not_or, redrawn_looked, decide_eq_true_iff] at hnone
    rw [limit_looked, if_pos (Nat.le_of_not_lt hnone.2), h.limit_eq_zero hnone.1]
  · intro hcounted
    rw [calls_looked]
    rcases (counted_concat_of_look rfl).mp hcounted with hbefore | rfl
    · exact Nat.add_pos_left (h.calls_pos hbefore) _
    · exact Nat.succ_pos _

theorem Paired.samePace_looked (h : Paired seen s s') (source : ρ) (look : Look) :
    Move.SamePace ⟨.look look, s, source, s.looked source look⟩
      ⟨.look look, s', source, s'.looked source look⟩ := by
  have hlater := h.looked source look
  refine ⟨rfl, hlater.calls, hlater.limit, hlater.usedValues, ?_, ?_⟩
  · dsimp only
    rw [redrawn_looked, redrawn_looked, h.calls, h.limit]
  · dsimp only
    rw [source_looked, source_looked, h.calls, h.limit]

/-- A cycle after the first one finds the limit passed, if it has not been moved before. -/
theorem Paired.redrawn_of_calls_pos (h : Paired seen s s') (source : ρ) (look : Look)
    (hcalls : 0 < s.calls) :
    Redrawn (seen ++ [⟨.look look, s, source, s.looked source look⟩]) := by
  rw [redrawn_concat_of_look rfl, redrawn_looked, decide_eq_true_iff]
  by_cases hbefore : Redrawn seen
  · exact .inl hbefore
  · rw [h.limit_eq_zero hbefore]
    exact .inr hcalls

theorem Paired.perform (h : Paired seen s s') (hstep : s.perform source op = .ok step) :
    ∃ step', s'.perform source op = .ok step' ∧
      Move.SamePace ⟨op, s, source, step⟩ ⟨op, s', source, step'⟩ ∧
      Paired (seen ++ [⟨op, s, source, step⟩]) step.schedule step'.schedule ∧
      (op = .look .tick → Counted seen →
        step.schedule.fixedValues = step'.schedule.fixedValues) := by
  cases op with
  | reset usedValues =>
    cases hstep
    exact ⟨_, rfl, ⟨rfl, rfl, rfl, rfl, rfl, rfl⟩, h.reset usedValues source, nofun⟩
  | look look =>
    obtain ⟨hfits, rfl⟩ := perform_look_eq_ok_iff.mp hstep
    refine ⟨_, perform_look_eq_ok_iff.mpr ⟨h.fits hfits, rfl⟩, h.samePace_looked source look,
      h.looked source look, ?_⟩
    intro _ hcounted
    exact h.fixedValues_looked source look
      (h.redrawn_of_calls_pos source look (h.calls_pos hcounted))

/-! ## Whole runs -/

theorem Paired.trace (h : Paired seen s s') (hrun : s.trace source ops = .ok moves) :
    ∃ moves', s'.trace source ops = .ok moves' ∧ List.Forall₂ Move.SamePace moves moves' ∧
      ∀ i move move', moves[i]? = some move → moves'[i]? = some move' →
        Redrawn (seen ++ moves.take (i + 1)) ∨
          (move.op = .look .tick ∧ Counted (seen ++ moves.take i)) →
        move.step.schedule.fixedValues = move'.step.schedule.fixedValues := by
  -- `seen` carries what the schedules went through before this part of the run
  induction ops generalizing s s' source seen moves with
  | nil =>
    cases hrun
    refine ⟨[], rfl, .nil, ?_⟩
    intro i move move' hmove
    cases hmove
  | cons op ops ih =>
    obtain ⟨step, rest, hstep, hrest, rfl⟩ := trace_cons_eq_ok_iff.mp hrun
    obtain ⟨step', hstep', hpace, hpaired, htick⟩ := h.perform hstep
    have hsource : step.source = step'.source := hpace.source
    obtain ⟨rest', hrest', hpaces, hsizes⟩ := ih hpaired hrest
    rw [hsource] at hrest'
    refine ⟨_, trace_cons_eq_ok_iff.mpr ⟨step', rest', hstep', hrest', rfl⟩,
      .cons hpace hpaces, ?_⟩
    intro i move move' hmove hmove' hreason
    cases i with
    | zero =>
      cases hmove
      cases hmove'
      rcases hreason with hredrawn | ⟨hop, hcounted⟩
      · exact hpaired.fixedValues hredrawn
      · rw [List.take_zero, List.append_nil] at hcounted
        exact htick hop hcounted
    | succ i =>
      apply hsizes i move move' hmove hmove'
      rwa [List.append_assoc, List.append_assoc]

/-- Of two schedules with one level, whatever their proportions, the runs with the same operations
and randomness keep one pace; their sizes agree as soon as one was redrawn since the last reset, and
each later cycle has one target. -/
theorem proportion_forgotten (settings settings' : Settings)
    (hlevel : settings.level = settings'.level) (source : ρ) (ops : List Operation) :
    (∀ moves, (ofSettings settings).trace source ops = .ok moves →
      ∃ moves', (ofSettings settings').trace source ops = .ok moves' ∧ SameRuns moves moves') ∧
    ((∃ moves, (ofSettings settings).trace source ops = .ok moves) ↔
      ∃ moves', (ofSettings settings').trace source ops = .ok moves') ∧
    (ops.count (.look .tick) + UInt32.size ≤ UInt64.size →
      ∃ moves, (ofSettings settings).trace source ops = .ok moves) := by
  refine ⟨?_, ⟨?_, ?_⟩, ?_⟩
  · intro moves hrun
    obtain ⟨moves', hrun', hpace, hsizes⟩ := (Paired.ofSettings hlevel).trace hrun
    refine ⟨moves', hrun', hpace, ?_, ?_⟩
    · intro i move move' hmove hmove' hredrawn
      have hsize := hsizes i move move' hmove hmove' (.inl hredrawn)
      exact ⟨hsize, congrArg Binary64.truncate hsize⟩
    · intro i move move' hmove hmove' hop hcounted
      exact congrArg Binary64.truncate (hsizes i move move' hmove hmove' (.inr ⟨hop, hcounted⟩))
  · rintro ⟨moves, hrun⟩
    obtain ⟨moves', hrun', _⟩ := (Paired.ofSettings hlevel).trace hrun
    exact ⟨moves', hrun'⟩
  · rintro ⟨moves', hrun'⟩
    obtain ⟨moves, hrun, _⟩ := (Paired.ofSettings hlevel.symm).trace hrun'
    exact ⟨moves, hrun⟩
  · intro hcalls
    exact exists_trace (by rwa [show (ofSettings settings).calls = 0 from rfl, Nat.zero_add]) source

end

def twoSnapshots : List Operation :=
  [.reset 3, .look .tick, .look .tick, .look .update, .look .tick, .reset 2, .look .update,
    .look .tick, .look .update, .look .tick]

/-- A proportion that is no number at all and an infinite one: only the first target of each
snapshot tells them apart. -/
theorem proportion_forgotten_twoSnapshots :
    ∃ moves moves', (ofSettings ⟨Binary64.nan, 1⟩).trace (⟨[]⟩ : Script) twoSnapshots =
        .ok moves ∧
      (ofSettings ⟨Binary64.infinite false, 1⟩).trace (⟨[]⟩ : Script) twoSnapshots =
        .ok moves' ∧
      SameRuns moves moves' ∧
      (moves.zip moves').map (fun (move, move') =>
          decide (move.step.schedule.target = move'.step.schedule.target)) =
        [false, false, true, true, true, false, false, false, true, true] := by
  obtain ⟨hpaired, _, hexists⟩ := proportion_forgotten ⟨Binary64.nan, 1⟩
    ⟨Binary64.infinite false, 1⟩ rfl (⟨[]⟩ : Script) twoSnapshots
  obtain ⟨moves, hrun⟩ := hexists (by decide)
  obtain ⟨moves', hrun', hsame⟩ := hpaired moves hrun
  have htargets : (ofSettings ⟨Binary64.nan, 1⟩).trace (⟨[]⟩ : Script) twoSnapshots >>=
      (fun moves => ((ofSettings ⟨Binary64.infinite false, 1⟩).trace (⟨[]⟩ : Script)
        twoSnapshots).map fun moves' => (moves.zip moves').map fun (move, move') =>
          decide (move.step.schedule.target = move'.step.schedule.target)) =
      .ok [false, false, true, true, true, false, false, false, true, true] := by
    decide +kernel
  rw [hrun, hrun'] at htargets
  exact ⟨moves, moves', hrun, hrun', hsame, Except.ok.inj htargets⟩

end LargeNeighborhood.Schedule
