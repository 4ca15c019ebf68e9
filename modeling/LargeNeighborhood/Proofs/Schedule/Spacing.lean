import LargeNeighborhood.Proofs.Schedule.Run
import LargeNeighborhood.Random.Stream
import Mathlib.Data.List.Sort
import Mathlib.Logic.Function.Iterate

/-!
# The spacing of redraws

A redraw at a count moves the limit `level` counts on, and the first count past a limit is redrawn
at. So the counts of the redraws form an arithmetic progression that no relaxation can shift: each
look redraws exactly if it is the first to see a count of the progression.
-/

namespace LargeNeighborhood.Schedule

def redrawnAt (moves : List (Move ρ)) : List Nat :=
  (moves.filter (·.step.redrawn)).map (·.before.calls)

/-- The counts that looks see, the first of them seeing `calls`. -/
def counts (calls : Nat) : List Look → List Nat
  | [] => []
  | look :: looks => calls :: counts (calls + look.ticks) looks

def IsTerm (level calls : Nat) : Prop :=
  ∃ j, calls = 1 + j * (level + 1)

/-- The looks see the count, and it is a term past the limit. -/
def Due (s : Schedule) (looks : List Look) (calls : Nat) : Prop :=
  calls ∈ counts s.calls looks ∧ IsTerm s.settings.level.toNat calls ∧ s.limit < calls

def limitAfter (level : Nat) (redraws : List Nat) : Nat :=
  match redraws.getLast? with
  | none => 0
  | some calls => calls + level

/-- The limit lies just below a term, and the count has not passed that term. -/
structure Spaced (s : Schedule) : Prop where
  dvd_limit : s.settings.level.toNat + 1 ∣ s.limit
  calls_le : s.calls ≤ s.limit + 1

/-! ## Counts -/

theorem le_of_mem_counts {looks : List Look} {first calls : Nat} (h : calls ∈ counts first looks) :
    first ≤ calls := by
  induction looks generalizing first with
  | nil => cases h
  | cons look looks ih =>
    rcases List.mem_cons.mp h with rfl | hmem
    · exact Nat.le_refl _
    · exact Nat.le_of_add_right_le (ih hmem)

theorem counts_replicate_tick (first times : Nat) :
    counts first (List.replicate times .tick) = List.range' first times := by
  induction times generalizing first with
  | zero => rfl
  | succ times ih => rw [List.replicate_succ, counts, Look.ticks, ih, List.range'_succ]

theorem count_tick_cons (look : Look) (looks : List Look) :
    (look :: looks).count .tick = look.ticks + looks.count .tick := by
  cases look <;> simp [Look.ticks, Nat.add_comm]

theorem limitAfter_concat (level : Nat) (redraws : List Nat) (calls : Nat) :
    limitAfter level (redraws ++ [calls]) = calls + level := by
  rw [limitAfter, List.getLast?_concat]

theorem redrawnAt_singleton (move : Move ρ) :
    redrawnAt [move] = if move.step.redrawn then [move.before.calls] else [] := by
  unfold redrawnAt
  rw [List.filter_singleton]
  cases move.step.redrawn <;> rfl

theorem redrawnAt_append (moves moves' : List (Move ρ)) :
    redrawnAt (moves ++ moves') = redrawnAt moves ++ redrawnAt moves' := by
  rw [redrawnAt, List.filter_append, List.map_append]
  rfl

theorem mem_redrawnAt_cons {move : Move ρ} {moves : List (Move ρ)} {calls : Nat} :
    calls ∈ redrawnAt (move :: moves) ↔
      (move.step.redrawn = true ∧ calls = move.before.calls) ∨ calls ∈ redrawnAt moves := by
  rw [← List.singleton_append, redrawnAt_append, List.mem_append, redrawnAt_singleton]
  cases move.step.redrawn <;> simp

/-! ## The limit and the progression -/

section

variable {s : Schedule}

theorem IsNew.eq_zero (h : s.IsNew) : s.calls = 0 ∧ s.limit = 0 := by
  cases h with
  | ofSettings settings => exact ⟨rfl, rfl⟩
  | reset s usedValues => exact ⟨rfl, rfl⟩

theorem IsNew.spaced (h : s.IsNew) : s.Spaced := by
  obtain ⟨hcalls, hlimit⟩ := h.eq_zero
  exact ⟨by rw [hlimit]; exact Nat.dvd_zero _, by omega⟩

theorem IsNew.due_iff (h : s.IsNew) {looks : List Look} {calls : Nat} :
    s.Due looks calls ↔
      calls ∈ counts 0 looks ∧ ∃ j, calls = 1 + j * (s.settings.level.toNat + 1) := by
  obtain ⟨hcalls, hlimit⟩ := h.eq_zero
  rw [Due, hcalls, hlimit]
  constructor
  · exact fun ⟨hmem, hterm, _⟩ => ⟨hmem, hterm⟩
  · rintro ⟨hmem, j, rfl⟩
    exact ⟨hmem, ⟨j, rfl⟩, by omega⟩

theorem Spaced.isTerm (h : s.Spaced) (hlt : s.limit < s.calls) :
    IsTerm s.settings.level.toNat s.calls := by
  obtain ⟨j, hj⟩ := h.dvd_limit
  have hcalls := h.calls_le
  refine ⟨j, ?_⟩
  rw [Nat.mul_comm, ← hj]
  omega

/-- The terms past the limit and past its successor differ by that successor alone. -/
theorem Spaced.lt_of_isTerm (h : s.Spaced) {calls : Nat}
    (hterm : IsTerm s.settings.level.toNat calls) (hlt : s.limit + 1 < calls) :
    s.limit + 1 + s.settings.level.toNat < calls := by
  obtain ⟨j, hj⟩ := h.dvd_limit
  obtain ⟨i, hi⟩ := hterm
  rw [Nat.mul_comm] at hj
  have hij : j < i := by
    apply Nat.lt_of_mul_lt_mul_right (a := s.settings.level.toNat + 1)
    omega
  have hle := Nat.mul_le_mul_right (s.settings.level.toNat + 1) hij
  rw [Nat.succ_mul] at hle
  omega

end

section

variable [RandomSource ρ] {s : Schedule} {source : ρ} {look : Look} {looks : List Look}
  {moves : List (Move ρ)}

/-! ## One look -/

theorem Spaced.looked (h : s.Spaced) (source : ρ) (look : Look) :
    (s.looked source look).schedule.Spaced := by
  have hticks : look.ticks ≤ 1 := by
    cases look <;> decide
  have hcalls := h.calls_le
  constructor
  · rw [limit_looked, settings_looked]
    split
    · exact h.dvd_limit
    · have hnext : s.calls + s.settings.level.toNat = s.limit + (s.settings.level.toNat + 1) := by
        omega
      rw [hnext]
      exact (Nat.dvd_add_self_right).mpr h.dvd_limit
  · rw [limit_looked, calls_looked]
    split <;> omega

theorem Spaced.limit_looked_lt_iff (h : s.Spaced) (source : ρ) (look : Look) {calls : Nat}
    (hterm : IsTerm s.settings.level.toNat calls) :
    (s.looked source look).schedule.limit < calls ↔ s.limit < calls ∧ s.calls < calls := by
  have hlater := h.lt_of_isTerm hterm
  have hcalls := h.calls_le
  rw [limit_looked]
  split
  · omega
  · constructor
    · omega
    · intro ⟨_, hlt⟩
      have hnext := hlater (by omega)
      omega

theorem Spaced.due_cons_iff (h : s.Spaced) (source : ρ) (look : Look) (looks : List Look)
    {calls : Nat} : s.Due (look :: looks) calls ↔
      (s.limit < s.calls ∧ calls = s.calls) ∨ (s.looked source look).schedule.Due looks calls := by
  rw [Due, Due, settings_looked, calls_looked, counts, List.mem_cons]
  constructor
  · rintro ⟨hmem, hterm, hlt⟩
    -- a later look may see the same count, but only the first one finds it past the limit
    by_cases hsame : calls = s.calls
    · exact .inl ⟨hsame ▸ hlt, hsame⟩
    · have hmem := hmem.resolve_left hsame
      have hle := le_of_mem_counts hmem
      exact .inr ⟨hmem, hterm, (h.limit_looked_lt_iff source look hterm).mpr ⟨hlt, by omega⟩⟩
  · rintro (⟨hlt, rfl⟩ | ⟨hmem, hterm, hlt⟩)
    · exact ⟨.inl rfl, h.isTerm hlt, hlt⟩
    · exact ⟨.inr hmem, hterm, ((h.limit_looked_lt_iff source look hterm).mp hlt).1⟩

/-! ## The counts of a run -/

theorem trace_looks_cons_eq_ok_iff :
    s.trace source ((look :: looks).map .look) = .ok moves ↔ s.Fits look ∧
      ∃ rest, (s.looked source look).schedule.trace (s.looked source look).source
          (looks.map .look) = .ok rest ∧
        moves = ⟨.look look, s, source, s.looked source look⟩ :: rest := by
  rw [List.map_cons, trace_cons_eq_ok_iff]
  constructor
  · rintro ⟨step, rest, hstep, hrest, rfl⟩
    obtain ⟨hfits, rfl⟩ := perform_look_eq_ok_iff.mp hstep
    exact ⟨hfits, rest, hrest, rfl⟩
  · rintro ⟨hfits, rest, hrest, rfl⟩
    exact ⟨_, rest, perform_look_eq_ok_iff.mpr ⟨hfits, rfl⟩, hrest, rfl⟩

theorem eq_looked_of_mem_trace (h : s.trace source (looks.map .look) = .ok moves) :
    ∀ move ∈ moves, ∃ look, move.op = .look look ∧
      move.step = move.before.looked move.source look := by
  induction looks generalizing s source moves with
  | nil =>
    cases h
    intro move hmem
    cases hmem
  | cons look looks ih =>
    obtain ⟨_, rest, hrest, rfl⟩ := trace_looks_cons_eq_ok_iff.mp h
    rintro move (_ | ⟨_, hmem⟩)
    · exact ⟨look, rfl, rfl⟩
    · exact ih hrest move hmem

theorem map_calls_trace (h : s.trace source (looks.map .look) = .ok moves) :
    moves.map (·.before.calls) = counts s.calls looks := by
  induction looks generalizing s source moves with
  | nil =>
    cases h
    rfl
  | cons look looks ih =>
    obtain ⟨_, rest, hrest, rfl⟩ := trace_looks_cons_eq_ok_iff.mp h
    rw [List.map_cons, ih hrest, calls_looked, counts]

/-- The size is redrawn at the counts that are due. -/
theorem Spaced.mem_redrawnAt (h : s.Spaced) (hrun : s.trace source (looks.map .look) = .ok moves)
    (calls : Nat) : calls ∈ redrawnAt moves ↔ s.Due looks calls := by
  induction looks generalizing s source moves with
  | nil =>
    cases hrun
    simp [redrawnAt, Due, counts]
  | cons look looks ih =>
    obtain ⟨_, rest, hrest, rfl⟩ := trace_looks_cons_eq_ok_iff.mp hrun
    rw [mem_redrawnAt_cons, redrawn_looked, decide_eq_true_iff, h.due_cons_iff source look looks,
      ih (h.looked source look) hrest]

theorem Spaced.pairwise_redrawnAt (h : s.Spaced)
    (hrun : s.trace source (looks.map .look) = .ok moves) :
    (redrawnAt moves).Pairwise (· < ·) := by
  induction looks generalizing s source moves with
  | nil =>
    cases hrun
    exact List.Pairwise.nil
  | cons look looks ih =>
    obtain ⟨_, rest, hrest, rfl⟩ := trace_looks_cons_eq_ok_iff.mp hrun
    have hspaced := h.looked source look
    rw [← List.singleton_append, redrawnAt_append, redrawnAt_singleton, List.pairwise_append]
    refine ⟨by split <;> simp, ih hspaced hrest, ?_⟩
    intro first hfirst calls hmem
    obtain ⟨_, hterm, hlt⟩ := (hspaced.mem_redrawnAt hrest calls).mp hmem
    rw [settings_looked] at hterm
    have hfirst : first = s.calls := by
      split at hfirst <;> simp_all
    rw [hfirst]
    exact ((h.limit_looked_lt_iff source look hterm).mp hlt).2

theorem Spaced.exists_trace_iff (h : s.Spaced) (hcalls : s.calls < UInt64.size) :
    (∃ moves, s.trace source (looks.map .look) = .ok moves) ↔
      s.calls + looks.count .tick < UInt64.size ∧
        ∀ calls, s.Due looks calls → calls + s.settings.level.toNat < UInt64.size := by
  induction looks generalizing s source with
  | nil =>
    have hnone : ∀ calls, ¬ s.Due [] calls := fun calls hdue => List.not_mem_nil hdue.1
    constructor
    · exact fun _ => ⟨hcalls, fun calls hdue => absurd hdue (hnone calls)⟩
    · exact fun _ => ⟨[], rfl⟩
  | cons look looks ih =>
    have hlater := @ih _ (s.looked source look).source (h.looked source look)
    rw [calls_looked, settings_looked] at hlater
    simp only [trace_looks_cons_eq_ok_iff, fits_iff hcalls, count_tick_cons, ← Nat.add_assoc]
    constructor
    · rintro ⟨moves, ⟨hlimit, hticks⟩, rest, hrest, rfl⟩
      obtain ⟨htotal, hdue⟩ := (hlater hticks).mp ⟨rest, hrest⟩
      refine ⟨htotal, ?_⟩
      intro calls hcount
      rcases (h.due_cons_iff source look looks).mp hcount with ⟨hlt, rfl⟩ | hcount
      · exact hlimit hlt
      · exact hdue calls hcount
    · rintro ⟨htotal, hdue⟩
      have hticks : s.calls + look.ticks < UInt64.size := by
        omega
      obtain ⟨rest, hrest⟩ := (hlater hticks).mpr ⟨htotal, fun calls hcount =>
        hdue calls ((h.due_cons_iff source look looks).mpr (.inr hcount))⟩
      refine ⟨_, ⟨?_, hticks⟩, rest, hrest, rfl⟩
      intro hlt
      exact hdue s.calls ((h.due_cons_iff source look looks).mpr (.inl ⟨hlt, rfl⟩))

/-! ## What the redraws leave -/

/-- The limit and the randomness tell of nothing but the redraws so far. -/
structure Shows (s : Schedule) (source start : ρ) (redraws : List Nat) : Prop where
  limit_eq : s.limit = limitAfter s.settings.level.toNat redraws
  source_eq : source = (fun source => (RandomSource.unit source).2)^[redraws.length] start

theorem Shows.looked {start : ρ} {redraws : List Nat} (h : s.Shows source start redraws)
    (look : Look) :
    (s.looked source look).schedule.Shows (s.looked source look).source start
      (redraws ++ redrawnAt [⟨.look look, s, source, s.looked source look⟩]) := by
  rw [redrawnAt_singleton, redrawn_looked]
  rcases Nat.lt_or_ge s.limit s.calls with hlt | hle
  · rw [if_pos (decide_eq_true hlt)]
    constructor
    · rw [limit_looked, if_neg (Nat.not_le_of_gt hlt), settings_looked, limitAfter_concat]
    · rw [source_looked, if_neg (Nat.not_le_of_gt hlt), List.length_append, List.length_singleton,
        Function.iterate_succ_apply', ← h.source_eq]
  · rw [decide_eq_false (Nat.not_lt_of_ge hle), if_neg Bool.false_ne_true, List.append_nil]
    constructor
    · rw [limit_looked, if_pos hle, settings_looked, h.limit_eq]
    · rw [source_looked, if_pos hle, ← h.source_eq]

theorem Shows.trace {start : ρ} {redraws : List Nat} (h : s.Shows source start redraws)
    (hrun : s.trace source (looks.map .look) = .ok moves) {i : Nat} {move : Move ρ}
    (hmove : moves[i]? = some move) :
    move.step.schedule.Shows move.step.source start
      (redraws ++ redrawnAt (moves.take (i + 1))) := by
  induction looks generalizing s source redraws moves i with
  | nil =>
    cases hrun
    cases hmove
  | cons look looks ih =>
    obtain ⟨_, rest, hrest, rfl⟩ := trace_looks_cons_eq_ok_iff.mp hrun
    cases i with
    | zero =>
      cases hmove
      exact h.looked look
    | succ i =>
      have hlater := ih (h.looked look) hrest hmove
      rwa [List.append_assoc, ← redrawnAt_append, List.singleton_append] at hlater

structure Move.IsLook (level : Nat) (move : Move ρ) : Prop where
  calls : ∃ look, move.op = .look look ∧
    move.step.schedule.calls = move.before.calls + look.ticks
  redrawn : move.step.redrawn = true →
    move.step.schedule.limit = move.before.calls + level ∧
      move.step.schedule.fixedValues =
        (RandomSource.unit move.source).1 * Binary64.ofNat move.before.usedValues ∧
      move.step.source = (RandomSource.unit move.source).2
  kept : move.step.redrawn = false →
    move.step.schedule.limit = move.before.limit ∧
      move.step.schedule.fixedValues = move.before.fixedValues ∧ move.step.source = move.source

theorem isLook_of_mem_trace (h : s.trace source (looks.map .look) = .ok moves) :
    ∀ move ∈ moves, move.IsLook s.settings.level.toNat := by
  intro move hmem
  obtain ⟨look, hop, hstep⟩ := eq_looked_of_mem_trace h move hmem
  rw [← (settings_trace h move hmem).1]
  refine ⟨⟨look, hop, by rw [hstep, calls_looked]⟩, ?_, ?_⟩
  · intro hredrawn
    rw [hstep, redrawn_looked, decide_eq_true_iff] at hredrawn
    rw [hstep, looked_of_lt hredrawn]
    exact ⟨rfl, rfl, rfl⟩
  · intro hkept
    rw [hstep, redrawn_looked, decide_eq_false_iff_not] at hkept
    rw [hstep, looked_of_le (Nat.le_of_not_lt hkept)]
    exact ⟨rfl, rfl, rfl⟩

/-! ## The closed form -/

/-- The redraws of a run of looks at a new schedule. -/
structure Regular (level : Nat) (source : ρ) (looks : List Look) (moves : List (Move ρ)) :
    Prop where
  counts_eq : moves.map (·.before.calls) = counts 0 looks
  /-- There is at most one redraw at a count. -/
  increasing : (redrawnAt moves).Pairwise (· < ·)
  mem_iff : ∀ calls, calls ∈ redrawnAt moves ↔
    calls ∈ counts 0 looks ∧ ∃ j, calls = 1 + j * (level + 1)
  of_ticks : ∀ times, looks = List.replicate times .tick →
    redrawnAt moves = (List.range (if times ≤ 1 then 0 else (times - 2) / (level + 1) + 1)).map
      fun j => 1 + j * (level + 1)
  look : ∀ move ∈ moves, move.IsLook level
  limit : ∀ i move, moves[i]? = some move →
    move.step.schedule.limit = limitAfter level (redrawnAt (moves.take (i + 1)))
  source : ∀ i move, moves[i]? = some move →
    move.step.source = (fun source => (RandomSource.unit source).2)^[
      (redrawnAt (moves.take (i + 1))).length] source

theorem term_lt_iff (level j times : Nat) :
    1 + j * (level + 1) < times ↔
      j < if times ≤ 1 then 0 else (times - 2) / (level + 1) + 1 := by
  split
  · omega
  · rw [Nat.lt_succ_iff, Nat.le_div_iff_mul_le (show 0 < level + 1 from Nat.succ_pos level)]
    omega

theorem IsNew.redrawnAt_ticks (hnew : s.IsNew) {times : Nat}
    (hrun : s.trace source ((List.replicate times .tick).map .look) = .ok moves) :
    redrawnAt moves = (List.range (if times ≤ 1 then 0 else
        (times - 2) / (s.settings.level.toNat + 1) + 1)).map
      fun j => 1 + j * (s.settings.level.toNat + 1) := by
  have hsorted : ((List.range (if times ≤ 1 then 0 else
      (times - 2) / (s.settings.level.toNat + 1) + 1)).map
        fun j => 1 + j * (s.settings.level.toNat + 1)).Pairwise (· < ·) := by
    rw [List.pairwise_map]
    apply List.pairwise_lt_range.imp
    intro i j hij
    exact Nat.add_lt_add_left (Nat.mul_lt_mul_of_pos_right hij (Nat.succ_pos _)) 1
  apply List.Pairwise.eq_of_mem_iff (hnew.spaced.pairwise_redrawnAt hrun) hsorted
  intro calls
  rw [hnew.spaced.mem_redrawnAt hrun, hnew.due_iff, counts_replicate_tick, List.mem_range'_1,
    List.mem_map]
  constructor
  · rintro ⟨⟨_, hlt⟩, j, rfl⟩
    exact ⟨j, List.mem_range.mpr ((term_lt_iff _ _ _).mp (by omega)), rfl⟩
  · rintro ⟨j, hj, rfl⟩
    have hlt := (term_lt_iff _ _ _).mpr (List.mem_range.mp hj)
    exact ⟨⟨by omega, by omega⟩, j, rfl⟩

theorem IsNew.regular (hnew : s.IsNew) (hrun : s.trace source (looks.map .look) = .ok moves) :
    Regular s.settings.level.toNat source looks moves := by
  obtain ⟨hcalls, hlimit⟩ := hnew.eq_zero
  have hshows : s.Shows source source [] := ⟨hlimit, rfl⟩
  refine ⟨?_, hnew.spaced.pairwise_redrawnAt hrun, ?_, ?_, isLook_of_mem_trace hrun, ?_, ?_⟩
  · rw [map_calls_trace hrun, hcalls]
  · intro calls
    rw [hnew.spaced.mem_redrawnAt hrun, hnew.due_iff]
  · rintro times rfl
    exact hnew.redrawnAt_ticks hrun
  · intro i move hmove
    have hlater := (hshows.trace hrun hmove).limit_eq
    rwa [(settings_trace hrun move (List.mem_of_getElem? hmove)).2] at hlater
  · intro i move hmove
    exact (hshows.trace hrun hmove).source_eq

/-- The counts of the redraws after a new start are the terms `1 + j * (level + 1)` that some look
sees, whether it ticks or relaxes. A run returns as long as neither counter leaves the 64-bit
range. -/
theorem redraws_spaced (hnew : s.IsNew) (source : ρ) (looks : List Look) :
    (∀ moves, s.trace source (looks.map .look) = .ok moves →
      Regular s.settings.level.toNat source looks moves) ∧
    ((∃ moves, s.trace source (looks.map .look) = .ok moves) ↔
      looks.count .tick < UInt64.size ∧
        ∀ calls ∈ counts 0 looks, (∃ j, calls = 1 + j * (s.settings.level.toNat + 1)) →
          calls + s.settings.level.toNat < UInt64.size) := by
  refine ⟨fun moves hrun => hnew.regular hrun, ?_⟩
  have hcalls : s.calls = 0 := hnew.eq_zero.1
  rw [hnew.spaced.exists_trace_iff (by rw [hcalls]; decide), hcalls, Nat.zero_add]
  simp only [hnew.due_iff, and_imp]

end

def relaxedTicks : List Look :=
  [.tick, .update, .tick, .tick, .update, .tick, .tick, .update, .update]

theorem redraws_spaced_relaxedTicks :
    ((Schedule.ofSettings ⟨Binary64.one, 1⟩).reset 3).IsNew ∧
    ∃ moves, ((Schedule.ofSettings ⟨Binary64.one, 1⟩).reset 3).trace (Random.Stream.ofSeed 7)
        (relaxedTicks.map .look) = .ok moves ∧
      Regular 1 (Random.Stream.ofSeed 7) relaxedTicks moves ∧ redrawnAt moves = [1, 3, 5] := by
  have hnew : ((Schedule.ofSettings ⟨Binary64.one, 1⟩).reset 3).IsNew := .reset _ 3
  obtain ⟨hregular, hexists⟩ := redraws_spaced hnew (Random.Stream.ofSeed 7) relaxedTicks
  have hfits : ∀ calls ∈ counts 0 relaxedTicks, calls + 1 < UInt64.size := by
    decide
  obtain ⟨moves, hrun⟩ := hexists.mpr ⟨by decide, fun calls hmem _ => hfits calls hmem⟩
  have hredraws : (((Schedule.ofSettings ⟨Binary64.one, 1⟩).reset 3).trace (Random.Stream.ofSeed 7)
      (relaxedTicks.map .look)).map redrawnAt = .ok [1, 3, 5] := by
    decide +kernel
  rw [hrun] at hredraws
  exact ⟨hnew, moves, hrun, hregular moves hrun, Except.ok.inj hredraws⟩

end LargeNeighborhood.Schedule
