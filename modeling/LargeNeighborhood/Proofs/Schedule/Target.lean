import LargeNeighborhood.Proofs.Numeric.Size
import LargeNeighborhood.Proofs.Schedule.Spacing

/-!
# The target before and after a redraw

Until the first redraw after a snapshot the size is a proportion of the groups plus one, so the
target is at least one and may cover all groups. A redrawn size is a random part of the groups, and
rounding does not lift it to all of them.
-/

namespace LargeNeighborhood

/-- Doubles are drawn as multiples of `2⁻⁵³` below one. -/
def RandomSource.DrawsParts (ρ : Type) [RandomSource ρ] : Prop :=
  ∀ source : ρ, ∃ m < 2 ^ 53, (unit source).1 = Binary64.ofRatio false m (1 <<< 53)

theorem Random.Stream.drawsParts : RandomSource.DrawsParts Random.Stream := by
  intro source
  have hlong := source.long_lt
  refine ⟨source.long.1 >>> 11, ?_, rfl⟩
  rw [Nat.shiftRight_eq_div_pow]
  simp only [UInt64.size] at hlong
  omega

namespace Schedule

/-- The size is the one of the snapshot until a limit is set, and a redrawn one from then on. -/
structure Sized (s : Schedule) : Prop where
  limit_eq_zero : s.calls = 0 → s.limit = 0
  fresh : s.limit = 0 →
    s.fixedValues = s.settings.proportion * Binary64.ofNat s.usedValues + Binary64.one
  redrawn : 0 < s.limit → ∃ m < 2 ^ 53,
    s.fixedValues = Binary64.ofRatio false m (1 <<< 53) * Binary64.ofNat s.usedValues

variable {s : Schedule}

theorem sized_reset (s : Schedule) (usedValues : Nat) : (s.reset usedValues).Sized :=
  ⟨fun _ => rfl, fun _ => rfl, fun h => absurd h (Nat.lt_irrefl 0)⟩

theorem Sized.looked [RandomSource ρ] (hparts : RandomSource.DrawsParts ρ) (h : s.Sized)
    (source : ρ) (look : Look) : (s.looked source look).schedule.Sized := by
  rcases Nat.lt_or_ge s.limit s.calls with hlt | hle
  · have hcounted : 0 < s.calls := Nat.zero_lt_of_lt hlt
    rw [looked_of_lt hlt]
    refine ⟨?_, ?_, ?_⟩
    · intro hcalls
      change s.calls + look.ticks = 0 at hcalls
      omega
    · intro hlimit
      change s.calls + s.settings.level.toNat = 0 at hlimit
      omega
    · intro _
      obtain ⟨m, hm, hpart⟩ := hparts source
      exact ⟨m, hm, by rw [← hpart]; rfl⟩
  · rw [looked_of_le hle]
    refine ⟨?_, h.fresh, h.redrawn⟩
    intro hcalls
    exact h.limit_eq_zero (Nat.add_eq_zero_iff.mp hcalls).1

theorem Sized.look [RandomSource ρ] (hparts : RandomSource.DrawsParts ρ) (h : s.Sized) {source : ρ}
    {look : Look} {step : Step ρ} (hstep : s.look source look = .ok step) :
    step.schedule.Sized := by
  obtain ⟨_, rfl⟩ := look_eq_ok_iff.mp hstep
  exact h.looked hparts source look

theorem Sized.trace [RandomSource ρ] (hparts : RandomSource.DrawsParts ρ) (h : s.Sized) {source : ρ}
    {looks : List Look} {moves : List (Move ρ)}
    (hrun : s.trace source (looks.map .look) = .ok moves) :
    ∀ move ∈ moves, move.step.schedule.Sized ∧
      move.step.schedule.usedValues = s.usedValues := by
  induction looks generalizing s source moves with
  | nil =>
    cases hrun
    intro move hmem
    cases hmem
  | cons look looks ih =>
    obtain ⟨_, rest, hrest, rfl⟩ := trace_looks_cons_eq_ok_iff.mp hrun
    have hlooked := h.looked hparts source look
    rintro move (_ | ⟨_, hmem⟩)
    · exact ⟨hlooked, usedValues_looked s source look⟩
    · rw [← usedValues_looked s source look]
      exact ih hlooked hrest move hmem

/-! ## Bounds -/

theorem Sized.fresh_target (h : s.Sized) (hproportion : s.settings.proportion.IsProportion)
    (hused : s.usedValues < 2 ^ 53) (hlimit : s.limit = 0) :
    1 ≤ s.target ∧ s.target ≤ s.usedValues + 1 := by
  obtain ⟨u, hu, hunits⟩ := hproportion.exists_units
  obtain ⟨v, hv, hproduct⟩ := hunits.mul_ofNat hu hused.le
  obtain ⟨w, hlower, hupper, hsize⟩ := hproduct.add_one hv hused
  rw [target, h.fresh hlimit]
  exact ⟨hsize.le_truncate ((Nat.one_mul _).trans_le hlower) (by decide), hsize.truncate_le hupper⟩

theorem Sized.redrawn_target (h : s.Sized) (hpos : 0 < s.usedValues)
    (hused : s.usedValues < 2 ^ 53) (hlimit : 0 < s.limit) :
    s.fixedValues < Binary64.ofNat s.usedValues ∧ s.target < s.usedValues := by
  obtain ⟨m, hm, hsize⟩ := h.redrawn hlimit
  obtain ⟨v, hv, hunits⟩ := Binary64.part_mul_ofNat hm hpos hused.le
  rw [target, hsize]
  exact ⟨(hunits.lt_iff (Binary64.isUnits_ofNat hused.le)).mpr hv, hunits.truncate_lt hv⟩

theorem Sized.first_target [RandomSource ρ] (hparts : RandomSource.DrawsParts ρ) (h : s.Sized)
    (hproportion : s.settings.proportion.IsProportion) (hused : s.usedValues < 2 ^ 53)
    (hcalls : s.calls = 0) (source : ρ) (look : Look) :
    1 ≤ (s.looked source look).schedule.target ∧
      (s.looked source look).schedule.target ≤ s.usedValues + 1 := by
  have hlimit : (s.looked source look).schedule.limit = 0 := by
    rw [limit_looked, if_pos (by omega), h.limit_eq_zero hcalls]
  have htarget := (h.looked hparts source look).fresh_target
  rw [settings_looked, usedValues_looked] at htarget
  exact htarget hproportion hused hlimit

theorem Sized.later_target [RandomSource ρ] (hparts : RandomSource.DrawsParts ρ) (h : s.Sized)
    (hpos : 0 < s.usedValues) (hused : s.usedValues < 2 ^ 53) (hcalls : 0 < s.calls) (source : ρ)
    (look : Look) : (s.looked source look).schedule.target < s.usedValues := by
  have hlimit : 0 < (s.looked source look).schedule.limit := by
    rw [limit_looked]
    split <;> omega
  have htarget := (h.looked hparts source look).redrawn_target
  rw [usedValues_looked] at htarget
  exact (htarget hpos hused hlimit).2

theorem limitAfter_eq_zero_iff {level : Nat} {redraws : List Nat}
    (hpos : ∀ calls ∈ redraws, 0 < calls) : limitAfter level redraws = 0 ↔ redraws = [] := by
  rw [limitAfter]
  cases hlast : redraws.getLast? with
  | none => simpa using hlast
  | some calls =>
    have hmem := List.mem_of_getLast? hlast
    have hcalls := hpos calls hmem
    change calls + level = 0 ↔ redraws = []
    constructor
    · intro hzero
      omega
    · rintro rfl
      cases hmem

theorem IsNew.limit_eq_zero_iff [RandomSource ρ] (hnew : s.IsNew) {source : ρ} {looks : List Look}
    {moves : List (Move ρ)} (hrun : s.trace source (looks.map .look) = .ok moves) {i : Nat}
    {move : Move ρ} (hmove : moves[i]? = some move) :
    move.step.schedule.limit = 0 ↔ redrawnAt (moves.take (i + 1)) = [] := by
  have hregular := hnew.regular hrun
  rw [hregular.limit i move hmove]
  apply limitAfter_eq_zero_iff
  intro calls hmem
  have hall : calls ∈ redrawnAt moves := by
    rw [← List.take_append_drop (i + 1) moves, redrawnAt_append]
    exact List.mem_append_left _ hmem
  obtain ⟨_, j, rfl⟩ := (hregular.mem_iff calls).mp hall
  omega

/-- The target after each look since a snapshot. -/
theorem targets_since_reset [RandomSource ρ] (hparts : RandomSource.DrawsParts ρ)
    (hproportion : s.settings.proportion.IsProportion) {used : Nat} (hpos : 0 < used)
    (hused : used < 2 ^ 53) {source : ρ} {looks : List Look} {moves : List (Move ρ)}
    (hrun : (s.reset used).trace source (looks.map .look) = .ok moves) {i : Nat} {move : Move ρ}
    (hmove : moves[i]? = some move) :
    if redrawnAt (moves.take (i + 1)) = [] then
      1 ≤ move.step.schedule.target ∧ move.step.schedule.target ≤ used + 1
    else
      move.step.schedule.fixedValues < Binary64.ofNat used ∧
        move.step.schedule.target ≤ used - 1 := by
  have hmem := List.mem_of_getElem? hmove
  obtain ⟨hsized, hkept⟩ := (sized_reset s used).trace hparts hrun move hmem
  have hsame : move.step.schedule.usedValues = used := hkept
  have hsettings := (settings_trace hrun move hmem).2
  have hlimit := (IsNew.reset s used).limit_eq_zero_iff hrun hmove
  split
  · rename_i hnone
    have htarget := hsized.fresh_target (by rwa [hsettings]) (by rwa [hsame]) (hlimit.mpr hnone)
    rwa [hsame] at htarget
  · rename_i hsome
    have hpassed : 0 < move.step.schedule.limit :=
      Nat.pos_of_ne_zero fun hzero => hsome (hlimit.mp hzero)
    obtain ⟨hsize, htarget⟩ := hsized.redrawn_target (by rwa [hsame]) (by rwa [hsame]) hpassed
    rw [hsame] at hsize htarget
    exact ⟨hsize, Nat.le_sub_one_of_lt htarget⟩

end Schedule

end LargeNeighborhood
