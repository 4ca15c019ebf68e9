import LargeNeighborhood.Proofs.Policy.Fairness
import LargeNeighborhood.Proofs.Policy.Run

/-!
# Runs on renamed values

A cycle draws ranks among the occupied groups, and the groups are ordered as their values. So all
that a run can tell of its snapshots is how many different values they have, and renaming the values
in increasing order renames the drawn values and nothing else, whatever the ranges of the policies.
-/

namespace LargeNeighborhood.Policy

variable {f : Int32 → Int32}

/-- The second operation records the images of the values of the first one, in any order and as
often as it likes; callbacks may differ. -/
inductive Operation.Image (f : Int32 → Int32) : Operation → Operation → Prop
  | snapshot {values values' : Array Int32}
    (himage : ∀ value, value ∈ values' ↔ ∃ old ∈ values, f old = value) :
    Image f (.snapshot values) (.snapshot values')
  | tick : Image f .tick .tick
  | relax : Image f .relax .relax
  | freeze {σ τ : Type} (target : Nat)
      (answer : Nat → σ → Except Contradiction Bool × σ) (state : σ)
    (answer' : Nat → τ → Except Contradiction Bool × τ) (state' : τ) :
    Image f (.freeze target answer state) (.freeze target answer' state')

/-- The second operation records the images position by position, and its callback answers alike. -/
inductive Operation.Moved (f : Int32 → Int32) : Operation → Operation → Prop
  | snapshot (values : Array Int32) : Moved f (.snapshot values) (.snapshot (values.map f))
  | tick : Moved f .tick .tick
  | relax : Moved f .relax .relax
  | freeze {σ τ : Type} {target : Nat}
      {answer : Nat → σ → Except Contradiction Bool × σ} {state : σ}
    {answer' : Nat → τ → Except Contradiction Bool × τ} {state' : τ}
    (halike : ∀ positions, replies answer' positions state' = replies answer positions state) :
    Moved f (.freeze target answer state) (.freeze target answer' state')

def Answer.rename (f : Int32 → Int32) : Answer → Answer
  | .cycle calls result =>
    .cycle calls (result.map fun outcome => ⟨outcome.drawn.map f, outcome.frozen⟩)
  | answer => answer

/-- Moves that leave one schedule and one source. Their targets are equal, and the values that the
second one draws are the images of those of the first one, in order. -/
structure Move.SameDraws (f : Int32 → Int32) (move move' : Move ρ) : Prop where
  schedule_eq : move'.policy.schedule = move.policy.schedule
  source_eq : move'.source = move.source
  answer : match move.answer, move'.answer with
    | .done, .done => True
    | .target count, .target count' => count' = count
    | .cycle _ (.ok outcome), .cycle _ (.ok outcome') => outcome'.drawn = outcome.drawn.map f
    | _, _ => False

/-! ## Two policies -/

/-- Two policies at one point of their schedules that have recorded values and their images, in one
order. -/
structure Renamed (f : Int32 → Int32) (values values' : List Int32) (p q : Policy) : Prop where
  settled : p.Settled values
  settled' : q.Settled values'
  schedule_eq : q.schedule = p.schedule
  increasing : ∀ x ∈ values, ∀ y ∈ values, x < y → f x < f y
  image : ∀ value, value ∈ values' ↔ ∃ old ∈ values, f old = value

section

variable {p q : Policy} {values values' : List Int32}

theorem Renamed.snapshot (h : Renamed f values values' p q) {next next' : Array Int32}
    {regrouped regrouped' : Regrouped}
    (hincreasing : ∀ x ∈ next, ∀ y ∈ next, x < y → f x < f y)
    (himage : ∀ value, value ∈ next' ↔ ∃ old ∈ next, f old = value)
    (hp : p.snapshot next = .ok regrouped) (hq : q.snapshot next' = .ok regrouped') :
    Renamed f next.toList next'.toList regrouped.policy regrouped'.policy := by
  have hsettled := (h.settled.snapshot hp).1
  have hsettled' := (h.settled'.snapshot hq).1
  simp only [← Array.mem_toList_iff] at hincreasing himage
  have hused : regrouped'.policy.groups.usedValues = regrouped.policy.groups.usedValues := by
    rw [← hsettled'.indexes.length_occupiedValues, ← hsettled.indexes.length_occupiedValues,
      hsettled.indexes.occupiedValues_map hsettled'.indexes hincreasing himage, List.length_map]
  refine ⟨hsettled, hsettled', ?_, hincreasing, himage⟩
  rw [schedule_snapshot hp, schedule_snapshot hq, h.schedule_eq, hused]

variable [RandomSource ρ]

theorem Renamed.drawOrder (h : Renamed f values values' p q) (target : Nat) (source : ρ) :
    (q.drawOrder target source).1.map q.groups.valueAt =
        ((p.drawOrder target source).1.map p.groups.valueAt).map f ∧
      (q.drawOrder target source).2 = (p.drawOrder target source).2 := by
  -- both cycles sample their occupied values in order, and those correspond one by one
  have hvalues := h.settled.indexes.occupiedValues_map h.settled'.indexes h.increasing h.image
  have hused : q.groups.usedValues = p.groups.usedValues := by
    rw [← h.settled'.usedValues_eq, h.schedule_eq, h.settled.usedValues_eq]
  have hdrawn := q.drawFrom_occupiedValues target source
  rw [hused, hvalues, drawFrom_map, p.drawFrom_occupiedValues] at hdrawn
  obtain ⟨hmap, hsource⟩ := Prod.mk.inj hdrawn
  exact ⟨hmap.symm, hsource.symm⟩

theorem Renamed.positions (h : Renamed f values (values.map f) p q) (target : Nat) (source : ρ) :
    (q.drawOrder target source).1.flatMap q.groups.positions =
      (p.drawOrder target source).1.flatMap p.groups.positions := by
  have hoccupied := (h.settled.nodup_drawOrder target source).2
  have hoccupied' := (h.settled'.nodup_drawOrder target source).2
  rw [h.settled.indexes.flatMap_positions_eq hoccupied,
    h.settled'.indexes.flatMap_positions_eq hoccupied', (h.drawOrder target source).1,
    List.flatMap_map]
  apply List.flatMap_congr
  intro value hvalue
  obtain ⟨id, hid, rfl⟩ := List.mem_map.mp hvalue
  exact ValueGroups.positionsOf_map (ValueGroups.injOn_of_increasing h.increasing)
    (h.settled.indexes.mem_values_of_occupied (hoccupied id hid))

/-! ## One operation -/

variable {source : ρ} {op op' : Operation} {ops ops' : List Operation} {move move' : Move ρ}
  {moves moves' : List (Move ρ)}

theorem Renamed.perform (h : Renamed f values values' p q) (hop : op.Image f op')
    (hincreasing : ∀ next, op = .snapshot next → ∀ x ∈ next, ∀ y ∈ next, x < y → f x < f y)
    (hp : p.perform source op = .ok move) (hq : q.perform source op' = .ok move')
    (hcalm : move.answer.isContradiction = false) (hcalm' : move'.answer.isContradiction = false) :
    Renamed f (op.recorded values) (op'.recorded values') move.policy move'.policy ∧
      Move.SameDraws f move move' := by
  have hsettled := (h.settled.perform hp).1
  have hsettled' := (h.settled'.perform hq).1
  cases hop with
  | snapshot himage =>
    obtain ⟨regrouped, hregrouped, rfl⟩ := perform_snapshot_eq_ok_iff.mp hp
    obtain ⟨regrouped', hregrouped', rfl⟩ := perform_snapshot_eq_ok_iff.mp hq
    have hnext := h.snapshot (hincreasing _ rfl) himage hregrouped hregrouped'
    exact ⟨hnext, hnext.schedule_eq, rfl, trivial⟩
  | tick =>
    obtain ⟨step, hstep, rfl⟩ := perform_tick_eq_ok_iff.mp hp
    obtain ⟨step', hstep', rfl⟩ := perform_tick_eq_ok_iff.mp hq
    rw [h.schedule_eq, hstep] at hstep'
    cases hstep'
    exact ⟨⟨hsettled, hsettled', rfl, h.increasing, h.image⟩, rfl, rfl, rfl⟩
  | relax =>
    obtain ⟨step, hstep, rfl⟩ := perform_relax_eq_ok_iff.mp hp
    obtain ⟨step', hstep', rfl⟩ := perform_relax_eq_ok_iff.mp hq
    rw [h.schedule_eq, hstep] at hstep'
    cases hstep'
    exact ⟨⟨hsettled, hsettled', rfl, h.increasing, h.image⟩, rfl, rfl, trivial⟩
  | freeze target answer state answer' state' =>
    obtain ⟨hdrawn, hsource⟩ := h.drawOrder target source
    obtain ⟨_, _, _, _, rfl⟩ := h.settled.perform_freeze hp hcalm
    obtain ⟨_, _, _, _, rfl⟩ := h.settled'.perform_freeze hq hcalm'
    exact ⟨h, h.schedule_eq, hsource, hdrawn⟩

theorem Operation.Moved.image (hop : op.Moved f op') : op.Image f op' := by
  cases hop with
  | snapshot values => exact .snapshot fun _ => Array.mem_map
  | tick => exact .tick
  | relax => exact .relax
  | freeze halike => exact .freeze _ _ _ _ _

theorem Operation.Moved.recorded_map (hop : op.Moved f op') (values : List Int32) :
    op'.recorded (values.map f) = (op.recorded values).map f := by
  cases hop with
  | snapshot next => exact Array.toList_map
  | tick => rfl
  | relax => rfl
  | freeze halike => rfl

theorem Renamed.answer_of_moved (h : Renamed f values (values.map f) p q) (hop : op.Moved f op')
    (hp : p.perform source op = .ok move) (hq : q.perform source op' = .ok move')
    (hcalm : move.answer.isContradiction = false) (hcalm' : move'.answer.isContradiction = false) :
    move'.answer = move.answer.rename f := by
  cases hop with
  | snapshot values =>
    obtain ⟨_, _, rfl⟩ := perform_snapshot_eq_ok_iff.mp hp
    obtain ⟨_, _, rfl⟩ := perform_snapshot_eq_ok_iff.mp hq
    rfl
  | tick =>
    obtain ⟨step, hstep, rfl⟩ := perform_tick_eq_ok_iff.mp hp
    obtain ⟨step', hstep', rfl⟩ := perform_tick_eq_ok_iff.mp hq
    rw [h.schedule_eq, hstep] at hstep'
    cases hstep'
    rfl
  | relax =>
    obtain ⟨step, _, rfl⟩ := perform_relax_eq_ok_iff.mp hp
    obtain ⟨step', _, rfl⟩ := perform_relax_eq_ok_iff.mp hq
    rfl
  | @freeze σ τ target answer state answer' state' halike =>
    obtain ⟨_, _, rfl, rfl, rfl⟩ := h.settled.perform_freeze hp hcalm
    obtain ⟨_, _, rfl, rfl, rfl⟩ := h.settled'.perform_freeze hq hcalm'
    rw [h.positions target source, halike, (h.drawOrder target source).1]
    rfl

/-! ## Runs -/

theorem Renamed.traces (h : Renamed f values values' p q)
    (hops : List.Forall₂ (Operation.Image f) ops ops')
    (hincreasing : ∀ next, .snapshot next ∈ ops → ∀ x ∈ next, ∀ y ∈ next, x < y → f x < f y)
    (hp : p.trace source ops = .ok moves) (hq : q.trace source ops' = .ok moves')
    (hcalm : ∀ move ∈ moves, move.answer.isContradiction = false)
    (hcalm' : ∀ move ∈ moves', move.answer.isContradiction = false) :
    List.Forall₂ (Move.SameDraws f) moves moves' := by
  induction hops generalizing p q values values' source moves moves' with
  | nil =>
    cases hp
    cases hq
    exact .nil
  | cons hop _ ih =>
    obtain ⟨move, rest, hmove, hrest, rfl⟩ := trace_cons_eq_ok_iff.mp hp
    obtain ⟨move', rest', hmove', hrest', rfl⟩ := trace_cons_eq_ok_iff.mp hq
    rw [List.forall_mem_cons] at hcalm hcalm'
    obtain ⟨hnext, hsame⟩ := h.perform hop
      (fun next hop => hincreasing next (hop ▸ List.mem_cons_self)) hmove hmove' hcalm.1 hcalm'.1
    rw [hsame.source_eq] at hrest'
    exact .cons hsame (ih hnext (fun next hmem => hincreasing next (List.mem_cons_of_mem _ hmem))
      hrest hrest' hcalm.2 hcalm'.2)

theorem Renamed.answers_of_moved (h : Renamed f values (values.map f) p q)
    (hops : List.Forall₂ (Operation.Moved f) ops ops')
    (hincreasing : ∀ next, .snapshot next ∈ ops → ∀ x ∈ next, ∀ y ∈ next, x < y → f x < f y)
    (hp : p.trace source ops = .ok moves) (hq : q.trace source ops' = .ok moves')
    (hcalm : ∀ move ∈ moves, move.answer.isContradiction = false)
    (hcalm' : ∀ move ∈ moves', move.answer.isContradiction = false) :
    moves'.map Move.answer = moves.map fun move => move.answer.rename f := by
  induction hops generalizing p q values source moves moves' with
  | nil =>
    cases hp
    cases hq
    rfl
  | cons hop _ ih =>
    obtain ⟨move, rest, hmove, hrest, rfl⟩ := trace_cons_eq_ok_iff.mp hp
    obtain ⟨move', rest', hmove', hrest', rfl⟩ := trace_cons_eq_ok_iff.mp hq
    rw [List.forall_mem_cons] at hcalm hcalm'
    have hanswer := h.answer_of_moved hop hmove hmove' hcalm.1 hcalm'.1
    obtain ⟨hnext, hsame⟩ := h.perform hop.image
      (fun next hop => hincreasing next (hop ▸ List.mem_cons_self)) hmove hmove' hcalm.1 hcalm'.1
    rw [hop.recorded_map] at hnext
    rw [hsame.source_eq] at hrest'
    rw [List.map_cons, List.map_cons, hanswer,
      ih hnext (fun next hmem => hincreasing next (List.mem_cons_of_mem _ hmem)) hrest hrest'
        hcalm.2 hcalm'.2]

theorem countP_isTick_eq (hops : List.Forall₂ (Operation.Image f) ops ops') :
    ops'.countP Operation.isTick = ops.countP Operation.isTick := by
  induction hops with
  | nil => rfl
  | cons hop _ ih => cases hop <;> simp [List.countP_cons, Operation.isTick, ih]

end

/-- The draws of a new policy depend on its snapshots through the order of their values alone. Let
another new policy, with a range of its own, take the same operations from the same source but
record the images of the values under an increasing map. Without contradictions both keep the same
schedule and source and draw corresponding values; and if the images are taken position by position
and the callbacks answer alike, their calls and frozen positions are equal. Both runs exist as long
as the values are in range and the counter of cycles fits. -/
theorem draws_of_order_type [RandomSource ρ] {min max min' max' : Int32} {settings : Settings}
    {p q : Policy} (hp : Policy.create min max settings = .ok p)
    (hq : Policy.create min' max' settings = .ok q) (source : ρ) {ops ops' : List Operation}
    (hops : List.Forall₂ (Operation.Image f) ops ops')
    (hincreasing : ∀ values, .snapshot values ∈ ops → ∀ x ∈ values, ∀ y ∈ values,
      x < y → f x < f y) :
    (∀ moves moves', p.trace source ops = .ok moves → q.trace source ops' = .ok moves' →
      (∀ move ∈ moves, move.answer.isContradiction = false) →
      (∀ move ∈ moves', move.answer.isContradiction = false) →
        List.Forall₂ (Move.SameDraws f) moves moves' ∧
        (List.Forall₂ (Operation.Moved f) ops ops' →
          moves'.map Move.answer = moves.map fun move => move.answer.rename f)) ∧
    ((∀ op ∈ ops, op.Within p.bounds) → (∀ op ∈ ops', op.Within q.bounds) →
      ops.countP Operation.isTick + UInt32.size ≤ UInt64.size →
        ∃ moves moves', p.trace source ops = .ok moves ∧ q.trace source ops' = .ok moves') := by
  obtain ⟨hsettled, _, _, hschedule⟩ := settled_of_create hp
  obtain ⟨hsettled', _, _, hschedule'⟩ := settled_of_create hq
  -- before the first snapshot there is nothing to rename
  have h : Renamed f [] ([].map f) p q :=
    ⟨hsettled, hsettled', hschedule'.trans hschedule.symm, by simp, by simp⟩
  constructor
  · intro moves moves' htrace htrace' hcalm hcalm'
    exact ⟨h.traces hops hincreasing htrace htrace' hcalm hcalm', fun hmoved =>
      h.answers_of_moved hmoved hincreasing htrace htrace' hcalm hcalm'⟩
  · intro hwithin hwithin' hticks
    have hcalls : p.schedule.calls = 0 := by rw [hschedule]; rfl
    have hcalls' : q.schedule.calls = 0 := by rw [hschedule']; rfl
    obtain ⟨moves, hmoves⟩ := hsettled.exists_trace hwithin (by omega) source
    rw [← countP_isTick_eq hops] at hticks
    obtain ⟨moves', hmoves'⟩ := hsettled'.exists_trace hwithin' (by omega) source
    exact ⟨moves, moves', hmoves, hmoves'⟩

def twoCycles (values : Array Int32) : List Operation :=
  let everyOther (position count : Nat) : Except Contradiction Bool × Nat :=
    (.ok (position % 2 == 0), count + 1)
  [.snapshot values, .tick, .freeze 2 everyOther 0, .relax, .tick, .freeze 7 everyOther 0]

/-- The values 1, 2 and 3 spread over three words of a wider range. -/
def spread (value : Int32) : Int32 :=
  if value ≤ 1 then -5 else if value ≤ 2 then 70 else 200

theorem draws_of_order_type_spread :
    ∃ p q source moves, Policy.create 0 3 .standard = .ok p ∧
      Policy.create (-5) 200 .standard = .ok q ∧
      p.trace (source : Script) (twoCycles #[1, 1, 2, 3]) = .ok moves ∧
      (∃ moves', q.trace source (twoCycles (#[3, 1, 2].map spread)) = .ok moves' ∧
        List.Forall₂ (Move.SameDraws spread) moves moves') ∧
      ∃ moves', q.trace source (twoCycles (#[1, 1, 2, 3].map spread)) = .ok moves' ∧
        moves'.map Move.answer = moves.map fun move => move.answer.rename spread := by
  have hcheck : Settings.check .standard = .ok () := by decide +kernel
  have hp : Policy.create 0 3 .standard = .ok (unrecorded 0 3 .standard) :=
    create_eq_ok (by decide) hcheck
  have hq : Policy.create (-5) 200 .standard = .ok (unrecorded (-5) 200 .standard) :=
    create_eq_ok (by decide) hcheck
  have hcalm : ((unrecorded 0 3 .standard).trace (⟨[2, 0, 1, 1, 0]⟩ : Script)
      (twoCycles #[1, 1, 2, 3])).map (fun moves => moves.any (·.answer.isContradiction)) =
        .ok false := by
    decide +kernel
  have hcalm' : ∀ values ∈ [#[3, 1, 2], #[1, 1, 2, 3]],
      ((unrecorded (-5) 200 .standard).trace (⟨[2, 0, 1, 1, 0]⟩ : Script)
        (twoCycles (values.map spread))).map
          (fun moves => moves.any (·.answer.isContradiction)) = .ok false := by
    decide +kernel
  have hmoved : List.Forall₂ (Operation.Moved spread) (twoCycles #[1, 1, 2, 3])
      (twoCycles (#[1, 1, 2, 3].map spread)) :=
    .cons (.snapshot _) (.cons .tick (.cons (.freeze fun _ => rfl) (.cons .relax
      (.cons .tick (.cons (.freeze fun _ => rfl) .nil)))))
  have hsame : ∀ old : Int32, old ∈ #[3, 1, 2] ↔ old ∈ #[1, 1, 2, 3] := by
    intro old
    simp only [List.mem_toArray, List.mem_cons, List.not_mem_nil]
    grind
  have hvalues : ∀ value, value ∈ #[3, 1, 2].map spread ↔
      ∃ old ∈ #[1, 1, 2, 3], spread old = value := by
    intro value
    simp only [Array.mem_map, hsame]
  have himage : List.Forall₂ (Operation.Image spread) (twoCycles #[1, 1, 2, 3])
      (twoCycles (#[3, 1, 2].map spread)) :=
    .cons (.snapshot hvalues) (.cons .tick (.cons (.freeze _ _ _ _ _) (.cons .relax
      (.cons .tick (.cons (.freeze _ _ _ _ _) .nil)))))
  have hincreasing : ∀ values, .snapshot values ∈ twoCycles #[1, 1, 2, 3] → ∀ x ∈ values,
      ∀ y ∈ values, x < y → spread x < spread y := by
    intro values hvalues
    obtain rfl : values = #[1, 1, 2, 3] := by simpa [twoCycles] using hvalues
    have hpairs : (#[1, 1, 2, 3] : Array Int32).all (fun x => #[1, 1, 2, 3].all fun y =>
        decide (x < y → spread x < spread y)) = true := by
      decide +kernel
    simpa only [Array.all_eq_true', decide_eq_true_eq] using hpairs
  obtain ⟨moves, htrace, hany⟩ := Checked.map_eq_ok_iff.mp hcalm
  obtain ⟨moves₁, htrace₁, hany₁⟩ := Checked.map_eq_ok_iff.mp (hcalm' #[3, 1, 2] (by simp))
  obtain ⟨moves₂, htrace₂, hany₂⟩ := Checked.map_eq_ok_iff.mp (hcalm' #[1, 1, 2, 3] (by simp))
  refine ⟨_, _, _, moves, hp, hq, htrace, ⟨moves₁, htrace₁, ?_⟩, moves₂, htrace₂, ?_⟩
  · exact ((draws_of_order_type hp hq _ himage hincreasing).1 _ _ htrace htrace₁
      (by simpa using hany) (by simpa using hany₁)).1
  · exact ((draws_of_order_type hp hq _ (hmoved.imp fun _ _ => Operation.Moved.image) hincreasing).1
      _ _ htrace htrace₂ (by simpa using hany) (by simpa using hany₂)).2 hmoved

end LargeNeighborhood.Policy
