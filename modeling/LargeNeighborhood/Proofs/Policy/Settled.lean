import LargeNeighborhood.Proofs.Draws.Cycle
import LargeNeighborhood.Proofs.Schedule.Update

/-!
# Policies between cycles

A policy is settled if its groups index the values recorded last and its fragment is empty. Every
operation leaves a policy settled; from a settled policy a cycle is a sampled order of the occupied
groups, frozen as far as the callback lets it.
-/

namespace LargeNeighborhood

namespace Policy

/-- Between cycles: the groups index the recorded values, the schedule knows how many of them are
occupied, and no group is left over in the fragment. -/
structure Settled (p : Policy) (values : List Int32) : Prop where
  indexes : p.groups.Indexes values
  usedValues_eq : p.schedule.usedValues = p.groups.usedValues
  fragment_eq : p.fragment = .empty p.groups.rangeLength

variable {p : Policy} {values : List Int32}

/-! ## The fragment of a cycle -/

theorem foldl_mark (ids : List Nat) {fragment : BitSet} (htidy : fragment.Tidy) :
    (ids.foldl (fun fragment id => fragment.markRange id (id + 1)) fragment).Tidy ∧
      (ids.foldl (fun fragment id => fragment.markRange id (id + 1)) fragment).capacity =
        fragment.capacity ∧
      ∀ i < fragment.capacity,
        (ids.foldl (fun fragment id => fragment.markRange id (id + 1)) fragment).contains i =
          (fragment.contains i || decide (i ∈ ids)) := by
  induction ids generalizing fragment with
  | nil => simp [htidy]
  | cons id ids ih =>
    obtain ⟨htidy', hcapacity, hcontains⟩ := ih (htidy.markRange id (id + 1))
    rw [List.foldl_cons]
    refine ⟨htidy', hcapacity.trans (fragment.capacity_markRange id (id + 1)), ?_⟩
    intro i hi
    rw [hcontains i (by rwa [BitSet.capacity_markRange]), BitSet.contains_markRange, Bool.or_assoc,
      ← Bool.decide_or]
    congr 1
    rw [decide_eq_decide, List.mem_cons]
    constructor
    · rintro (h | h)
      · exact .inl (by omega)
      · exact .inr h
    · rintro (h | h)
      · exact .inl (by omega)
      · exact .inr h

theorem foldl_clear (ids : List Nat) {fragment : BitSet} (htidy : fragment.Tidy) :
    (ids.foldl BitSet.clearBit fragment).Tidy ∧
      (ids.foldl BitSet.clearBit fragment).capacity = fragment.capacity ∧
      ∀ i, (ids.foldl BitSet.clearBit fragment).contains i =
        (fragment.contains i && decide (i ∉ ids)) := by
  induction ids generalizing fragment with
  | nil => simp [htidy]
  | cons id ids ih =>
    obtain ⟨htidy', hcapacity, hcontains⟩ := ih (htidy.clearBit id)
    rw [List.foldl_cons]
    refine ⟨htidy', hcapacity.trans (fragment.capacity_clearBit id), ?_⟩
    intro i
    rw [hcontains i, BitSet.contains_clearBit, Bool.and_assoc, ← Bool.decide_and]
    congr 1
    rw [decide_eq_decide, List.mem_cons, not_or]

theorem Settled.markOccupied (h : p.Settled values) :
    p.markOccupied.Tidy ∧ p.markOccupied.capacity = p.groups.buckets.size ∧
      p.markOccupied.elements = p.groups.occupiedIds := by
  have hfold : p.markOccupied = p.groups.occupied.toList.foldl
      (fun fragment id => fragment.markRange id (id + 1)) (.empty p.groups.buckets.size) := by
    rw [Policy.markOccupied, h.fragment_eq, ← Array.foldl_toList]
    rfl
  obtain ⟨htidy, hcapacity, hcontains⟩ :=
    foldl_mark p.groups.occupied.toList (BitSet.tidy_empty p.groups.buckets.size)
  rw [← hfold] at htidy hcapacity hcontains
  refine ⟨htidy, hcapacity, ?_⟩
  rw [BitSet.elements, hcapacity, ValueGroups.occupiedIds, BitSet.capacity_empty,
    ValueGroups.rangeLength]
  apply List.filter_congr
  intro i hi
  rw [hcontains i (by simpa using hi), BitSet.contains_empty, Bool.false_or, decide_eq_decide,
    Array.mem_toList_iff]

/-- Clearing the occupied groups empties whatever a cycle leaves of the fragment. -/
theorem Settled.clearOccupied (h : p.Settled values) (ids : List Nat) :
    p.clearOccupied (ids.foldl BitSet.clearBit p.markOccupied) = p.fragment := by
  obtain ⟨htidy, hcapacity, helements⟩ := h.markOccupied
  obtain ⟨htidy', hcapacity', hcontains⟩ := foldl_clear ids htidy
  obtain ⟨htidy'', hcapacity'', hcontains'⟩ := foldl_clear p.groups.occupied.toList htidy'
  rw [h.fragment_eq, Policy.clearOccupied, ← Array.foldl_toList]
  apply htidy''.ext (BitSet.tidy_empty _)
  · rw [hcapacity'', hcapacity', hcapacity]
    rfl
  · intro i _
    rw [hcontains', hcontains, BitSet.contains_empty]
    by_cases hi : i ∈ p.groups.occupied
    · simp [hi]
    · have hout : p.markOccupied.contains i = false := by
        rw [Bool.eq_false_iff, ne_eq, ← BitSet.mem_elements, helements, ValueGroups.occupiedIds,
          List.mem_filter]
        simp [hi]
      rw [hout, Bool.false_and, Bool.false_and]

/-! ## Cycles as sampled orders -/

def drawOrder [RandomSource ρ] (p : Policy) (target : Nat) (source : ρ) : List Nat × ρ :=
  drawFrom (min target p.groups.usedValues) p.groups.occupiedIds source

def cycleOf [RandomSource ρ] (p : Policy) (target : Nat) (source : ρ) (progress : Progress σ) :
    Cycle ρ σ :=
  let order := (p.drawOrder target source).1
  let ending :=
    match progress.frozen with
    | .ok frozen => [Event.fix target order.length frozen.length]
    | .error _ => []
  { policy := p
    source := (drawFrom progress.opened p.groups.occupiedIds source).2
    state := progress.state
    result := progress.frozen.map (⟨order.map p.groups.valueAt, ·⟩)
    events := (order.take progress.opened).map p.groups.drawEvent ++ ending }

/-- A cycle samples an order of the occupied groups and freezes group after group. Its policy ends
as it began, also after a contradiction. -/
theorem Settled.selectAndFreeze_eq [RandomSource ρ] (h : p.Settled values) (target : Nat)
    (source : ρ) (freeze : Freeze σ) (state : σ) :
    p.selectAndFreeze target source freeze state =
      (freezeGroups p.groups.positions freeze (p.drawOrder target source).1 state).map
        (p.cycleOf target source) := by
  obtain ⟨htidy, hcapacity, helements⟩ := h.markOccupied
  rw [selectAndFreeze, drawGroups_eq h.indexes.fits freeze target htidy hcapacity, helements,
    h.indexes.length_occupiedIds]
  unfold cycleOf
  generalize horder : (p.drawOrder target source).1 = order
  rw [drawOrder] at horder
  simp only [bind, Except.bind, horder]
  cases freezeGroups p.groups.positions freeze order state with
  | error fault => rfl
  | ok progress =>
    obtain ⟨closed, frozen, last⟩ := progress
    simp only [pure, Except.pure, h.clearOccupied]
    cases frozen with
    | error c => rfl
    | ok frozen => simp [Except.map]

/-! ## Reachable policies -/

/-- The policies that come from a new one by snapshots, looks at the schedule and cycles, beside the
values of the last snapshot. -/
inductive Reachable : Array Int32 → Policy → Prop
  | create {min max : Int32} {settings : Settings} {p : Policy}
    (h : Policy.create min max settings = .ok p) : Reachable #[] p
  | snapshot {old values : Array Int32} {p : Policy} {regrouped : Regrouped}
    (reachable : Reachable old p) (h : p.snapshot values = .ok regrouped) :
    Reachable values regrouped.policy
  | tick {ρ : Type} [RandomSource ρ] {values : Array Int32} {p : Policy} {source : ρ}
    {paced : Paced ρ} (reachable : Reachable values p) (h : p.tick source = .ok paced) :
    Reachable values paced.policy
  | relax {ρ : Type} [RandomSource ρ] {values : Array Int32} {p : Policy} {source : ρ}
    {paced : Paced ρ} (reachable : Reachable values p) (h : p.relax source = .ok paced) :
    Reachable values paced.policy
  | selectAndFreeze {ρ σ : Type} [RandomSource ρ] {values : Array Int32} {p : Policy} {target : Nat}
    {source : ρ} {freeze : Freeze σ} {state : σ} {cycle : Cycle ρ σ}
    (reachable : Reachable values p)
    (h : p.selectAndFreeze target source freeze state = .ok cycle) :
    Reachable values cycle.policy

def unrecorded (min max : Int32) (settings : Settings) : Policy :=
  ⟨.empty min max, .ofSettings settings, .empty (ValueGroups.empty min max).rangeLength⟩

theorem create_eq_ok {min max : Int32} {settings : Settings} (hrange : min ≤ max)
    (hcheck : settings.check = .ok ()) :
    Policy.create min max settings = .ok (unrecorded min max settings) := by
  rw [Policy.create, if_neg (Int32.not_lt.mpr hrange), hcheck]
  rfl

theorem settled_of_create {min max : Int32} {settings : Settings}
    (h : Policy.create min max settings = .ok p) :
    p.Settled [] ∧ p.groups = .empty min max ∧ min ≤ max ∧ p.schedule = .ofSettings settings := by
  unfold Policy.create at h
  by_cases hrange : max < min
  · rw [if_pos hrange] at h
    cases h
  · have hle : min ≤ max := Int32.not_lt.mp hrange
    rw [if_neg hrange] at h
    split at h
    · cases h
    · cases h
      exact ⟨⟨ValueGroups.indexes_empty hle, rfl, rfl⟩, rfl, hle, rfl⟩

theorem schedule_snapshot {regrouped : Regrouped} {next : Array Int32}
    (hrun : p.snapshot next = .ok regrouped) :
    regrouped.policy.schedule = p.schedule.reset regrouped.policy.groups.usedValues := by
  obtain ⟨groups, _, hregrouped⟩ := Checked.bind_eq_ok_iff.mp hrun
  cases hregrouped
  rfl

theorem Settled.snapshot {regrouped : Regrouped} (h : p.Settled values) {next : Array Int32}
    (hrun : p.snapshot next = .ok regrouped) :
    regrouped.policy.Settled next.toList ∧ p.groups.SameRange regrouped.policy.groups := by
  obtain ⟨groups, hgroups, hregrouped⟩ := Checked.bind_eq_ok_iff.mp hrun
  cases hregrouped
  obtain ⟨hindexes, hrange⟩ := h.indexes.of_rebuild hgroups
  refine ⟨⟨hindexes, rfl, ?_⟩, hrange⟩
  rw [h.fragment_eq, ValueGroups.rangeLength, ValueGroups.rangeLength, hrange.2]

/-- A snapshot forgets the history of its policy: the range and the settings decide what it leaves.
-/
theorem Settled.snapshot_unique {q : Policy} {old : List Int32} (h : p.Settled values)
    (h' : q.Settled old) (hrange : p.groups.SameRange q.groups)
    (hsettings : q.schedule.settings = p.schedule.settings) {next : Array Int32}
    {regrouped regrouped' : Regrouped} (hrun : p.snapshot next = .ok regrouped)
    (hrun' : q.snapshot next = .ok regrouped') : regrouped' = regrouped := by
  obtain ⟨groups, hgroups, hregrouped⟩ := Checked.bind_eq_ok_iff.mp hrun
  obtain ⟨groups', hgroups', hregrouped'⟩ := Checked.bind_eq_ok_iff.mp hrun'
  cases hregrouped
  cases hregrouped'
  obtain ⟨hindexes, hsame⟩ := h.indexes.of_rebuild hgroups
  obtain ⟨hindexes', hsame'⟩ := h'.indexes.of_rebuild hgroups'
  have hboth : groups.SameRange groups' :=
    ⟨hsame'.1.trans (hrange.1.trans hsame.1.symm), hsame'.2.trans (hrange.2.trans hsame.2.symm)⟩
  obtain rfl : groups' = groups := hindexes.unique hindexes' hboth
  rw [Schedule.reset_eq_of_settings hsettings, h.fragment_eq, h'.fragment_eq,
    ValueGroups.rangeLength, ValueGroups.rangeLength, hrange.2]

theorem tick_eq_ok_iff [RandomSource ρ] {source : ρ} {paced : Paced ρ} :
    p.tick source = .ok paced ↔
      ∃ step, p.schedule.tick source = .ok step ∧ paced = p.pace step := by
  rw [tick, Checked.bind_eq_ok_iff]
  simp only [pure, Except.pure, Except.ok.injEq, eq_comm]

theorem relax_eq_ok_iff [RandomSource ρ] {source : ρ} {paced : Paced ρ} :
    p.relax source = .ok paced ↔
      ∃ step, p.schedule.update source = .ok step ∧ paced = p.pace step := by
  rw [relax, Checked.bind_eq_ok_iff]
  simp only [pure, Except.pure, Except.ok.injEq, eq_comm]

theorem Settled.pace {schedule : Schedule} (h : p.Settled values)
    (hused : schedule.usedValues = p.schedule.usedValues) :
    { p with schedule := schedule }.Settled values :=
  ⟨h.indexes, hused.trans h.usedValues_eq, h.fragment_eq⟩

theorem Settled.tick [RandomSource ρ] {source : ρ} {paced : Paced ρ} (h : p.Settled values)
    (hrun : p.tick source = .ok paced) :
    paced.policy.Settled values ∧ paced.policy.groups = p.groups := by
  obtain ⟨step, hstep, rfl⟩ := tick_eq_ok_iff.mp hrun
  exact ⟨h.pace (Schedule.tick_keeps hstep).2.2, rfl⟩

theorem Settled.relax [RandomSource ρ] {source : ρ} {paced : Paced ρ} (h : p.Settled values)
    (hrun : p.relax source = .ok paced) :
    paced.policy.Settled values ∧ paced.policy.groups = p.groups := by
  obtain ⟨step, hstep, rfl⟩ := relax_eq_ok_iff.mp hrun
  exact ⟨h.pace (Schedule.update_keeps hstep).2.2, rfl⟩

theorem Settled.policy_selectAndFreeze [RandomSource ρ] {target : Nat} {source : ρ}
    {freeze : Freeze σ} {state : σ} {cycle : Cycle ρ σ} (h : p.Settled values)
    (hrun : p.selectAndFreeze target source freeze state = .ok cycle) : cycle.policy = p := by
  rw [h.selectAndFreeze_eq] at hrun
  obtain ⟨progress, _, rfl⟩ := Checked.map_eq_ok_iff.mp hrun
  rfl

theorem Reachable.settled {values : Array Int32} (h : p.Reachable values) :
    p.Settled values.toList := by
  induction h with
  | create h => exact (settled_of_create h).1
  | snapshot _ h ih => exact (ih.snapshot h).1
  | tick _ h ih => exact (ih.tick h).1
  | relax _ h ih => exact (ih.relax h).1
  | selectAndFreeze _ h ih =>
    rw [ih.policy_selectAndFreeze h]
    exact ih

end Policy

end LargeNeighborhood
