import LargeNeighborhood.Policy
import Mathlib.Data.List.Infix

/-!
# Freezing in order

A cycle calls back once for each member of each drawn group, in order, until it meets a
contradiction. `Visits` relates the positions a cycle has in hand to the calls it makes; a callback
that notes its calls shows them.
-/

namespace LargeNeighborhood

abbrev Call := Nat × Except Contradiction Bool

def Freeze.total (answer : Nat → σ → Except Contradiction Bool × σ) : Freeze σ :=
  fun position state => .ok (answer position state)

def Freeze.calm (answer : Nat → σ → Bool × σ) : Freeze σ :=
  .total fun position state => (.ok (answer position state).1, (answer position state).2)

/-- A callback that notes its calls beside its state. -/
def Freeze.noting (freeze : Freeze σ) : Freeze (List Call × σ) := fun position (calls, state) => do
  let (answer, state) ← freeze position state
  return (answer, calls ++ [(position, answer)], state)

/-- A callback that does on the images of states what another one does on the states. -/
def Freeze.Mirrors (freeze' : Freeze τ) (freeze : Freeze σ) (image : σ → τ) : Prop :=
  ∀ position state, freeze' position (image state) =
    (freeze position state).map fun reply => (reply.1, image reply.2)

theorem Freeze.mirrors_noting (freeze : Freeze σ) : freeze.Mirrors freeze.noting Prod.snd := by
  rintro position ⟨calls, state⟩
  rw [noting]
  cases freeze position state <;> rfl

def noted (answer : Nat → σ → α × σ) (reply : α → Except Contradiction Bool) (position : Nat)
    (noting : List Call × σ) : α × List Call × σ :=
  let (result, state) := answer position noting.2
  (result, noting.1 ++ [(position, reply result)], state)

theorem Freeze.noting_total (answer : Nat → σ → Except Contradiction Bool × σ) :
    (Freeze.total answer).noting = .total (noted answer id) :=
  rfl

theorem Freeze.noting_calm (answer : Nat → σ → Bool × σ) :
    (Freeze.calm answer).noting = .calm (noted answer .ok) :=
  rfl

/-- The calls along some positions, up to the first contradiction, and what they come to. -/
inductive Visits : List Nat → List Call → Except Contradiction (List Nat) → Prop
  | done : Visits [] [] (.ok [])
  | failed (position : Nat) (rest : List Nat) (c : Contradiction) :
    Visits (position :: rest) [(position, .error c)] (.error c)
  | answered (position : Nat) (kept : Bool) {rest : List Nat} {calls : List Call}
    {result : Except Contradiction (List Nat)} (later : Visits rest calls result) :
    Visits (position :: rest) ((position, .ok kept) :: calls)
      (result.map fun frozen => if kept then position :: frozen else frozen)

namespace Visits

theorem isPrefix {positions : List Nat} {calls : List Call}
    {result : Except Contradiction (List Nat)} (h : Visits positions calls result) :
    calls.map Prod.fst <+: positions := by
  induction h with
  | done => exact List.prefix_rfl
  | failed position rest c => exact ⟨rest, rfl⟩
  | answered position kept later ih => exact List.prefix_cons_inj position |>.mpr ih

theorem of_ok {positions : List Nat} {calls : List Call} {frozen : List Nat}
    (h : Visits positions calls (.ok frozen)) :
    calls.map Prod.fst = positions ∧ (∀ call ∈ calls, ∃ kept, call.2 = .ok kept) ∧
      frozen = (calls.filter fun call => decide (call.2 = .ok true)).map Prod.fst := by
  generalize hresult : Except.ok frozen = result at h
  induction h generalizing frozen with
  | done =>
    cases hresult
    simp
  | failed position rest c => cases hresult
  | @answered position kept rest calls result later ih =>
    cases result with
    | error c => cases hresult
    | ok later =>
      cases hresult
      obtain ⟨hpositions, hkept, hfrozen⟩ := ih rfl
      refine ⟨by simp [hpositions], ?_, ?_⟩
      · intro call hcall
        rcases List.mem_cons.mp hcall with rfl | hcall
        · exact ⟨kept, rfl⟩
        · exact hkept call hcall
      · cases kept <;> simp [hfrozen]

theorem of_error_answer {positions : List Nat} {calls : List Call}
    {result : Except Contradiction (List Nat)} (h : Visits positions calls result) {i : Nat}
    {position : Nat} {c : Contradiction} (hcall : calls[i]? = some (position, .error c)) :
    result = .error c ∧ i + 1 = calls.length ∧ calls.getLast? = some (position, .error c) := by
  have hlast : result = .error c ∧ i + 1 = calls.length := by
    induction h generalizing i with
    | done => simp at hcall
    | failed first rest c' =>
      cases i with
      | zero => simp_all
      | succ i => simp at hcall
    | answered first kept later ih =>
      cases i with
      | zero => simp at hcall
      | succ i =>
        obtain ⟨hresult, hlast⟩ := ih (by simpa using hcall)
        exact ⟨by rw [hresult]; rfl, by simp [hlast]⟩
  refine ⟨hlast.1, hlast.2, ?_⟩
  rw [List.getLast?_eq_getElem?, ← hlast.2, Nat.add_sub_cancel, hcall]

theorem exists_last_error {positions : List Nat} {calls : List Call} {c : Contradiction}
    (h : Visits positions calls (.error c)) :
    ∃ position ∈ positions, calls.getLast? = some (position, .error c) := by
  generalize hresult : Except.error c = result at h
  induction h with
  | done => cases hresult
  | failed position rest c' =>
    cases hresult
    exact ⟨position, List.mem_cons_self, rfl⟩
  | @answered position kept rest calls result later ih =>
    cases result with
    | ok frozen => cases hresult
    | error c' =>
      cases hresult
      obtain ⟨failed, hfailed, hlast⟩ := ih rfl
      refine ⟨failed, List.mem_cons_of_mem _ hfailed, ?_⟩
      rw [List.getLast?_cons, hlast]
      rfl

theorem exists_ok {positions : List Nat} {calls : List Call}
    {result : Except Contradiction (List Nat)} (h : Visits positions calls result)
    (hcalm : ∀ call ∈ calls, ∃ kept, call.2 = .ok kept) : ∃ frozen, result = .ok frozen := by
  cases result with
  | ok frozen => exact ⟨frozen, rfl⟩
  | error c =>
    obtain ⟨position, _, hlast⟩ := h.exists_last_error
    obtain ⟨kept, hkept⟩ := hcalm _ (List.mem_of_getLast? hlast)
    cases hkept

theorem append {first second : List Nat} {calls later : List Call} {frozen : List Nat}
    {result : Except Contradiction (List Nat)} (h : Visits first calls (.ok frozen))
    (hlater : Visits second later result) :
    Visits (first ++ second) (calls ++ later) (result.map (frozen ++ ·)) := by
  generalize hfirst : Except.ok frozen = outcome at h
  induction h generalizing frozen with
  | done =>
    cases hfirst
    cases result <;> exact hlater
  | failed position rest c => cases hfirst
  | @answered position kept rest calls outcome inner ih =>
    cases outcome with
    | error c => cases hfirst
    | ok rest =>
      cases hfirst
      have hstep := Visits.answered position kept (ih rfl)
      cases result <;> cases kept <;> exact hstep

theorem append_failed {first : List Nat} {calls : List Call} {c : Contradiction}
    (h : Visits first calls (.error c)) (second : List Nat) :
    Visits (first ++ second) calls (.error c) := by
  generalize hfirst : Except.error c = outcome at h
  induction h with
  | done => cases hfirst
  | failed position rest c' =>
    cases hfirst
    exact .failed position (rest ++ second) c
  | @answered position kept rest calls outcome inner ih =>
    cases outcome with
    | error c' =>
      cases hfirst
      exact .answered position kept (ih rfl)
    | ok rest => cases hfirst

end Visits

/-! ## The members of one group -/

theorem freezeMembers_cons_ok {freeze : Freeze σ} {position : Nat} {rest : List Nat}
    {state state' : σ} {kept : Bool} (h : freeze position state = .ok (.ok kept, state')) :
    freezeMembers freeze (position :: rest) state = (do
      let (frozen, state) ← freezeMembers freeze rest state'
      return (frozen.map fun frozen => if kept then position :: frozen else frozen, state)) := by
  simp only [freezeMembers, h, bind, Except.bind]

theorem freezeMembers_cons_error {freeze : Freeze σ} {position : Nat} {rest : List Nat}
    {state state' : σ} {c : Contradiction} (h : freeze position state = .ok (.error c, state')) :
    freezeMembers freeze (position :: rest) state = .ok (.error c, state') := by
  simp only [freezeMembers, h, bind, Except.bind]
  rfl

theorem freezeMembers_cons_eq_ok {freeze : Freeze σ} {position : Nat} {rest : List Nat}
    {state state' : σ} {result : Except Contradiction (List Nat)}
    (h : freezeMembers freeze (position :: rest) state = .ok (result, state')) :
    (∃ c, freeze position state = .ok (.error c, state') ∧ result = .error c) ∨
      ∃ kept next later, freeze position state = .ok (.ok kept, next) ∧
        freezeMembers freeze rest next = .ok (later, state') ∧
        result = later.map fun frozen => if kept then position :: frozen else frozen := by
  rw [freezeMembers, Checked.bind_eq_ok_iff] at h
  obtain ⟨⟨answer, next⟩, hanswer, hrest⟩ := h
  cases answer with
  | error c =>
    cases hrest
    exact .inl ⟨c, hanswer, rfl⟩
  | ok kept =>
    obtain ⟨⟨later, last⟩, hlater, hresult⟩ := Checked.bind_eq_ok_iff.mp hrest
    cases hresult
    exact .inr ⟨kept, next, later, hanswer, hlater, rfl⟩

theorem freezeMembers_of_mirrors {freeze : Freeze σ} {freeze' : Freeze τ} {image : σ → τ}
    (h : freeze'.Mirrors freeze image) (positions : List Nat) (state : σ) :
    freezeMembers freeze' positions (image state) =
      (freezeMembers freeze positions state).map fun reply => (reply.1, image reply.2) := by
  induction positions generalizing state with
  | nil => rfl
  | cons position rest ih =>
    rw [freezeMembers, freezeMembers, h]
    cases freeze position state with
    | error fault => rfl
    | ok reply =>
      obtain ⟨answer, next⟩ := reply
      cases answer with
      | error c => rfl
      | ok kept =>
        simp only [bind, Except.bind, Except.map, ih next]
        cases freezeMembers freeze rest next <;> rfl

/-- What every call keeps is kept by all of them. -/
theorem freezeMembers_keeps {freeze : Freeze σ} {sound : σ → Prop}
    (hfreeze : ∀ position state answer next, freeze position state = .ok (answer, next) →
      sound state → sound next)
    {positions : List Nat} {state last : σ} {result : Except Contradiction (List Nat)}
    (h : freezeMembers freeze positions state = .ok (result, last)) (hstate : sound state) :
    sound last := by
  induction positions generalizing state result with
  | nil =>
    cases h
    exact hstate
  | cons position rest ih =>
    rcases freezeMembers_cons_eq_ok h with
      ⟨c, hanswer, _⟩ | ⟨kept, next, later, hanswer, hlater, _⟩
    · exact hfreeze _ _ _ _ hanswer hstate
    · exact ih hlater (hfreeze _ _ _ _ hanswer hstate)

theorem noting_eq_ok {freeze : Freeze σ} {position : Nat} {calls calls' : List Call}
    {state state' : σ} {answer : Except Contradiction Bool}
    (h : freeze.noting position (calls, state) = .ok (answer, calls', state')) :
    freeze position state = .ok (answer, state') ∧ calls' = calls ++ [(position, answer)] := by
  obtain ⟨⟨answer', next⟩, hanswer, hresult⟩ := Checked.bind_eq_ok_iff.mp h
  cases hresult
  exact ⟨hanswer, rfl⟩

theorem freezeMembers_noting {freeze : Freeze σ} {positions : List Nat} {calls calls' : List Call}
    {state state' : σ} {result : Except Contradiction (List Nat)}
    (h : freezeMembers freeze.noting positions (calls, state) = .ok (result, calls', state')) :
    freezeMembers freeze positions state = .ok (result, state') ∧
      ∃ made, calls' = calls ++ made ∧ Visits positions made result := by
  induction positions generalizing calls state result with
  | nil =>
    cases h
    exact ⟨rfl, [], by simp, .done⟩
  | cons position rest ih =>
    rcases freezeMembers_cons_eq_ok h with
      ⟨c, hanswer, rfl⟩ | ⟨kept, ⟨nextCalls, next⟩, later, hanswer, hlater, rfl⟩
    · obtain ⟨hfreeze, rfl⟩ := noting_eq_ok hanswer
      exact ⟨freezeMembers_cons_error hfreeze, _, rfl, .failed position rest c⟩
    · obtain ⟨hfreeze, rfl⟩ := noting_eq_ok hanswer
      obtain ⟨hrun, made, rfl, hvisits⟩ := ih hlater
      refine ⟨?_, _, ?_, .answered position kept hvisits⟩
      · rw [freezeMembers_cons_ok hfreeze, hrun]
        rfl
      · rw [List.append_assoc, List.singleton_append]

/-- What a callback answers to calls for some positions, one after the other. -/
def replies (answer : Nat → σ → α × σ) : List Nat → σ → List α
  | [], _ => []
  | position :: rest, state =>
    (answer position state).1 :: replies answer rest (answer position state).2

theorem freezeMembers_noting_total {answer : Nat → σ → Except Contradiction Bool × σ}
    {positions : List Nat} {calls calls' : List Call} {state state' : σ} {frozen : List Nat}
    (h : freezeMembers (Freeze.total answer).noting positions (calls, state) =
      .ok (.ok frozen, calls', state')) :
    calls' = calls ++ positions.zip (replies answer positions state) := by
  induction positions generalizing calls state frozen with
  | nil =>
    cases h
    simp
  | cons position rest ih =>
    rcases freezeMembers_cons_eq_ok h with
      ⟨c, _, hcontra⟩ | ⟨kept, ⟨nextCalls, next⟩, later, hanswer, hlater, hfrozen⟩
    · cases hcontra
    · cases later with
      | error c => cases hfrozen
      | ok inner =>
        obtain ⟨hreply, rfl⟩ := noting_eq_ok hanswer
        have hstate : answer position state = (.ok kept, next) := Except.ok.inj hreply
        rw [ih hlater, replies, hstate, List.zip_cons_cons, List.append_assoc,
          List.singleton_append]

theorem freezeMembers_append_ok {freeze : Freeze σ} {first : List Nat} {state next : σ}
    {frozen : List Nat} (h : freezeMembers freeze first state = .ok (.ok frozen, next))
    (second : List Nat) :
    freezeMembers freeze (first ++ second) state = (do
      let (later, state) ← freezeMembers freeze second next
      return (later.map (frozen ++ ·), state)) := by
  induction first generalizing state frozen with
  | nil =>
    cases h
    rw [List.nil_append]
    cases freezeMembers freeze second next with
    | error fault => rfl
    | ok reply =>
      obtain ⟨later, last⟩ := reply
      cases later <;> rfl
  | cons position rest ih =>
    rcases freezeMembers_cons_eq_ok h with
      ⟨c, _, hcontra⟩ | ⟨kept, mid, later, hanswer, hlater, hfrozen⟩
    · cases hcontra
    · cases later with
      | error c => cases hfrozen
      | ok inner =>
        cases hfrozen
        rw [List.cons_append, freezeMembers_cons_ok hanswer, ih hlater]
        cases freezeMembers freeze second next with
        | error fault => rfl
        | ok reply =>
          obtain ⟨later, last⟩ := reply
          cases later <;> cases kept <;> rfl

theorem freezeMembers_append_error {freeze : Freeze σ} {first : List Nat} {state next : σ}
    {c : Contradiction} (h : freezeMembers freeze first state = .ok (.error c, next))
    (second : List Nat) :
    freezeMembers freeze (first ++ second) state = .ok (.error c, next) := by
  induction first generalizing state with
  | nil => cases h
  | cons position rest ih =>
    rcases freezeMembers_cons_eq_ok h with
      ⟨c', hanswer, hcontra⟩ | ⟨kept, mid, later, hanswer, hlater, hcontra⟩
    · cases hcontra
      exact freezeMembers_cons_error hanswer
    · cases later with
      | ok frozen => cases hcontra
      | error c' =>
        cases hcontra
        rw [List.cons_append, freezeMembers_cons_ok hanswer, ih hlater]
        rfl

theorem exists_freezeMembers {freeze : Freeze σ} {sound : σ → Prop} {positions : List Nat}
    (hfreeze : ∀ position ∈ positions, ∀ state, sound state →
      ∃ answer next, freeze position state = .ok (answer, next) ∧ sound next)
    {state : σ} (hstate : sound state) :
    ∃ result last, freezeMembers freeze positions state = .ok (result, last) ∧ sound last := by
  induction positions generalizing state with
  | nil => exact ⟨_, _, rfl, hstate⟩
  | cons position rest ih =>
    obtain ⟨answer, next, hanswer, hnext⟩ := hfreeze position List.mem_cons_self state hstate
    cases answer with
    | error c => exact ⟨_, _, freezeMembers_cons_error hanswer, hnext⟩
    | ok kept =>
      obtain ⟨result, last, hrun, hlast⟩ :=
        ih (fun position hposition => hfreeze position (List.mem_cons_of_mem _ hposition)) hnext
      have hcons : freezeMembers freeze (position :: rest) state = _ :=
        freezeMembers_cons_ok hanswer
      rw [hrun] at hcons
      exact ⟨_, last, hcons, hlast⟩

theorem exists_freezeMembers_calm (answer : Nat → σ → Bool × σ) (positions : List Nat)
    (state : σ) :
    ∃ frozen state', freezeMembers (.calm answer) positions state = .ok (.ok frozen, state') := by
  induction positions generalizing state with
  | nil => exact ⟨_, _, rfl⟩
  | cons position rest ih =>
    obtain ⟨frozen, last, hrun⟩ := ih (answer position state).2
    have hanswer : Freeze.calm answer position state =
        .ok (.ok (answer position state).1, (answer position state).2) := rfl
    have hcons : freezeMembers (.calm answer) (position :: rest) state = _ :=
      freezeMembers_cons_ok hanswer
    rw [hrun] at hcons
    exact ⟨_, _, hcons⟩

/-! ## Group after group -/

/-- How far a cycle came. -/
structure Progress (σ : Type) where
  /-- The groups whose members all were visited without a contradiction. -/
  closed : Nat
  frozen : Except Contradiction (List Nat)
  state : σ

/-- The groups whose members were visited; the one that met a contradiction counts. -/
def Progress.opened (progress : Progress σ) : Nat :=
  match progress.frozen with
  | .ok _ => progress.closed
  | .error _ => progress.closed + 1

def freezeGroups (members : Nat → List Nat) (freeze : Freeze σ) :
    List Nat → σ → Checked (Progress σ)
  | [], state => return ⟨0, .ok [], state⟩
  | id :: ids, state => do
    match ← freezeMembers freeze (members id) state with
    | (.error c, state) => return ⟨0, .error c, state⟩
    | (.ok frozen, state) =>
      let rest ← freezeGroups members freeze ids state
      return { rest with
        closed := rest.closed + 1
        frozen := rest.frozen.map (frozen ++ ·) }

section

variable {members : Nat → List Nat} {freeze : Freeze σ} {id : Nat} {ids : List Nat} {state : σ}

theorem freezeGroups_cons_eq_ok {progress : Progress σ}
    (h : freezeGroups members freeze (id :: ids) state = .ok progress) :
    (∃ c next, freezeMembers freeze (members id) state = .ok (.error c, next) ∧
        progress = ⟨0, .error c, next⟩) ∨
      ∃ frozen next rest, freezeMembers freeze (members id) state = .ok (.ok frozen, next) ∧
        freezeGroups members freeze ids next = .ok rest ∧
        progress = ⟨rest.closed + 1, rest.frozen.map (frozen ++ ·), rest.state⟩ := by
  rw [freezeGroups, Checked.bind_eq_ok_iff] at h
  obtain ⟨⟨result, next⟩, hmembers, hrest⟩ := h
  cases result with
  | error c =>
    cases hrest
    exact .inl ⟨c, next, hmembers, rfl⟩
  | ok frozen =>
    obtain ⟨rest, hrun, hprogress⟩ := Checked.bind_eq_ok_iff.mp hrest
    cases hprogress
    exact .inr ⟨frozen, next, rest, hmembers, hrun, rfl⟩

/-- Going group by group comes to the same as visiting all members in one list. -/
theorem freezeMembers_flatMap {progress : Progress σ}
    (h : freezeGroups members freeze ids state = .ok progress) :
    freezeMembers freeze (ids.flatMap members) state = .ok (progress.frozen, progress.state) := by
  induction ids generalizing state progress with
  | nil =>
    cases h
    rfl
  | cons id ids ih =>
    rw [List.flatMap_cons]
    rcases freezeGroups_cons_eq_ok h with
      ⟨c, next, hmembers, rfl⟩ | ⟨frozen, next, rest, hmembers, hrun, rfl⟩
    · exact freezeMembers_append_error hmembers _
    · rw [freezeMembers_append_ok hmembers, ih hrun]
      rfl

theorem closed_eq_length {progress : Progress σ} {frozen : List Nat}
    (h : freezeGroups members freeze ids state = .ok progress)
    (hfrozen : progress.frozen = .ok frozen) : progress.closed = ids.length := by
  induction ids generalizing state progress frozen with
  | nil =>
    cases h
    rfl
  | cons id ids ih =>
    rcases freezeGroups_cons_eq_ok h with
      ⟨c, next, _, rfl⟩ | ⟨first, next, rest, _, hrun, rfl⟩
    · cases hfrozen
    · cases hrest : rest.frozen with
      | error c => simp [hrest, Except.map] at hfrozen
      | ok later => rw [List.length_cons, ih hrun hrest]

theorem exists_freezeGroups {sound : σ → Prop}
    (hfreeze : ∀ id ∈ ids, ∀ position ∈ members id, ∀ state, sound state →
      ∃ answer next, freeze position state = .ok (answer, next) ∧ sound next)
    (hstate : sound state) :
    ∃ progress, freezeGroups members freeze ids state = .ok progress ∧ sound progress.state := by
  induction ids generalizing state with
  | nil => exact ⟨_, rfl, hstate⟩
  | cons id ids ih =>
    obtain ⟨result, next, hmembers, hnext⟩ :=
      exists_freezeMembers (hfreeze id List.mem_cons_self) hstate
    rw [freezeGroups, hmembers]
    cases result with
    | error c => exact ⟨_, rfl, hnext⟩
    | ok frozen =>
      obtain ⟨rest, hrest, hlast⟩ :=
        ih (fun id hid => hfreeze id (List.mem_cons_of_mem _ hid)) hnext
      simp only [bind, Except.bind, hrest]
      exact ⟨_, rfl, hlast⟩

theorem exists_freezeGroups_total (members : Nat → List Nat)
    (answer : Nat → σ → Except Contradiction Bool × σ) (ids : List Nat) (state : σ) :
    ∃ progress, freezeGroups members (.total answer) ids state = .ok progress := by
  have hfreeze : ∀ id ∈ ids, ∀ position ∈ members id, ∀ state : σ, True →
      ∃ reply next, Freeze.total answer position state = .ok (reply, next) ∧ True :=
    fun _ _ _ _ _ _ => ⟨_, _, rfl, trivial⟩
  obtain ⟨progress, hrun, _⟩ := exists_freezeGroups hfreeze trivial
  exact ⟨progress, hrun⟩

theorem exists_freezeGroups_calm (members : Nat → List Nat) (answer : Nat → σ → Bool × σ)
    (ids : List Nat) (state : σ) :
    ∃ frozen final,
      freezeGroups members (.calm answer) ids state = .ok ⟨ids.length, .ok frozen, final⟩ := by
  induction ids generalizing state with
  | nil => exact ⟨_, _, rfl⟩
  | cons id ids ih =>
    obtain ⟨frozen, next, hmembers⟩ := exists_freezeMembers_calm answer (members id) state
    obtain ⟨later, final, hrest⟩ := ih next
    rw [freezeGroups, hmembers]
    simp only [bind, Except.bind, hrest]
    exact ⟨_, _, rfl⟩

theorem freezeGroups_of_mirrors {freeze' : Freeze τ} {image : σ → τ}
    (h : freeze'.Mirrors freeze image) (ids : List Nat) (state : σ) :
    freezeGroups members freeze' ids (image state) =
      (freezeGroups members freeze ids state).map fun progress =>
        ⟨progress.closed, progress.frozen, image progress.state⟩ := by
  induction ids generalizing state with
  | nil => rfl
  | cons id ids ih =>
    rw [freezeGroups, freezeGroups, freezeMembers_of_mirrors h]
    cases freezeMembers freeze (members id) state with
    | error fault => rfl
    | ok reply =>
      obtain ⟨result, next⟩ := reply
      cases result with
      | error c => rfl
      | ok frozen =>
        simp only [bind, Except.bind, Except.map, ih next]
        cases freezeGroups members freeze ids next <;> rfl

theorem freezeGroups_of_noting {calls : List Call} {progress : Progress (List Call × σ)}
    (h : freezeGroups members freeze.noting ids (calls, state) = .ok progress) :
    freezeGroups members freeze ids state =
      .ok ⟨progress.closed, progress.frozen, progress.state.2⟩ := by
  have hmirrored : freezeGroups members freeze ids state = _ :=
    freezeGroups_of_mirrors freeze.mirrors_noting ids (calls, state)
  rw [h] at hmirrored
  exact hmirrored

/-- The last call of a cycle that meets a contradiction is for a member of the group after the
closed ones. -/
theorem exists_failed_call {calls : List Call} {progress : Progress (List Call × σ)}
    (h : freezeGroups members freeze.noting ids (calls, state) = .ok progress) :
    ∃ made, progress.state.1 = calls ++ made ∧ Visits (ids.flatMap members) made progress.frozen ∧
      ∀ c, progress.frozen = .error c → ∃ id position, ids[progress.closed]? = some id ∧
        position ∈ members id ∧ made.getLast? = some (position, .error c) := by
  induction ids generalizing calls state progress with
  | nil =>
    cases h
    exact ⟨[], by simp, .done, fun c hc => by cases hc⟩
  | cons id ids ih =>
    rw [List.flatMap_cons]
    rcases freezeGroups_cons_eq_ok h with
      ⟨c, ⟨next, last⟩, hmembers, rfl⟩ |
        ⟨frozen, ⟨next, last⟩, rest, hmembers, hrun, rfl⟩
    · obtain ⟨_, made, hmade, hvisits⟩ := freezeMembers_noting hmembers
      refine ⟨made, hmade, hvisits.append_failed _, ?_⟩
      intro c' hc'
      cases hc'
      obtain ⟨position, hposition, hlast⟩ := hvisits.exists_last_error
      exact ⟨id, position, rfl, hposition, hlast⟩
    · obtain ⟨_, made, rfl, hvisits⟩ := freezeMembers_noting hmembers
      obtain ⟨later, hlater, hrest, hfailed⟩ := ih hrun
      refine ⟨made ++ later, by rw [hlater, List.append_assoc], hvisits.append hrest, ?_⟩
      intro c hc
      cases hfrozen : rest.frozen with
      | ok frozen' => simp [hfrozen, Except.map] at hc
      | error c' =>
        simp [hfrozen, Except.map] at hc
        subst hc
        obtain ⟨failed, position, hid, hposition, hlast⟩ := hfailed c' hfrozen
        refine ⟨failed, position, by simpa using hid, hposition, ?_⟩
        rw [List.getLast?_append, hlast]
        rfl

end

end LargeNeighborhood
