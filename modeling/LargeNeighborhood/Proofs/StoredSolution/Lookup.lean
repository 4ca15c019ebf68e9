import LargeNeighborhood.Proofs.Model.Domain
import LargeNeighborhood.StoredSolution
import Mathlib.Data.List.Induction

/-!
# Looking values up

A stored solution gives each variable the value written for it last. One that was captured from a
model gives exactly the captured variables with a single value that value.
-/

namespace LargeNeighborhood.StoredSolution

variable {s : StoredSolution} {m : Model} {var : VarId} {vars : List VarId} {value : Int32}
  {writes pairs : List (VarId × Int32)}

theorem lookup_cons_eq (var other : VarId) (value : Int32) (entries : List (VarId × Int32)) :
    ((var, value) :: entries).lookup other =
      if other = var then some value else entries.lookup other := by
  rw [List.lookup_cons]
  by_cases hother : other = var
  · rw [if_pos hother, beq_iff_eq.mpr hother]
  · rw [if_neg hother, beq_false_of_ne hother]

theorem lookup_insertEntry (var other : VarId) (value : Int32) (entries : List (VarId × Int32)) :
    (insertEntry var value entries).lookup other =
      if other = var then some value else entries.lookup other := by
  induction entries with
  | nil => exact lookup_cons_eq ..
  | cons entry rest ih =>
    obtain ⟨first, old⟩ := entry
    rw [insertEntry]
    split
    · exact lookup_cons_eq ..
    · split
      · rename_i hindex
        obtain rfl : var = first := VarId.ext hindex
        rw [lookup_cons_eq, lookup_cons_eq]
        split <;> rfl
      · rename_i hindex
        have hne : first ≠ var := fun hsame => hindex (by rw [hsame])
        rw [lookup_cons_eq, lookup_cons_eq, ih]
        by_cases hother : other = first
        · rw [if_pos hother, if_pos hother, if_neg (hother ▸ hne)]
        · rw [if_neg hother, if_neg hother]

theorem value?_insert (s : StoredSolution) (var other : VarId) (value : Int32) :
    (s.insert var value).value? other = if other = var then some value else s.value? other :=
  lookup_insertEntry var other value s.entries

/-! ## The last write -/

/-- The value in the last of some writes to a variable. -/
def lastWrite (writes : List (VarId × Int32)) (var : VarId) : Option Int32 :=
  writes.reverse.lookup var

theorem lastWrite_append_singleton (writes : List (VarId × Int32)) (var other : VarId)
    (value : Int32) : lastWrite (writes ++ [(var, value)]) other =
      if other = var then some value else lastWrite writes other := by
  rw [lastWrite, List.reverse_append, List.reverse_singleton, List.singleton_append,
    lookup_cons_eq, lastWrite]

theorem isSome_lastWrite :
    (lastWrite writes var).isSome = true ↔ var ∈ writes.map Prod.fst := by
  rw [lastWrite, List.lookup_isSome_iff, List.mem_map]
  simp only [List.mem_reverse, beq_iff_eq, @eq_comm _ var]

theorem lastWrite_eq_none_iff : lastWrite writes var = none ↔ var ∉ writes.map Prod.fst := by
  rw [← isSome_lastWrite, Option.not_isSome_iff_eq_none]

theorem mem_of_lastWrite (h : lastWrite writes var = some value) : (var, value) ∈ writes := by
  obtain ⟨later, earlier, hwrites, _⟩ := List.lookup_eq_some_iff.mp h
  rw [← List.mem_reverse, hwrites]
  exact List.mem_append_right _ List.mem_cons_self

theorem value?_ofList_eq (pairs : List (VarId × Int32)) (var : VarId) :
    (ofList pairs).value? var = lastWrite pairs var := by
  induction pairs using List.reverseRecOn with
  | nil => rfl
  | append_singleton pairs last ih =>
    obtain ⟨written, current⟩ := last
    rw [lastWrite_append_singleton, ← ih, ← value?_insert, ofList, List.foldl_append]
    rfl

/-- If each variable is written with one value, that value is looked up. -/
theorem value?_ofList
    (hpairs : ∀ var value value', (var, value) ∈ pairs → (var, value') ∈ pairs →
      value = value') :
    (ofList pairs).value? var = some value ↔ (var, value) ∈ pairs := by
  rw [value?_ofList_eq]
  constructor
  · exact mem_of_lastWrite
  · intro hmem
    have hwritten : var ∈ pairs.map Prod.fst := List.mem_map_of_mem hmem
    obtain ⟨last, hlast⟩ := Option.isSome_iff_exists.mp (isSome_lastWrite.mpr hwritten)
    rw [hlast, hpairs var last value (mem_of_lastWrite hlast) hmem]

/-! ## Captured models -/

theorem instantiated_cons_eq_ok (h : instantiated m (var :: vars) = .ok pairs) :
    ∃ d rest, m.domain var = .ok d ∧ instantiated m vars = .ok rest ∧
      pairs = (d.value?.map fun value => (var, value)).toList ++ rest := by
  rw [instantiated, Checked.bind_eq_ok_iff] at h
  obtain ⟨value?, hvalue, h⟩ := h
  obtain ⟨rest, hrest, hpairs⟩ := Checked.bind_eq_ok_iff.mp h
  cases hdomain : m.domain var with
  | error fault =>
    simp only [Model.value, Model.isInstantiated, Model.lower, hdomain, bind, Except.bind] at hvalue
    cases hvalue
  | ok d =>
    rw [Model.value_eq hdomain, Except.ok.injEq] at hvalue
    refine ⟨d, rest, rfl, hrest, ?_⟩
    rw [hvalue]
    cases value? <;> cases hpairs <;> rfl

theorem exists_instantiated (hvars : ∀ var ∈ vars, ∃ d, m.domain var = .ok d) :
    ∃ pairs, instantiated m vars = .ok pairs := by
  induction vars with
  | nil => exact ⟨[], rfl⟩
  | cons var vars ih =>
    obtain ⟨⟨d, hdomain⟩, hvars⟩ := List.forall_mem_cons.mp hvars
    obtain ⟨pairs, hpairs⟩ := ih hvars
    simp only [instantiated, Model.value_eq hdomain, hpairs, bind, Except.bind]
    exact ⟨_, rfl⟩

theorem mem_instantiated (h : instantiated m vars = .ok pairs) :
    (var, value) ∈ pairs ↔ var ∈ vars ∧ m.domain var = .ok (.singleton value) := by
  induction vars generalizing pairs with
  | nil =>
    cases h
    simp
  | cons first vars ih =>
    obtain ⟨d, rest, hdomain, hrest, rfl⟩ := instantiated_cons_eq_ok h
    have hfirst : (var, value) ∈ (d.value?.map fun value => (first, value)).toList ↔
        var = first ∧ m.domain var = .ok (.singleton value) := by
      rw [Option.mem_toList, Option.map_eq_some_iff]
      constructor
      · rintro ⟨value', hvalue, heq⟩
        obtain ⟨rfl, rfl⟩ := Prod.mk.inj heq
        exact ⟨rfl, by rw [hdomain, Domain.value?_eq_some_iff.mp hvalue]⟩
      · rintro ⟨rfl, hsingle⟩
        have hd : d = .singleton value := Except.ok.inj (hdomain.symm.trans hsingle)
        exact ⟨value, Domain.value?_eq_some_iff.mpr hd, rfl⟩
    rw [List.mem_append, hfirst, ih hrest, List.mem_cons, or_and_right]

/-- A captured solution gives each captured variable the only value of its domain. -/
theorem value?_record (h : record m vars = .ok s) :
    s.value? var = some value ↔ var ∈ vars ∧ m.domain var = .ok (.singleton value) := by
  obtain ⟨pairs, hpairs, hs⟩ := Checked.bind_eq_ok_iff.mp h
  cases hs
  rw [value?_ofList, mem_instantiated hpairs]
  intro var value value' hmem hmem'
  exact Model.singleton_unique ((mem_instantiated hpairs).mp hmem).2
    ((mem_instantiated hpairs).mp hmem').2

theorem exists_record (hvars : ∀ var ∈ vars, ∃ d, m.domain var = .ok d) :
    ∃ s, record m vars = .ok s := by
  obtain ⟨pairs, hpairs⟩ := exists_instantiated hvars
  exact ⟨_, Checked.bind_eq_ok_iff.mpr ⟨pairs, hpairs, rfl⟩⟩

end LargeNeighborhood.StoredSolution
