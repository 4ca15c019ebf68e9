import LargeNeighborhood.Proofs.Model.Domain
import LargeNeighborhood.Proofs.Model.Fixing

/-!
# Descent from a model

Every operation of a model either adds a variable or takes values away, and going back to a
checkpoint returns to domains that came about in the same way. So as long as the checkpoints of the
start are kept, no variable gets a value that it could not take at the start.
-/

namespace LargeNeighborhood.Model

/-- The variables of the first domains have no other values in the second ones. -/
structure Within (bound domains : Array Domain) : Prop where
  size_le : bound.size ≤ domains.size
  values : ∀ (index : Nat) (d d' : Domain), bound[index]? = some d → domains[index]? = some d' →
    d'.values ⊆ d.values

/-- The domains and the checkpoints since some start are within the domains of the start. -/
structure Descends (start m : Model) : Prop where
  domains : Within start.domains m.domains
  checkpoints : ∃ pushed, m.checkpoints = pushed ++ start.checkpoints ∧
    ∀ saved ∈ pushed, Within start.domains saved

variable {bound domains : Array Domain} {start m m' : Model}

/-! ## Domains -/

theorem Within.refl (bound : Array Domain) : Within bound bound := by
  refine ⟨Nat.le_refl _, ?_⟩
  intro index d d' hd hd'
  rw [Option.some.inj (hd.symm.trans hd')]
  exact fun _ => id

theorem Within.push (h : Within bound domains) (d : Domain) : Within bound (domains.push d) := by
  constructor
  · rw [Array.size_push]
    exact Nat.le_succ_of_le h.size_le
  · intro index old new hold hnew
    have hindex : index < domains.size :=
      Nat.lt_of_lt_of_le (Array.getElem?_eq_some_iff.mp hold).1 h.size_le
    rw [Array.getElem?_push_lt hindex] at hnew
    exact h.values index old new hold (by rw [Array.getElem?_eq_getElem hindex, hnew])

theorem Within.set (h : Within bound domains) {index : Nat} {d d' : Domain}
    (hdomain : domains[index]? = some d) (hvalues : d'.values ⊆ d.values) :
    Within bound (domains.setIfInBounds index d') := by
  constructor
  · rw [Array.size_setIfInBounds]
    exact h.size_le
  · intro other old new hold hnew
    have hbound := (Array.getElem?_eq_some_iff.mp hdomain).1
    by_cases hsame : index = other
    · subst hsame
      rw [Array.getElem?_setIfInBounds_self_of_lt hbound, Option.some.injEq] at hnew
      rw [← hnew]
      exact fun value hvalue => h.values index old d hold hdomain (hvalues hvalue)
    · rw [Array.getElem?_setIfInBounds_ne hsame] at hnew
      exact h.values other old new hold hnew

theorem singleton_subset {d : Domain} {value : Int32} (h : d.contains value = true) :
    (Domain.singleton value).values ⊆ d.values := by
  intro other hother
  rw [List.mem_singleton.mp hother]
  exact Domain.contains_iff.mp h

/-! ## Operations -/

theorem Descends.refl (m : Model) : m.Descends m :=
  ⟨.refl m.domains, [], rfl, nofun⟩

theorem Descends.of_within (h : start.Descends m) (hdomains : Within start.domains m'.domains)
    (hcheckpoints : m'.checkpoints = m.checkpoints) : start.Descends m' :=
  ⟨hdomains, by rw [hcheckpoints]; exact h.checkpoints⟩

theorem Descends.setDomain (h : start.Descends m) {var : VarId} {d d' : Domain}
    (hdomain : m.domain var = .ok d) (hvalues : d'.values ⊆ d.values) :
    start.Descends (m.setDomain var d') :=
  h.of_within (h.domains.set (domain_eq_ok_iff.mp hdomain) hvalues) rfl

theorem Descends.newVar (h : start.Descends m) (lower upper : Int32) :
    start.Descends (m.newVar lower upper).1 :=
  h.of_within (h.domains.push _) rfl

theorem Descends.failOn (h : start.Descends m) (var : VarId) : start.Descends (m.failOn var) :=
  h.of_within h.domains rfl

theorem Descends.clearLog (h : start.Descends m) : start.Descends m.clearLog :=
  h.of_within h.domains rfl

theorem Descends.remove (h : start.Descends m) {var : VarId} {value : Int32}
    (hrun : m.remove var value = .ok m') : start.Descends m' := by
  obtain ⟨d, hdomain, hm'⟩ := Checked.bind_eq_ok_iff.mp hrun
  cases hm'
  exact h.setDomain hdomain List.erase_subset

theorem Descends.assignAll (h : start.Descends m) {entries : List (VarId × Int32)}
    (hrun : m.assignAll entries = .ok m') : start.Descends m' := by
  induction entries generalizing m with
  | nil =>
    cases hrun
    exact h
  | cons entry entries ih =>
    obtain ⟨var, value⟩ := entry
    obtain ⟨kept, hkept, hrest⟩ := Checked.bind_eq_ok_iff.mp hrun
    obtain ⟨d, hdomain, hcontains⟩ := Checked.bind_eq_ok_iff.mp hkept
    cases hcontains
    split at hrest
    · rename_i hvalue
      exact ih (h.setDomain hdomain (singleton_subset hvalue)) hrest
    · cases hrest

theorem Descends.assign (h : start.Descends m) {vars : List VarId} {values : List Int32}
    (hrun : m.assign vars values = .ok m') : start.Descends m' := by
  unfold Model.assign at hrun
  split at hrun
  · exact h.assignAll hrun
  · cases hrun

theorem Descends.fixTo (h : start.Descends m) {var : VarId} {value : Int32} {d : Domain}
    (hdomain : m.domain var = .ok d) (hvalue : d.contains value = true) :
    start.Descends (m.fixTo (var, value)) := by
  have hset := h.setDomain hdomain (singleton_subset hvalue)
  exact hset.of_within hset.domains rfl

/-- A refused instantiation empties the domain, which is within any other. -/
theorem Descends.instantiate (h : start.Descends m) {var : VarId} {value : Int32}
    {result : Except Contradiction Unit} (hrun : m.instantiate var value = .ok (result, m')) :
    start.Descends m' := by
  obtain ⟨d, hdomain, _⟩ := Checked.bind_eq_ok_iff.mp hrun
  rw [instantiate_eq hdomain] at hrun
  split at hrun
  · cases hrun
    exact h.setDomain hdomain (List.nil_subset _)
  · rename_i hpossible
    cases hrun
    simp only [Bool.or_eq_true, Bool.not_eq_true', not_or, Bool.not_eq_false] at hpossible
    exact h.fixTo hdomain hpossible.2

theorem Descends.save (h : start.Descends m) : start.Descends m.save := by
  obtain ⟨pushed, hcheckpoints, hsaved⟩ := h.checkpoints
  refine ⟨h.domains, m.domains :: pushed, by rw [Model.save, hcheckpoints, List.cons_append], ?_⟩
  exact List.forall_mem_cons.mpr ⟨h.domains, hsaved⟩

/-- Going back ends within the start if it stops short of the checkpoints of the start. -/
theorem Descends.restore (h : start.Descends m)
    (hkept : m.checkpoints = [] ∨ start.checkpoints.length < m.checkpoints.length) :
    start.Descends m.restore.1 := by
  obtain ⟨pushed, hcheckpoints, hsaved⟩ := h.checkpoints
  rw [Model.restore]
  cases pushed with
  | nil =>
    rw [List.nil_append] at hcheckpoints
    rcases hkept with hnone | hlonger
    · rw [hnone]
      exact h
    · rw [hcheckpoints] at hlonger
      exact absurd hlonger (Nat.lt_irrefl _)
  | cons domains rest =>
    rw [hcheckpoints, List.cons_append]
    obtain ⟨hdomains, hrest⟩ := List.forall_mem_cons.mp hsaved
    exact ⟨hdomains, rest, rfl, hrest⟩

end LargeNeighborhood.Model
