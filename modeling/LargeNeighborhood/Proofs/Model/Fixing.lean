import LargeNeighborhood.Model

/-!
# Fixing variables of a model

A successful instantiation fixes a variable and logs it. A list of them touches the domains of its
variables alone.
-/

namespace LargeNeighborhood.Model

def fixTo (m : Model) (entry : VarId × Int32) : Model :=
  { m.setDomain entry.1 (.singleton entry.2) with log := m.log.push entry }

def fixAll (m : Model) (entries : List (VarId × Int32)) : Model :=
  entries.foldl fixTo m

variable {m : Model} {var : VarId} {value : Int32}

theorem instantiate_eq {d : Domain} (hdomain : m.domain var = .ok d) :
    m.instantiate var value = .ok (
      if m.failing.contains var || !d.contains value then
        (.error ⟨var, value⟩, m.setDomain var .empty)
      else
        (.ok (), m.fixTo (var, value))) := by
  unfold instantiate
  rw [hdomain]
  simp only [bind, Except.bind, pure, Except.pure]
  split <;> rfl

/-- Fixing leaves the variables, the checkpoints and the refusals alone and logs every entry. -/
theorem fixAll_keeps (m : Model) (entries : List (VarId × Int32)) :
    (m.fixAll entries).domains.size = m.domains.size ∧
      (m.fixAll entries).checkpoints = m.checkpoints ∧ (m.fixAll entries).failing = m.failing ∧
      (m.fixAll entries).log = m.log ++ entries.toArray := by
  induction entries generalizing m with
  | nil => exact ⟨rfl, rfl, rfl, by simp [fixAll]⟩
  | cons entry entries ih =>
    obtain ⟨hsize, hcheckpoints, hfailing, hlog⟩ := ih (m.fixTo entry)
    refine ⟨hsize.trans Array.size_setIfInBounds, hcheckpoints, hfailing, hlog.trans ?_⟩
    simp [fixTo]

theorem getElem?_fixAll_of_forall_ne {entries : List (VarId × Int32)} {index : Nat}
    (hentries : ∀ entry ∈ entries, entry.1.index ≠ index) :
    (m.fixAll entries).domains[index]? = m.domains[index]? := by
  induction entries generalizing m with
  | nil => rfl
  | cons entry entries ih =>
    have hlater := ih (m := m.fixTo entry) fun later hmem =>
      hentries later (List.mem_cons_of_mem _ hmem)
    have hfirst := hentries entry List.mem_cons_self
    exact hlater.trans (Array.getElem?_setIfInBounds_ne hfirst)

/-- A variable that is always fixed to one value ends with that value alone. -/
theorem getElem?_fixAll_of_mem {entries : List (VarId × Int32)} (hmem : (var, value) ∈ entries)
    (hentries : ∀ entry ∈ entries, entry.1 = var → entry.2 = value)
    (hvar : var.index < m.domains.size) :
    (m.fixAll entries).domains[var.index]? = some (.singleton value) := by
  induction entries generalizing m with
  | nil => cases hmem
  | cons entry entries ih =>
    have hsize : (m.fixTo entry).domains.size = m.domains.size := Array.size_setIfInBounds
    by_cases hlater : (var, value) ∈ entries
    · exact ih (m := m.fixTo entry) hlater
        (fun later h => hentries later (List.mem_cons_of_mem _ h)) (by rwa [hsize])
    · -- the first entry is the last one for the variable
      obtain rfl : (var, value) = entry := by
        rcases List.mem_cons.mp hmem with h | h
        · exact h
        · exact absurd h hlater
      have hrest : ∀ later ∈ entries, later.1.index ≠ var.index := by
        intro later h hindex
        have hsame : later.1 = var := VarId.ext hindex
        have hvalue := hentries later (List.mem_cons_of_mem _ h) hsame
        exact hlater (by rwa [← hsame, ← hvalue])
      exact (getElem?_fixAll_of_forall_ne hrest).trans
        (Array.getElem?_setIfInBounds_self_of_lt hvar)

/-! ## Narrowed domains -/

/-- Every domain is left alone or fixed to one of its values. -/
def Narrows (m m' : Model) : Prop :=
  m'.domains.size = m.domains.size ∧ ∀ (index : Nat) (d : Domain), m.domains[index]? = some d →
    m'.domains[index]? = some d ∨
      ∃ value, d.contains value = true ∧ m'.domains[index]? = some (.singleton value)

theorem Narrows.refl (m : Model) : m.Narrows m :=
  ⟨rfl, fun _ _ hdomain => .inl hdomain⟩

theorem Narrows.trans {m' m'' : Model} (h : m.Narrows m') (h' : m'.Narrows m'') :
    m.Narrows m'' := by
  refine ⟨h'.1.trans h.1, ?_⟩
  intro index d hdomain
  rcases h.2 index d hdomain with hkept | ⟨value, hvalue, hfixed⟩
  · exact h'.2 index d hkept
  · rcases h'.2 index _ hfixed with hkept | ⟨value', hvalue', hfixed'⟩
    · exact .inr ⟨value, hvalue, hkept⟩
    · obtain rfl : value' = value := by simpa [Domain.contains, Domain.singleton] using hvalue'
      exact .inr ⟨value', hvalue, hfixed'⟩

theorem Narrows.eq_empty {m' : Model} (h : m.Narrows m') {index : Nat}
    (hempty : m'.domains[index]? = some .empty) : m.domains[index]? = some .empty := by
  have hsize : index < m.domains.size := h.1 ▸ (Array.getElem?_eq_some_iff.mp hempty).1
  have hdomain := Array.getElem?_eq_getElem hsize
  rcases h.2 index _ hdomain with hkept | ⟨value, _, hfixed⟩
  · rw [hdomain, ← hkept, hempty]
  · rw [hempty] at hfixed
    cases hfixed

theorem narrows_fixAll {entries : List (VarId × Int32)}
    (hvalues : ∀ entry ∈ entries, ∃ d, m.domains[entry.1.index]? = some d ∧
      d.contains entry.2 = true)
    (hagree : ∀ entry ∈ entries, ∀ other ∈ entries, other.1 = entry.1 → other.2 = entry.2) :
    m.Narrows (m.fixAll entries) := by
  refine ⟨(m.fixAll_keeps entries).1, ?_⟩
  intro index d hdomain
  by_cases hlisted : ∃ entry ∈ entries, entry.1.index = index
  · obtain ⟨⟨var, value⟩, hmem, rfl⟩ := hlisted
    obtain ⟨d', hdomain', hvalue⟩ := hvalues _ hmem
    obtain rfl : d = d' := Option.some.inj (hdomain.symm.trans hdomain')
    have hbound := (Array.getElem?_eq_some_iff.mp hdomain).1
    exact .inr ⟨value, hvalue, getElem?_fixAll_of_mem hmem (hagree _ hmem) hbound⟩
  · refine .inl ?_
    rw [getElem?_fixAll_of_forall_ne fun entry hmem hindex => hlisted ⟨entry, hmem, hindex⟩]
    exact hdomain

end LargeNeighborhood.Model
