import LargeNeighborhood.Model

/-!
# Bounds of a domain

The values of a domain lie between its bounds, and the bounds of a domain agree exactly if it has
one value: those of an emptied domain are the wrong way round.
-/

namespace LargeNeighborhood

/-- The greater of two 32-bit integers is the least one above both. -/
instance lawfulOrderMax : Std.LawfulOrderMax Int32 := by
  have hmax : ∀ a b : Int32, max a b = if a ≤ b then b else a := fun _ _ => rfl
  apply Std.LawfulOrderMax.of_max_le_iff
  · intro a b c
    rw [hmax]
    split
    · rename_i hle
      exact ⟨fun h => ⟨Int32.le_trans hle h, h⟩, And.right⟩
    · rename_i hle
      have hlt := Int32.not_le.mp hle
      exact ⟨fun h => ⟨h, Int32.le_trans (Int32.le_of_lt hlt) h⟩, And.left⟩
  · intro a b
    rw [hmax]
    split
    · exact .inr rfl
    · exact .inl rfl

namespace Domain

variable {d : Domain} {value : Int32}

@[simp] theorem contains_iff : d.contains value = true ↔ value ∈ d.values := by
  rw [contains, List.contains_iff_mem]

def value? (d : Domain) : Option Int32 :=
  match d.values with
  | [value] => some value
  | _ => none

theorem value?_eq_some_iff : d.value? = some value ↔ d = .singleton value := by
  constructor
  · intro h
    obtain ⟨values, increasing⟩ := d
    match values, increasing, h with
    | [_], _, rfl => rfl
  · rintro rfl
    rfl

theorem lower_le (h : value ∈ d.values) : d.lower ≤ value := by
  obtain ⟨values, increasing⟩ := d
  cases values with
  | nil => cases h
  | cons first rest =>
    change first ≤ value
    rcases List.mem_cons.mp h with rfl | hmem
    · exact Int32.le_refl _
    · exact Int32.le_of_lt ((List.pairwise_cons.mp increasing).1 value hmem)

theorem le_upper (h : value ∈ d.values) : value ≤ d.upper := by
  obtain ⟨values, increasing⟩ := d
  rcases List.eq_nil_or_concat values with rfl | ⟨rest, last, hvalues⟩
  · cases h
  · rw [List.concat_eq_append] at hvalues
    subst hvalues
    have hupper : upper ⟨rest ++ [last], increasing⟩ = last := by
      rw [upper, List.getLast?_concat, Option.getD_some]
    rw [hupper]
    rcases List.mem_append.mp h with hmem | hmem
    · exact Int32.le_of_lt ((List.pairwise_append.mp increasing).2.2 value hmem last (by simp))
    · rw [List.mem_singleton.mp hmem]
      exact Int32.le_refl _

theorem value?_eq (d : Domain) : d.value? = if d.lower = d.upper then some d.lower else none := by
  obtain ⟨values, increasing⟩ := d
  match values, increasing with
  | [], _ => rfl
  | [value], _ => exact (if_pos rfl).symm
  | first :: second :: rest, increasing =>
    have hlt : first < second := (List.pairwise_cons.mp increasing).1 second List.mem_cons_self
    have hle : second ≤ upper ⟨first :: second :: rest, increasing⟩ := le_upper (by simp)
    symm
    apply if_neg
    intro hbounds
    rw [← hbounds] at hle
    exact Int32.lt_irrefl (Int32.lt_of_lt_of_le hlt hle)

end Domain

namespace Model

variable {m : Model} {var : VarId} {d : Domain}

theorem domain_eq_ok_iff : m.domain var = .ok d ↔ m.domains[var.index]? = some d :=
  Checked.get_eq_ok_iff

theorem singleton_unique {value value' : Int32} (h : m.domain var = .ok (.singleton value))
    (h' : m.domain var = .ok (.singleton value')) : value = value' :=
  Option.some.inj (congrArg Domain.value? (Except.ok.inj (h.symm.trans h')))

theorem value_eq (h : m.domain var = .ok d) : m.value var = .ok d.value? := by
  simp only [value, isInstantiated, lower, upper, h, bind, Except.bind, pure, Except.pure]
  rw [d.value?_eq]
  by_cases hbounds : d.lower = d.upper
  · rw [if_pos hbounds, if_pos (beq_iff_eq.mpr hbounds)]
  · rw [if_neg hbounds, if_neg (by rwa [beq_iff_eq])]

end Model

end LargeNeighborhood
