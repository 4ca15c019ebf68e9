import LargeNeighborhood.Yaml.Resolve

/-!
# Which scalars have which values

Every value of a scalar with what it says about the text, the style and the tag of the scalar.
-/

namespace LargeNeighborhood.Yaml

variable {tag : Option TagBytes} {style : Style} {text : List Char} {c : Content}

/-- The ways in which a scalar gets its value. -/
inductive Scalar.Reads (tag : Option TagBytes) (style : Style) (text : List Char) : Content → Prop
  | null : Reads tag style text .null
  | boolean (b : Bool) (htag : tag ≠ some (coreTag "int")) : Reads tag style text (.boolean b)
  | unsigned (n : Nat) (htext : unsigned? text = some n)
    (hstyle : style = .plain ∨ tag = some (coreTag "int")) : Reads tag style text (.unsigned n)
  | signed (n : Nat) (htext : unsigned? text = none) : Reads tag style text (.signed (-(n : Int)))
  | float (x : Binary64) (htag : tag ≠ some (coreTag "int")) : Reads tag style text (.float x)
  | text (htag : tag ≠ some (coreTag "int")) : Reads tag style text (.text (String.ofList text))

theorem reads_of_integer? (h : integer? text = some (some c))
    (hstyle : style = .plain ∨ tag = some (coreTag "int")) : Scalar.Reads tag style text c := by
  unfold integer? at h
  cases hunsigned : unsigned? text with
  | some n =>
    simp only [hunsigned] at h
    split at h
    case isTrue =>
      cases h
      exact .unsigned n hunsigned hstyle
    case isFalse => split at h <;> cases h
  | none =>
    cases hnegative : negative? text with
    | some n =>
      simp only [hunsigned, hnegative] at h
      split at h
      case isTrue =>
        cases h
        exact .signed n hunsigned
      case isFalse => split at h <;> cases h
    | none =>
      simp only [hunsigned, hnegative] at h
      cases h

theorem reads_of_plainContent (h : plainContent text = some c) (hstyle : style = .plain)
    (htag : tag ≠ some (coreTag "int")) : Scalar.Reads tag style text c := by
  unfold plainContent at h
  split at h
  case isTrue => cases h; exact .null
  case isFalse =>
    cases hboolean : boolean? text with
    | some b =>
      simp only [hboolean] at h
      cases h
      exact .boolean b htag
    | none =>
      cases hinteger : integer? text with
      | some content =>
        simp only [hboolean, hinteger] at h
        subst h
        exact reads_of_integer? hinteger (.inl hstyle)
      | none =>
        simp only [hboolean, hinteger] at h
        generalize (if hasLeadingZero text then none else float? text) = float at h
        cases float with
        | some x => cases h; exact .float x htag
        | none => cases h; exact .text htag

theorem reads_of_scalarContent (h : scalarContent tag style text = some c) :
    Scalar.Reads tag style text c := by
  unfold scalarContent at h
  cases tag with
  | none =>
    dsimp only at h
    split at h
    case isTrue hstyle => exact reads_of_plainContent h hstyle nofun
    case isFalse => cases h; exact .text nofun
  | some tag =>
    dsimp only at h
    by_cases hint : tag = coreTag "int"
    · subst hint
      rw [if_neg, if_neg, if_pos rfl, Option.join_eq_some_iff] at h
      · exact reads_of_integer? h (.inr rfl)
      · decide +kernel
      · decide +kernel
    · have htag : some tag ≠ some (coreTag "int") := fun h => hint (Option.some.inj h)
      rw [if_neg hint] at h
      split at h
      · cases h
      · split at h
        · obtain ⟨b, _, rfl⟩ := Option.map_eq_some_iff.mp h
          exact .boolean b htag
        · split at h
          · obtain ⟨x, _, rfl⟩ := Option.map_eq_some_iff.mp h
            exact .float x htag
          · split at h
            · split at h
              · cases h; exact .null
              · cases h
            · split at h
              case isTrue hplain => exact reads_of_plainContent h hplain.2 htag
              case isFalse => cases h; exact .text htag

theorem plainContent_null (h : text.isEmpty ∨ isNull text) : plainContent text = some .null :=
  if_pos (Bool.or_eq_true_iff.mpr h)

theorem null_of_nullTag (h : scalarContent (some (coreTag "null")) style text = some c) :
    c = .null := by
  unfold scalarContent at h
  dsimp only at h
  rw [if_neg (by decide +kernel), if_neg (by decide +kernel), if_neg (by decide +kernel),
    if_neg (by decide +kernel), if_pos rfl] at h
  split at h
  · exact (Option.some.inj h).symm
  · cases h

structure IsWord (text : List Char) : Prop where
  plain : plainContent text = some (.text (String.ofList text))
  not_null : isNull text = false
  not_boolean : boolean? text = none
  not_integer : integer? text = none
  not_float : float? text = none

/-- Whatever its tag and its style, a word has no other value. -/
theorem IsWord.content_eq (hword : IsWord text) (h : scalarContent tag style text = some c) :
    c = .text (String.ofList text) := by
  unfold scalarContent at h
  simp only [hword.plain, hword.not_boolean, hword.not_integer, hword.not_float, hword.not_null,
    Bool.false_eq_true, if_false, Option.map_none, Option.join_none, ite_self] at h
  split at h
  · exact (Option.some.inj h).symm
  · repeat' split at h
    all_goals first | exact (Option.some.inj h).symm | cases h

end LargeNeighborhood.Yaml
