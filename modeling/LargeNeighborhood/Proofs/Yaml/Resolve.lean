import LargeNeighborhood.Config.Yaml
import LargeNeighborhood.Proofs.Numeric.FloatText
import LargeNeighborhood.Proofs.Text.Reader

/-!
# YAML numbers as they are written

The digits of an integer and the text of a double, as plain scalars without a tag, have that integer
and that double as their values.
-/

namespace LargeNeighborhood.Yaml

variable {ds rest text : List Char} {m : Numeral}

/-! ## Texts that are no words -/

/-- The first character is a digit, perhaps after a minus sign. -/
def StartsNumber (text : List Char) : Prop :=
  ∃ c rest, c.isDigit = true ∧ (text = c :: rest ∨ text = '-' :: c :: rest)

theorem StartsNumber.ne_word (h : StartsNumber text) {word : List Char}
    (hword : ∀ c ∈ word.take 2, c.isDigit = false) : text ≠ word := by
  rintro rfl
  obtain ⟨c, rest, hc, rfl | rfl⟩ := h <;>
  · rw [hword c (by simp)] at hc
    cases hc

theorem any_words_eq_false (h : StartsNumber text) {words : List String}
    (hwords : words.all fun word => (word.toList.take 2).all fun c => !c.isDigit) :
    (words.any fun word => text == word.toList) = false := by
  rw [Bool.eq_false_iff]
  intro hany
  obtain ⟨word, hword, heq⟩ := List.any_eq_true.mp hany
  refine h.ne_word (fun c hc => ?_) (eq_of_beq heq)
  have hall := List.all_eq_true.mp (List.all_eq_true.mp hwords word hword) c hc
  rwa [Bool.not_eq_true'] at hall

theorem not_isNull (h : StartsNumber text) : isNull text = false :=
  any_words_eq_false h (by decide +kernel)

theorem not_boolean (h : StartsNumber text) : boolean? text = none := by
  rw [boolean?, any_words_eq_false h (by decide +kernel), any_words_eq_false h (by decide +kernel)]
  rfl

theorem startsNumber_digits (hds : DigitRun ds) : StartsNumber (ds ++ rest) := by
  obtain ⟨c, cs, rfl⟩ := List.exists_cons_of_ne_nil hds.nonempty
  exact ⟨c, cs ++ rest, hds.isDigit c List.mem_cons_self, .inl rfl⟩

/-! ## Integers -/

theorem startsWithSign_digit {c : Char} (hc : c.isDigit = true) (rest : List Char) :
    startsWithSign (c :: rest) = false := by
  rw [startsWithSign, List.head?_cons, Option.any_some, Bool.or_eq_false_iff, beq_eq_false_iff_ne,
    beq_eq_false_iff_ne]
  constructor <;>
  · rintro rfl
    cases hc

theorem not_hasLeadingZero (hds : WholeRun ds) : hasLeadingZero ds = false := by
  obtain ⟨c, cs, rfl⟩ := List.exists_cons_of_ne_nil hds.nonempty
  have hc := hds.isDigit c List.mem_cons_self
  rw [hasLeadingZero, startsWithSign_digit hc, if_neg Bool.false_ne_true]
  split
  case h_1 heq =>
    have hsingle := hds.leading (by rw [heq]; rfl)
    rw [heq] at hsingle
    cases hsingle
  case h_2 => rfl

theorem unsigned?_digits (hds : WholeRun ds) : unsigned? ds = some (ofDigits 10 ds) := by
  have hdigits := hds.toDigitRun.digits?_eq
  have hletter (x : Char) (tail : List Char) (hx : x.isDigit = false) : ds ≠ '0' :: x :: tail := by
    rintro rfl
    have hdigit := hds.isDigit x (by simp)
    rw [hx] at hdigit
    cases hdigit
  unfold unsigned?
  rw [not_hasLeadingZero hds, if_neg Bool.false_ne_true]
  split
  case h_1 =>
    have hplus := hds.isDigit '+' List.mem_cons_self
    cases hplus
  case h_2 =>
    unfold size?
    split
    case h_1 => exact absurd rfl (hletter 'x' _ rfl)
    case h_2 => exact absurd rfl (hletter 'o' _ rfl)
    case h_3 => exact absurd rfl (hletter 'b' _ rfl)
    case h_4 => exact hdigits

theorem plainContent_digits (hds : WholeRun ds) (hn : ofDigits 10 ds < UInt64.size) :
    plainContent ds = some (.unsigned (ofDigits 10 ds)) := by
  have hstart : StartsNumber ds := by
    rw [← List.append_nil ds]
    exact startsNumber_digits hds.toDigitRun
  have hnotEmpty : ds.isEmpty = false := List.isEmpty_eq_false_iff.mpr hds.nonempty
  have hinteger : integer? ds = some (some (.unsigned (ofDigits 10 ds))) := by
    rw [integer?, unsigned?_digits hds]
    exact if_pos hn
  rw [plainContent, hnotEmpty, not_isNull hstart, Bool.or_false, if_neg Bool.false_ne_true,
    not_boolean hstart, hinteger]

/-! ## Floats -/

theorem takeWhile_digits (hds : ∀ c ∈ ds, c.isDigit = true)
    (hrest : ∀ c ∈ rest.head?, c.isDigit = false) :
    Reader.takeWhile Char.isDigit (ds ++ rest) = some (ds, rest) :=
  Reader.takeWhile_append hds hrest

theorem exponentChars_head (m : Numeral) : ∀ c ∈ m.exponentChars.head?, c = 'e' := by
  intro c hc
  rw [Numeral.exponentChars] at hc
  cases hexponent : m.exponent with
  | none =>
    rw [hexponent] at hc
    cases hc
  | some exponent =>
    rw [hexponent] at hc
    exact (Option.some.inj hc).symm

theorem exponentChars_head_not_digit (m : Numeral) :
    ∀ c ∈ m.exponentChars.head?, c.isDigit = false := by
  intro c hc
  rw [exponentChars_head m c hc]
  rfl

/-- Reading goes on after the point and the digits after it, if they are there. -/
theorem read_fraction (hm : m.Valid) {β : Type} (k : List Char → Reader β) :
    (do if ← Reader.startsWith ['.'] then
          Reader.char '.'
          k (← Reader.takeWhile Char.isDigit)
        else
          k (← pure []) : Reader β) (m.fractionChars ++ m.exponentChars) =
      k m.fraction m.exponentChars := by
  rw [Numeral.fractionChars]
  cases hfraction : m.fraction with
  | nil =>
    have hnone : Reader.startsWith ['.'] m.exponentChars = some (false, m.exponentChars) := by
      have hhead := exponentChars_head m
      generalize m.exponentChars = cs at hhead
      cases cs with
      | nil => rfl
      | cons c cs =>
        rw [hhead c rfl]
        rfl
    rw [List.isEmpty_nil, if_pos rfl, List.nil_append, bind_of_eq_some hnone,
      if_neg Bool.false_ne_true, bind_of_eq_some (pure_apply _ _)]
  | cons c cs =>
    have hdigits : ∀ x ∈ c :: cs, x.isDigit = true := by
      rw [← hfraction]
      exact hm.fraction
    have hpoint : Reader.startsWith ['.'] ('.' :: (c :: cs ++ m.exponentChars)) =
        some (true, '.' :: (c :: cs ++ m.exponentChars)) := rfl
    rw [List.isEmpty_cons, if_neg Bool.false_ne_true, List.cons_append, bind_of_eq_some hpoint,
      if_pos rfl, bind_of_eq_some (Reader.char_cons _ _),
      bind_of_eq_some (takeWhile_digits hdigits (exponentChars_head_not_digit m))]

theorem decimal_chars (hm : m.Valid) : decimal m.chars = some (m.decimal, []) := by
  have hrest : ∀ c ∈ (m.fractionChars ++ m.exponentChars).head?, c.isDigit = false := by
    intro c hc
    rw [Numeral.fractionChars] at hc
    split at hc
    · exact exponentChars_head_not_digit m c hc
    · cases hc
      rfl
  have hwhole := takeWhile_digits hm.whole.isDigit hrest
  rw [Numeral.chars, List.append_assoc, decimal, bind_of_eq_some hwhole]
  refine (read_fraction hm _).trans ?_
  obtain ⟨c, cs, hcons⟩ := List.exists_cons_of_ne_nil hm.whole.nonempty
  rw [Numeral.decimal, hcons, Numeral.exponentChars]
  cases hexponent : m.exponent with
  | none => rfl
  | some exponent =>
    have hdigits := digitRun_toDigits exponent.natAbs
    have hsize : digits? 10 (Nat.toDigits 10 exponent.natAbs) = some exponent.natAbs := by
      rw [hdigits.digits?_eq, ofDigits_toDigits]
    have hrun := takeWhile_digits hdigits.isDigit fun c (h : c ∈ ([] : List Char).head?) =>
      absurd h (Option.not_mem_none c)
    rw [List.append_nil] at hrun
    rw [Option.elim_some, toList_toString_int, FloatText.sign, Option.getD_some]
    by_cases hneg : exponent < 0
    · have hexponent : -(exponent.natAbs : Int) = exponent := by omega
      rw [decide_eq_true hneg, if_pos rfl, List.singleton_append]
      simp only [List.isEmpty_cons, Bool.false_and, Bool.false_eq_true, if_false, if_true,
        bind_apply,
        Reader.peek_apply, Option.bind_some, List.head?_cons, Reader.next_cons, Reader.char_cons,
        pure_apply, hrun, liftM_apply, hsize, Option.map_some, hexponent]
    · have hexponent : (exponent.natAbs : Int) = exponent := by omega
      rw [decide_eq_false hneg, if_neg Bool.false_ne_true, List.nil_append]
      simp only [List.isEmpty_cons, Bool.false_and, Bool.false_eq_true, if_false, bind_apply,
        Reader.peek_apply, Option.bind_some, List.head?_cons, Reader.next_cons]
      generalize hfirst : (Nat.toDigits 10 exponent.natAbs).head? = first
      split
      case h_1 => cases hdigits.isDigit _ (List.mem_of_mem_head? hfirst)
      case h_2 => cases hdigits.isDigit _ (List.mem_of_mem_head? hfirst)
      case h_3 =>
        simp only [bind_apply, pure_apply, hrun, Option.bind_some, liftM_apply, hsize,
          Option.map_some, Bool.false_eq_true, if_false, hexponent]

theorem exists_mark (hm : m.Valid) : ∃ c ∈ m.chars, c = '.' ∨ c = 'e' := by
  rcases hm.marked with hfraction | hexponent
  · refine ⟨'.', ?_, .inl rfl⟩
    rw [Numeral.chars, Numeral.fractionChars, if_neg (by rwa [List.isEmpty_iff])]
    simp
  · obtain ⟨exponent, hexponent⟩ := Option.ne_none_iff_exists'.mp hexponent
    refine ⟨'e', ?_, .inr rfl⟩
    rw [Numeral.chars, Numeral.exponentChars, hexponent]
    simp

/-- The characters after the first one are no letters that name a base. -/
theorem chars_cases (hm : m.Valid) :
    ∀ c ∈ m.chars, c.isDigit = true ∨ c = '.' ∨ c = 'e' ∨ c = '-' := by
  intro c hc
  rw [Numeral.chars, List.append_assoc] at hc
  rcases List.mem_append.mp hc with hwhole | hrest
  · exact .inl (hm.whole.isDigit c hwhole)
  rcases List.mem_append.mp hrest with hfraction | hexponent
  · rw [Numeral.fractionChars] at hfraction
    split at hfraction
    · cases hfraction
    · rcases List.mem_cons.mp hfraction with rfl | hdigit
      · exact .inr (.inl rfl)
      · exact .inl (hm.fraction c hdigit)
  · rw [Numeral.exponentChars] at hexponent
    cases h : m.exponent with
    | none =>
      rw [h] at hexponent
      cases hexponent
    | some exponent =>
      rw [h, Option.elim_some, toList_toString_int, FloatText.sign] at hexponent
      rcases List.mem_cons.mp hexponent with rfl | hexponent
      · exact .inr (.inr (.inl rfl))
      rcases List.mem_append.mp hexponent with hsign | hdigit
      · split at hsign
        · exact .inr (.inr (.inr (List.mem_singleton.mp hsign)))
        · cases hsign
      · exact .inl ((digitRun_toDigits _).isDigit c hdigit)

theorem chars_cons (hm : m.Valid) : ∃ c cs, m.chars = c :: cs ∧ c.isDigit = true := by
  obtain ⟨c, cs, hcons⟩ := List.exists_cons_of_ne_nil hm.whole.nonempty
  refine ⟨c, cs ++ m.fractionChars ++ m.exponentChars, by rw [Numeral.chars, hcons]; rfl, ?_⟩
  apply hm.whole.isDigit
  rw [hcons]
  exact List.mem_cons_self

theorem size?_chars (hm : m.Valid) : size? m.chars = none := by
  have hletter (x : Char) (hx : ¬ (x.isDigit = true ∨ x = '.' ∨ x = 'e' ∨ x = '-'))
      (tail : List Char) :
      m.chars ≠ '0' :: x :: tail := by
    intro heq
    refine hx (chars_cases hm x ?_)
    rw [heq]
    simp
  obtain ⟨c, hc, hmark⟩ := exists_mark hm
  generalize m.chars = text at hletter hc
  unfold size?
  split
  case h_1 => exact absurd rfl (hletter 'x' (by decide) _)
  case h_2 => exact absurd rfl (hletter 'o' (by decide) _)
  case h_3 => exact absurd rfl (hletter 'b' (by decide) _)
  case h_4 =>
    have hdigit : isDigitOf 10 c = false := by
      rw [isDigitOf_ten]
      rcases hmark with rfl | rfl <;> rfl
    have hall : text.all (isDigitOf 10) = false := by
      rw [List.all_eq_false]
      exact ⟨c, hc, by rw [hdigit]; exact Bool.false_ne_true⟩
    rw [digits?, hall, Bool.and_false, if_neg Bool.false_ne_true]

theorem signed_chars_cases (hm : m.Valid) (negative : Bool) :
    ∃ c cs, m.chars = c :: cs ∧ c.isDigit = true ∧
      FloatText.sign negative ++ m.chars = if negative then '-' :: c :: cs else c :: cs := by
  obtain ⟨c, cs, hcons, hc⟩ := chars_cons hm
  refine ⟨c, cs, hcons, hc, ?_⟩
  rw [hcons]
  cases negative <;> rfl

theorem startsNumber_chars (hm : m.Valid) (negative : Bool) :
    StartsNumber (FloatText.sign negative ++ m.chars) := by
  obtain ⟨c, cs, _, hc, htext⟩ := signed_chars_cases hm negative
  refine ⟨c, cs, hc, ?_⟩
  rw [htext]
  cases negative
  · exact .inl rfl
  · exact .inr rfl

theorem not_hasLeadingZero_chars (hm : m.Valid) (negative : Bool) :
    hasLeadingZero (FloatText.sign negative ++ m.chars) = false := by
  have htail : (if startsWithSign (FloatText.sign negative ++ m.chars) then
      (FloatText.sign negative ++ m.chars).tail else FloatText.sign negative ++ m.chars) =
        m.chars := by
    obtain ⟨c, cs, hcons, hc, htext⟩ := signed_chars_cases hm negative
    rw [htext, hcons]
    cases negative with
    | false => rw [if_neg Bool.false_ne_true, startsWithSign_digit hc, if_neg Bool.false_ne_true]
    | true => rfl
  obtain ⟨c, hc, hmark⟩ := exists_mark hm
  rw [hasLeadingZero, htail]
  split
  case h_1 d rest heq =>
    rw [heq, List.mem_cons] at hc
    have hrest : c ∈ d :: rest := hc.resolve_left (by rcases hmark with rfl | rfl <;> decide)
    rw [List.all_eq_false]
    exact ⟨c, hrest, by rcases hmark with rfl | rfl <;> decide⟩
  case h_2 => rfl

theorem integer?_chars (hm : m.Valid) (negative : Bool) :
    integer? (FloatText.sign negative ++ m.chars) = none := by
  have hsize := size?_chars hm
  have hzero := not_hasLeadingZero_chars hm negative
  obtain ⟨c, cs, hcons, hc, htext⟩ := signed_chars_cases hm negative
  rw [htext] at hzero ⊢
  rw [hcons] at hsize
  have hunsigned : unsigned? (if negative then '-' :: c :: cs else c :: cs) = none := by
    unfold unsigned?
    rw [hzero, if_neg Bool.false_ne_true]
    cases negative with
    | true => rfl
    | false =>
      rw [if_neg Bool.false_ne_true]
      split
      case h_1 heq =>
        cases heq
        cases hc
      case h_2 => exact hsize
  have hnegative : negative? (if negative then '-' :: c :: cs else c :: cs) = none := by
    unfold negative?
    rw [hzero, if_neg Bool.false_ne_true]
    cases negative with
    | true => exact hsize
    | false =>
      rw [if_neg Bool.false_ne_true]
      split
      case h_1 heq =>
        cases heq
        cases hc
      case h_2 => rfl
  rw [integer?, hunsigned, hnegative]

theorem float?_chars (hm : m.Valid) (negative : Bool) {units : Nat}
    {representable : Binary64.Representable units}
    (hread : Binary64.ofDecimal negative m.decimal = .finite negative units representable) :
    float? (FloatText.sign negative ++ m.chars) = some (.finite negative units representable) := by
  have hwords (words : List String)
      (h : words.all fun word => (word.toList.take 2).all fun c => !c.isDigit) :
      (words.any fun word => (FloatText.sign negative ++ m.chars) == word.toList) = false :=
    any_words_eq_false (startsNumber_chars hm negative) h
  have hdecimal : Reader.readAll decimal m.chars = some m.decimal := by
    rw [Reader.readAll, decimal_chars hm]
  have hplus : (FloatText.sign negative ++ m.chars).head? ≠ some '+' := by
    obtain ⟨c, cs, _, hc, htext⟩ := signed_chars_cases hm negative
    rw [htext]
    cases negative with
    | true => exact fun h => absurd (Option.some.inj h) (by decide)
    | false =>
      intro h
      rw [Option.some.inj h] at hc
      cases hc
  have hsigned : (FloatText.sign negative ++ m.chars).head? = some '-' ↔ negative = true := by
    obtain ⟨c, cs, _, hc, htext⟩ := signed_chars_cases hm negative
    rw [htext]
    cases negative with
    | true => exact iff_of_true rfl rfl
    | false =>
      refine iff_of_false (fun h => ?_) Bool.false_ne_true
      rw [Option.some.inj h] at hc
      cases hc
  have hbare : (if negative = true then (FloatText.sign negative ++ m.chars).tail
      else FloatText.sign negative ++ m.chars) = m.chars := by
    cases negative <;> rfl
  simp only [float?, hplus, if_false, false_and,
    hwords [".inf", ".Inf", ".INF"] (by decide +kernel),
    hwords ["-.inf", "-.Inf", "-.INF"] (by decide +kernel),
    hwords [".nan", ".NaN", ".NAN"] (by decide +kernel), Bool.false_eq_true, hsigned, hbare,
    hdecimal, Bool.decide_eq_true, hread]

/-- The text of a double is a plain scalar with its value. -/
theorem plainContent_chars (x : Binary64) :
    plainContent (Config.yamlFloat.chars x) = some (.float x) := by
  cases x with
  | nan => rfl
  | infinite negative => cases negative <;> rfl
  | finite negative units representable =>
    obtain ⟨m, hm, _, hchars, hread⟩ :=
      FloatText.exists_numeral Config.yamlFloat rfl negative representable
    have hstart := startsNumber_chars hm negative
    have hnotEmpty : (FloatText.sign negative ++ m.chars).isEmpty = false := by
      obtain ⟨c, rest, _, htext | htext⟩ := hstart <;> rw [htext] <;> rfl
    rw [hchars, plainContent, hnotEmpty, not_isNull hstart, Bool.or_false,
      if_neg Bool.false_ne_true, not_boolean hstart, integer?_chars hm, not_hasLeadingZero_chars hm]
    simp only [Bool.false_eq_true, if_false, float?_chars hm negative hread]

end LargeNeighborhood.Yaml
