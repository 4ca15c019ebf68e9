import LargeNeighborhood.Config.Toml
import LargeNeighborhood.Proofs.Numeric.FloatText
import LargeNeighborhood.Proofs.Text.Reader

/-!
# TOML numbers as they are written

The digits of an integer and the text of a double are read as that integer and that double, up to
the end of their line.
-/

namespace LargeNeighborhood.Toml

variable {ds rest : List Char} {n depth : Nat}

/-! ## Digits -/

def EndsDigits (cs : List Char) : Prop :=
  ∀ c ∈ cs.head?, c.isDigit = false ∧ c ≠ '_'

theorem moreDigits_append (hds : ∀ c ∈ ds, c.isDigit = true) (hrest : EndsDigits rest) :
    moreDigits 10 (ds ++ rest) = some (ds, rest) := by
  induction ds with
  | nil =>
    cases rest with
    | nil => rfl
    | cons c rest =>
      obtain ⟨hdigit, hscore⟩ := hrest c rfl
      rw [List.nil_append, moreDigits.eq_3 _ _ _ (by simp [hscore]) (by simp [hscore]),
        isDigitOf_ten, hdigit]
      rfl
  | cons c ds ih =>
    have hdigit := hds c List.mem_cons_self
    have hscore : c ≠ '_' := by
      rintro rfl
      cases hdigit
    rw [List.cons_append, moreDigits.eq_3 _ _ _ (by simp [hscore]) (by simp [hscore]),
      isDigitOf_ten, hdigit, if_pos rfl, ih fun x hx => hds x (List.mem_cons_of_mem c hx)]
    rfl

theorem digitRun_append (hds : DigitRun ds) (hrest : EndsDigits rest) :
    digitRun 10 (ds ++ rest) = some (ds, rest) := by
  obtain ⟨c, cs, rfl⟩ := List.exists_cons_of_ne_nil hds.nonempty
  have hfirst : isDigitOf 10 c = true := by rw [isDigitOf_ten, hds.isDigit c List.mem_cons_self]
  have hmore := moreDigits_append (fun x hx => hds.isDigit x (List.mem_cons_of_mem c hx)) hrest
  rw [digitRun, List.cons_append, bind_of_eq_some (Reader.satisfy_cons hfirst _),
    bind_of_eq_some hmore, pure_apply]

theorem wholeDigits_append (hds : WholeRun ds) (hrest : EndsDigits rest) :
    wholeDigits (ds ++ rest) = some (ds, rest) := by
  rw [wholeDigits, bind_of_eq_some (Reader.peek_apply _), List.head?_append,
    Option.or_of_isSome (List.isSome_head?.mpr hds.nonempty)]
  generalize hfirst : ds.head? = first
  split
  case h_1 =>
    rw [hds.leading hfirst]
    rfl
  case h_2 => exact digitRun_append hds.toDigitRun hrest

theorem endsDigits_cons {c : Char} (h : c.isDigit = false ∧ c ≠ '_') : EndsDigits (c :: rest) := by
  rintro x hx
  rwa [← Option.some.inj hx]

/-! ## Numbers without a sign -/

theorem exponent_newline (rest : List Char) : exponent ('\n' :: rest) = some (none, '\n' :: rest) :=
  rfl

theorem integer_of_le (hn : n ≤ Int64.maxValue.toInt) (cs : List Char) :
    integer n cs = some (.integer n, cs) := by
  have hrange : Int64.minValue.toInt ≤ (n : Int) ∧ (n : Int) ≤ Int64.maxValue.toInt := by
    refine ⟨?_, hn⟩
    have hmin : Int64.minValue.toInt ≤ 0 := by decide
    omega
  rw [integer, if_pos hrange, pure_apply]

theorem unsigned_digits (hds : WholeRun ds) (hn : ofDigits 10 ds ≤ Int64.maxValue.toInt) :
    unsigned false (ds ++ '\n' :: rest) = some (.integer (ofDigits 10 ds), '\n' :: rest) := by
  have hwhole : wholeDigits (ds ++ '\n' :: rest) = some (ds, '\n' :: rest) :=
    wholeDigits_append hds (endsDigits_cons (by decide))
  have hpoint : Reader.startsWith ['.'] ('\n' :: rest) = some (false, '\n' :: rest) := rfl
  rw [unsigned, bind_of_eq_some hwhole, bind_of_eq_some hpoint, if_neg Bool.false_ne_true,
    bind_of_eq_some (exponent_newline rest)]
  exact integer_of_le hn _

theorem unsigned_pointed {m : Numeral} (hm : m.Valid) (hexponent : m.exponent = none)
    (negative : Bool) : unsigned negative (m.chars ++ '\n' :: rest) =
      float negative (m.whole ++ m.fraction) (0 - m.fraction.length) ('\n' :: rest) := by
  have hne : m.fraction ≠ [] := hm.marked.resolve_right (absurd hexponent)
  have hchars : m.chars ++ '\n' :: rest = m.whole ++ '.' :: (m.fraction ++ '\n' :: rest) := by
    rw [Numeral.chars, Numeral.fractionChars, Numeral.exponentChars, hexponent, Option.elim_none,
      if_neg (by rwa [List.isEmpty_iff]), List.append_nil, List.append_assoc, List.cons_append]
  have hwhole : wholeDigits (m.whole ++ '.' :: (m.fraction ++ '\n' :: rest)) =
      some (m.whole, '.' :: (m.fraction ++ '\n' :: rest)) :=
    wholeDigits_append hm.whole (endsDigits_cons (by decide))
  have hfraction : digitRun 10 (m.fraction ++ '\n' :: rest) = some (m.fraction, '\n' :: rest) :=
    digitRun_append ⟨hne, hm.fraction⟩ (endsDigits_cons (by decide))
  have hpoint (cs : List Char) : Reader.startsWith ['.'] ('.' :: cs) = some (true, '.' :: cs) := rfl
  rw [hchars, unsigned, bind_of_eq_some hwhole, bind_of_eq_some (hpoint _), if_pos rfl,
    bind_of_eq_some (Reader.char_cons _ _), bind_of_eq_some hfraction,
    bind_of_eq_some (exponent_newline rest), Option.getD_none]

/-! ## Telling numbers from dates, times and other bases -/

/-- A number without a sign that is no word: digits and points, a digit first. -/
structure NumberText (cs : List Char) : Prop where
  first : ∀ c ∈ cs.head?, c.isDigit = true
  nonempty : cs ≠ []
  chars : ∀ c ∈ cs, c.isDigit = true ∨ c = '.'

theorem numberText_of_wholeRun (hds : WholeRun ds) : NumberText ds where
  first c hc := hds.isDigit c (List.mem_of_mem_head? hc)
  nonempty := hds.nonempty
  chars c hc := .inl (hds.isDigit c hc)

theorem numberText_of_valid {m : Numeral} (hm : m.Valid) (hexponent : m.exponent = none) :
    NumberText m.chars := by
  have hchars : m.chars = m.whole ++ m.fractionChars := by
    rw [Numeral.chars, Numeral.exponentChars, hexponent, Option.elim_none, List.append_nil]
  rw [hchars]
  refine ⟨fun c hc => ?_, List.append_ne_nil_of_left_ne_nil hm.whole.nonempty _, fun c hc => ?_⟩
  · rw [List.head?_append, Option.or_of_isSome (List.isSome_head?.mpr hm.whole.nonempty)] at hc
    exact hm.whole.isDigit c (List.mem_of_mem_head? hc)
  · rcases List.mem_append.mp hc with hwhole | hfraction
    · exact .inl (hm.whole.isDigit c hwhole)
    · rw [Numeral.fractionChars] at hfraction
      split at hfraction
      · cases hfraction
      · exact (List.mem_cons.mp hfraction).elim .inr fun hc => .inl (hm.fraction c hc)

namespace NumberText

variable {cs : List Char} {x : Char} {i : Nat}

/-- What comes before the end of the line belongs to the number. -/
theorem getElem?_cases (h : NumberText cs)
    (hline : ∀ j < i, (cs ++ '\n' :: rest)[j]? ≠ some '\n')
    (hx : (cs ++ '\n' :: rest)[i]? = some x) : x.isDigit = true ∨ x = '.' ∨ x = '\n' := by
  rcases Nat.lt_trichotomy i cs.length with hlt | rfl | hgt
  · rw [List.getElem?_append_left hlt] at hx
    exact (h.chars x (List.mem_of_getElem? hx)).imp_right .inl
  · rw [List.getElem?_append_right (Nat.le_refl _), Nat.sub_self] at hx
    exact .inr (.inr (Option.some.inj hx).symm)
  · refine absurd ?_ (hline cs.length hgt)
    rw [List.getElem?_append_right (Nat.le_refl _), Nat.sub_self]
    rfl

theorem not_dateFollows (h : NumberText cs) (rest : List Char) :
    dateFollows (cs ++ '\n' :: rest) = false := by
  rw [Bool.eq_false_iff]
  intro hdate
  have hplaces : (∀ j < 4, (cs ++ '\n' :: rest)[j]? ≠ some '\n') ∧
      (cs ++ '\n' :: rest)[4]? = some '-' := by
    generalize cs ++ '\n' :: rest = text at hdate
    unfold dateFollows at hdate
    split at hdate
    case h_1 a b c d tail =>
      refine ⟨fun j hj hbreak => ?_, rfl⟩
      have hbreakDigit : '\n' ∈ [a, b, c, d] := by
        apply List.mem_of_getElem? (i := j)
        rwa [show (a :: b :: c :: d :: '-' :: tail) = [a, b, c, d] ++ '-' :: tail from rfl,
          List.getElem?_append_left hj] at hbreak
      exact absurd (List.all_eq_true.mp hdate _ hbreakDigit) (by decide)
    case h_2 => cases hdate
  exact absurd (h.getElem?_cases hplaces.1 hplaces.2) (by decide)

theorem not_timeFollows (h : NumberText cs) (rest : List Char) :
    timeFollows (cs ++ '\n' :: rest) = false := by
  rw [Bool.eq_false_iff]
  intro htime
  have hplaces : (∀ j < 2, (cs ++ '\n' :: rest)[j]? ≠ some '\n') ∧
      (cs ++ '\n' :: rest)[2]? = some ':' := by
    generalize cs ++ '\n' :: rest = text at htime
    unfold timeFollows at htime
    split at htime
    case h_1 a b tail =>
      refine ⟨fun j hj hbreak => ?_, rfl⟩
      have hdigits : a.isDigit = true ∧ b.isDigit = true := Bool.and_eq_true_iff.mp htime
      have hcases : j = 0 ∨ j = 1 := by omega
      rcases hcases with rfl | rfl
      · obtain rfl : a = '\n' := Option.some.inj hbreak
        exact absurd hdigits.1 (by decide)
      · obtain rfl : b = '\n' := Option.some.inj hbreak
        exact absurd hdigits.2 (by decide)
    case h_2 => cases htime
  exact absurd (h.getElem?_cases hplaces.1 hplaces.2) (by decide)

theorem not_prefix (h : NumberText cs) (hx : ¬ (x.isDigit = true ∨ x = '.' ∨ x = '\n')) :
    ['0', x].isPrefixOf (cs ++ '\n' :: rest) = false := by
  rw [Bool.eq_false_iff]
  intro hprefix
  obtain ⟨tail, htail⟩ := List.isPrefixOf_iff_prefix.mp hprefix
  have hfirst : ∀ j < 1, (cs ++ '\n' :: rest)[j]? ≠ some '\n' := by
    intro j hj
    obtain rfl : j = 0 := by omega
    rw [← htail]
    intro hbreak
    exact absurd (Option.some.inj hbreak) (by decide)
  have hsecond : (cs ++ '\n' :: rest)[1]? = some x := by
    rw [← htail]
    rfl
  exact hx (h.getElem?_cases hfirst hsecond)

/-! ## The number of a text -/

theorem exists_head (h : NumberText cs) : ∃ c tail, cs = c :: tail ∧ c.isDigit = true := by
  obtain ⟨c, tail, rfl⟩ := List.exists_cons_of_ne_nil h.nonempty
  exact ⟨c, tail, rfl, h.first c rfl⟩

end NumberText

theorem sign_digit {c : Char} {cs : List Char} (hc : c.isDigit = true) :
    sign (c :: cs) = some (none, c :: cs) := by
  rw [sign, bind_of_eq_some (Reader.peek_apply _)]
  generalize hfirst : (c :: cs).head? = first
  split
  case h_1 => cases hfirst; cases hc
  case h_2 => cases hfirst; cases hc
  case h_3 => rfl

theorem number_text {cs : List Char} (h : NumberText cs) (rest : List Char) :
    number (cs ++ '\n' :: rest) = unsigned false (cs ++ '\n' :: rest) := by
  have hbase (x : Char) (hx : ¬ (x.isDigit = true ∨ x = '.' ∨ x = '\n')) :
      Reader.startsWith ['0', x] (cs ++ '\n' :: rest) = some (false, cs ++ '\n' :: rest) := by
    rw [Reader.startsWith_apply, h.not_prefix hx]
  rw [number, bind_of_eq_some (hbase 'x' (by decide)), if_neg Bool.false_ne_true,
    bind_of_eq_some (hbase 'o' (by decide)), if_neg Bool.false_ne_true,
    bind_of_eq_some (hbase 'b' (by decide)), if_neg Bool.false_ne_true]
  obtain ⟨c, tail, rfl, hc⟩ := h.exists_head
  rw [List.cons_append, bind_of_eq_some (sign_digit hc), bind_of_eq_some (Reader.peek_apply _)]
  generalize hfirst : (c :: (tail ++ '\n' :: rest)).head? = first
  split
  case h_1 => cases hfirst; cases hc
  case h_2 => cases hfirst; cases hc
  case h_3 => rfl

theorem number_minus {cs : List Char} (h : NumberText cs) (rest : List Char) :
    number ('-' :: (cs ++ '\n' :: rest)) = unsigned true (cs ++ '\n' :: rest) := by
  obtain ⟨c, tail, rfl, hc⟩ := h.exists_head
  have hsign : sign ('-' :: (c :: tail ++ '\n' :: rest)) =
      some (some true, c :: tail ++ '\n' :: rest) :=
    rfl
  have hbase (x : Char) : Reader.startsWith ['0', x] ('-' :: (c :: tail ++ '\n' :: rest)) =
      some (false, '-' :: (c :: tail ++ '\n' :: rest)) := rfl
  rw [number, bind_of_eq_some (hbase 'x'), if_neg Bool.false_ne_true, bind_of_eq_some (hbase 'o'),
    if_neg Bool.false_ne_true, bind_of_eq_some (hbase 'b'), if_neg Bool.false_ne_true,
    bind_of_eq_some hsign, bind_of_eq_some (Reader.peek_apply _)]
  generalize hfirst : (c :: tail ++ '\n' :: rest).head? = first
  split
  case h_1 => cases hfirst; cases hc
  case h_2 => cases hfirst; cases hc
  case h_3 => rfl

/-! ## Values -/

theorem value_of_not_bracket {cs : List Char} (h : cs.head? ≠ some '[' ∧ cs.head? ≠ some '{') :
    value depth cs = scalar cs := by
  cases depth with
  | zero => rfl
  | succ depth =>
    rw [value, bind_of_eq_some (Reader.peek_apply _)]
    generalize cs.head? = first at h
    split
    case h_1 => exact absurd rfl h.1
    case h_2 => exact absurd rfl h.2
    case h_3 => rfl

theorem scalar_number {c : Char} {cs : List Char} (hc : c.isDigit = true ∨ c = '-')
    (hdate : dateFollows (c :: cs) = false) (htime : timeFollows (c :: cs) = false) :
    scalar (c :: cs) = number (c :: cs) := by
  have hstart : (c == '+' || c == '-' || c.isDigit) = true := by
    rcases hc with hdigit | rfl
    · rw [hdigit, Bool.or_true]
    · rfl
  have hother (x : Char) (hx : x.isDigit = false ∧ x ≠ '-') : c ≠ x := by
    rintro rfl
    rcases hc with hdigit | rfl
    · rw [hx.1] at hdigit
      cases hdigit
    · exact hx.2 rfl
  rw [scalar, bind_of_eq_some (Reader.peek_apply _)]
  generalize hfirst : (c :: cs).head? = first
  split
  case h_7 c' _ _ _ _ _ _ =>
    obtain rfl : c = c' := Option.some.inj hfirst
    rw [if_pos hstart, bind_of_eq_some (Reader.remaining_apply _), hdate, htime]
    rfl
  case h_8 => cases hfirst
  all_goals exact absurd (Option.some.inj hfirst) (hother _ (by decide))

theorem value_text {cs : List Char} (h : NumberText cs) (rest : List Char) :
    value depth (cs ++ '\n' :: rest) = unsigned false (cs ++ '\n' :: rest) := by
  have hnumber := number_text h rest
  have hdate := h.not_dateFollows rest
  have htime := h.not_timeFollows rest
  obtain ⟨c, tail, rfl, hc⟩ := h.exists_head
  rw [List.cons_append] at hnumber hdate htime ⊢
  rw [← hnumber, value_of_not_bracket, scalar_number (.inl hc) hdate htime]
  constructor <;>
  · intro hbracket
    rw [Option.some.inj hbracket] at hc
    cases hc

theorem value_minus {cs : List Char} (h : NumberText cs) (rest : List Char) :
    value depth ('-' :: (cs ++ '\n' :: rest)) = unsigned true (cs ++ '\n' :: rest) := by
  rw [← number_minus h, value_of_not_bracket ⟨by simp, by simp⟩, scalar_number (.inr rfl)]
  · generalize cs ++ '\n' :: rest = text
    unfold dateFollows
    split
    case h_1 hcons =>
      cases hcons
      rfl
    case h_2 => rfl
  · generalize cs ++ '\n' :: rest = text
    unfold timeFollows
    split
    case h_1 hcons =>
      cases hcons
      rfl
    case h_2 => rfl

theorem value_toDigits (hn : n ≤ Int64.maxValue.toInt) (rest : List Char) :
    value depth (Nat.toDigits 10 n ++ '\n' :: rest) = some (.integer n, '\n' :: rest) := by
  have hwhole := wholeRun_toDigits n
  have hvalue := ofDigits_toDigits n
  rw [value_text (numberText_of_wholeRun hwhole), unsigned_digits hwhole (by rwa [hvalue]), hvalue]

/-- The text of a double is read as that double. -/
theorem value_chars (x : Binary64) (rest : List Char) :
    value depth (Config.tomlFloat.chars x ++ '\n' :: rest) = some (.float x, '\n' :: rest) := by
  have hword (word : List Char) (item : Item) (h : word.head? ≠ some '[' ∧ word.head? ≠ some '{')
      (hne : word ≠ []) (hscalar : scalar (word ++ '\n' :: rest) = some (item, '\n' :: rest)) :
      value depth (word ++ '\n' :: rest) = some (item, '\n' :: rest) := by
    rw [value_of_not_bracket, hscalar]
    rwa [List.head?_append, Option.or_of_isSome (List.isSome_head?.mpr hne)]
  cases x with
  | nan => exact hword "nan".toList _ ⟨by decide, by decide⟩ (by decide) rfl
  | infinite negative =>
    cases negative with
    | false => exact hword "inf".toList _ ⟨by decide, by decide⟩ (by decide) rfl
    | true => exact hword "-inf".toList _ ⟨by decide, by decide⟩ (by decide) rfl
  | finite negative units representable =>
    obtain ⟨m, hm, hpositional, hchars, hread⟩ :=
      FloatText.exists_numeral Config.tomlFloat rfl negative representable
    have hexponent := hpositional rfl
    have htext := numberText_of_valid hm hexponent
    have hfloat : float negative (m.whole ++ m.fraction) (0 - m.fraction.length) ('\n' :: rest) =
        some (.float (.finite negative units representable), '\n' :: rest) := by
      rw [Numeral.decimal, hexponent, Option.getD_none] at hread
      rw [float, hread]
      rfl
    rw [hchars, FloatText.sign]
    cases negative with
    | false =>
      rw [if_neg Bool.false_ne_true, List.nil_append, value_text htext,
        unsigned_pointed hm hexponent, hfloat]
    | true =>
      rw [if_pos rfl, List.singleton_append, List.cons_append, value_minus htext,
        unsigned_pointed hm hexponent, hfloat]

end LargeNeighborhood.Toml
