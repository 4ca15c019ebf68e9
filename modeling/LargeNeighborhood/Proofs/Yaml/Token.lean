import LargeNeighborhood.Yaml.Token
import LargeNeighborhood.Proofs.Yaml.Scalar

/-!
# The tokens of YAML lines

In a block, a line with a word, a colon and another word gives a key and a value; the first line of
a block opens its mapping. A word and a colon alone give a key whose value is on the lines below.
-/

namespace LargeNeighborhood.Yaml

variable {t t' : Tokens} {c c' : Cursor} {w k v rest : List Char} {x : Char} {taken : Array Token}
  {indents : List Nat} {allowed : Bool} {tokens : List Token}

/-! ## Words that start plain scalars -/

/-- A word that can be a plain scalar. -/
structure PlainWord (w : List Char) : Prop where
  nonempty : w ≠ []
  isWordChar : ∀ x ∈ w, isWordChar x = true
  start : ∀ x ∈ w.head?, Tokens.isIndicator x = false ∨ (x = '-' ∧ 2 ≤ w.length)

/-- A plain word that starts with a letter, say, and is not too long for a key. -/
structure KeyWord (w : List Char) : Prop where
  nonempty : w ≠ []
  isWordChar : ∀ x ∈ w, isWordChar x = true
  start : ∀ x ∈ w.head?, Tokens.isIndicator x = false ∧ x ≠ '.'
  short : w.length ≤ 256

theorem KeyWord.plainWord (hk : KeyWord k) : PlainWord k where
  nonempty := hk.nonempty
  isWordChar := hk.isWordChar
  start x hx := .inl (hk.start x hx).1

theorem PlainWord.head?_ne (hw : PlainWord w) : w.head? ≠ some '#' := by
  intro hcomment
  rcases hw.start '#' hcomment with hindicator | ⟨hminus, _⟩
  · exact absurd hindicator (by decide)
  · exact absurd hminus (by decide)

def StartsToken (rest : List Char) : Prop :=
  ∀ x ∈ rest.head?, isBlankOrBreak x = false ∧ x ≠ '#' ∧ x ≠ '\ufeff'

theorem StartsToken.startsLine (h : StartsToken rest) : StartsLine rest :=
  fun x hx => (h x hx).1

theorem PlainWord.startsToken (hw : PlainWord w) (rest : List Char) : StartsToken (w ++ rest) := by
  intro x hx
  rw [List.head?_append, Option.or_of_isSome (List.isSome_head?.mpr hw.nonempty)] at hx
  have hword := hw.isWordChar x (List.mem_of_mem_head? hx)
  refine ⟨not_blankOrBreak_of_word hword, ?_, ?_⟩
  · rintro rfl
    exact hw.head?_ne hx
  · rintro rfl
    exact absurd hword (by decide)

/-! ## Before a token -/

theorem Cursor.atDocumentMark_cons {x : Char} (hc : c.rest = x :: rest) (hminus : x ≠ '-')
    (hpoint : x ≠ '.') : c.atDocumentMark = false := by
  rw [Cursor.atDocumentMark, hc]
  simp only [List.isPrefixOf_cons_cons, beq_eq_false_iff_ne.mpr hminus.symm,
    beq_eq_false_iff_ne.mpr hpoint.symm, Bool.false_and, Bool.or_false, Bool.and_false]

theorem KeyWord.atDocumentMark_eq_false (hk : KeyWord k) (hc : c.rest = k ++ rest) :
    c.atDocumentMark = false := by
  obtain ⟨x, k, rfl⟩ := List.exists_cons_of_ne_nil hk.nonempty
  obtain ⟨hindicator, hpoint⟩ := hk.start x rfl
  refine Cursor.atDocumentMark_cons hc ?_ hpoint
  rintro rfl
  exact absurd hindicator (by decide)

theorem Cursor.takeWhile_append {p : Char → Bool} (hc : c.rest = w ++ rest)
    (hw : ∀ x ∈ w, p x = true)
    (hrest : ∀ x ∈ rest.head?, p x = false) : c.takeWhile p = (w, c.past w rest) := by
  obtain ⟨htake, hdrop⟩ := span_append hw hrest
  rw [Cursor.takeWhile, hc, htake, hdrop]
  rfl

namespace Tokens

theorem skipToToken_blanks {j : Nat} (hrest : StartsToken rest)
    (hc : c.rest = List.replicate j ' ' ++ rest) :
    t.skipToToken c = some (t, c.past (List.replicate j ' ') rest) := by
  have hmark : c.head? ≠ some '\ufeff' := by
    rw [Cursor.head?, hc]
    cases j with
    | zero => exact fun h => (hrest _ h).2.2 rfl
    | succ j => exact fun h => absurd (Option.some.inj h) (by decide)
  have hrun := Cursor.takeWhile_append
    (p := fun x => x == ' ' || (x == '\t' && (t.inFlow || !t.keyAllowed))) hc
    (fun x hx => by rw [List.eq_of_mem_replicate hx]; rfl) fun x hx => by
      have hblank := (Bool.or_eq_false_iff.mp (Bool.or_eq_false_iff.mp (hrest x hx).1).1)
      rw [hblank.1, hblank.2, Bool.false_and, Bool.or_false]
  have hcomment : (c.past (List.replicate j ' ') rest).head? ≠ some '#' :=
    fun h => (hrest _ h).2.1 rfl
  have hbreak : (c.past (List.replicate j ' ') rest).holds 0 isBreak = false := by
    rw [Cursor.holds, Cursor.at?, Cursor.past, ← List.head?_eq_getElem?, Option.any_eq_false]
    exact fun x hx => (Bool.or_eq_false_iff.mp (hrest x hx).1).2
  apply Scan.loop_of_inr
  simp [hmark, Scan.skipWhile, hrun, Scan.skipComment, hcomment, hbreak]

theorem skipToToken_start {text : List Char} (h : StartsToken text) :
    start.skipToToken (Cursor.ofText text) = some (⟨#[], [], true, [], none⟩, ⟨text, 0, 0, 0⟩) :=
  skipToToken_blanks (j := 0) h rfl

theorem skipToToken_newline {j : Nat} (hrest : StartsToken rest) (hflow : t.flowKeys = [])
    (hc : c.rest = '\n' :: (List.replicate j ' ' ++ rest)) :
    ∃ index, t.skipToToken c = some (t.allowKey true, ⟨rest, index, c.line + 1, j⟩) := by
  have hhead : c.head? = some '\n' := by rw [Cursor.head?, hc]; rfl
  have hrun : c.takeWhile (fun x => x == ' ' || (x == '\t' && !t.keyAllowed)) = ([], c) :=
    Cursor.takeWhile_append (w := []) (show c.rest = [] ++ c.rest from rfl)
      (fun _ hx => absurd hx List.not_mem_nil) (by rw [hc]; rintro x hx; cases hx; rfl)
  have hbreak : c.holds 0 isBreak = true := by
    rw [Cursor.holds, Cursor.at?, hc]
    rfl
  have hflow' : t.inFlow = false := by rw [inFlow, hflow]; rfl
  have hnext := skipToToken_blanks (t := t.allowKey true) (j := j) hrest
    (c := ⟨List.replicate j ' ' ++ rest, c.index + 1, c.line + 1, 0⟩) rfl
  rw [Cursor.past, List.length_replicate, Nat.zero_add] at hnext
  refine ⟨_, Scan.loop_of_inl ?_ ?_ hnext⟩
  · simp [hhead, Scan.skipWhile, hrun, Scan.skipComment, hbreak, Cursor.takeBreak_newline hc,
      hflow']
  · rw [hc]
    exact Nat.lt_succ_self _

/-! ## A token after another -/

/-- The tokens that are read from a state and a cursor on. -/
def Yields (t : Tokens) (c : Cursor) (tokens : List Token) : Prop :=
  ∃ c', Scan.loop next t c = some (tokens, c')

theorem Yields.of_dispatch {t₁ t₂ : Tokens} {c₁ c₂ : Cursor}
    (hskip : t.skipToToken c = some (t₁, c₁))
    (hstale : t₁.dropStale c₁ = some t₁) (hclose : t₁.closeTo c₁.column = t₁)
    (hhead : c₁.head? = some x) (hdispatch : t₁.dispatch c₁ x c₁ = some (t₂, c₂))
    (hlt : c₂.rest.length < c.rest.length) (hyields : Yields t₂ c₂ tokens) : Yields t c tokens := by
  obtain ⟨c', hloop⟩ := hyields
  refine ⟨c', Scan.loop_of_inl ?_ hlt hloop⟩
  rw [next, bind_of_eq_some hskip, bind_of_eq_some (Scan.cursor_apply _)]
  simp [hstale, hclose, hhead, hdispatch]

def inBlock (taken : Array Token) (indents : List Nat) (allowed : Bool) : Tokens :=
  ⟨taken, indents, allowed, [], none⟩

theorem closeTo_inBlock {key : Option KeyCandidate} {column : Nat}
    (h : ∀ indent ∈ indents.head?, indent ≤ column) :
    closeTo ⟨taken, indents, allowed, [], key⟩ column = ⟨taken, indents, allowed, [], key⟩ := by
  have hblocks : closeBlocks column indents taken = (indents, taken) := by
    cases indents with
    | nil => rfl
    | cons indent indents =>
      have hle := h indent rfl
      rw [closeBlocks, if_neg (by omega)]
  rw [closeTo, inFlow]
  simp [hblocks]

/-! ## Plain scalars -/

theorem not_indicator_dispatch (hindicator : isIndicator x = false)
    (hmark : c.atDocumentMark = false) (hstart : t.startsPlain c = true) :
    t.dispatch c x = t.plainScalar := by
  have hne (y : Char) (hy : isIndicator y = true) : x ≠ y := by
    rintro rfl
    rw [hindicator] at hy
    cases hy
  unfold dispatch
  rw [if_neg (fun h => hne '%' (by decide) h.2), hmark, if_neg Bool.false_ne_true]
  split
  case h_11 =>
    rw [if_neg (fun h => hne '-' (by decide) h.1), if_neg (fun h => hne '?' (by decide) h.1),
      if_neg (fun h => hne ':' (by decide) h.1), if_neg (fun h => hne '|' (by decide) h.1),
      if_neg (fun h => hne '>' (by decide) h.1), if_pos hstart]
  all_goals exact absurd rfl (hne _ (by decide))

theorem dispatch_plainWord (hw : PlainWord w) (hc : c.rest = w ++ rest)
    (hmark : c.atDocumentMark = false) :
    ∃ x, c.head? = some x ∧ t.dispatch c x = t.plainScalar := by
  obtain ⟨x, w, rfl⟩ := List.exists_cons_of_ne_nil hw.nonempty
  have hhead : c.head? = some x := by rw [Cursor.head?, hc]; rfl
  refine ⟨x, hhead, ?_⟩
  have hvisible := not_blankOrBreak_of_word (hw.isWordChar x List.mem_cons_self)
  rcases hw.start x rfl with hindicator | ⟨rfl, hlong⟩
  · apply not_indicator_dispatch hindicator hmark
    simp [startsPlain, hhead, hvisible, hindicator]
  · -- a minus sign is no dash, because something visible follows it
    obtain ⟨y, w, rfl⟩ := List.exists_cons_of_ne_nil
      (show w ≠ [] by rintro rfl; exact absurd hlong (by decide))
    have hy := not_blankOrBreak_of_word (hw.isWordChar y (by simp))
    have hat : c.at? 1 = some y := by rw [Cursor.at?, hc]; rfl
    have hblank : c.blankAt 1 = false := by rw [Cursor.blankAt, hat]; exact hy
    have hholds : c.holds 1 isBlank = false := by
      rw [Cursor.holds, hat]
      exact (Bool.or_eq_false_iff.mp hy).1
    have hstart : t.startsPlain c = true := by simp [startsPlain, hhead, hholds]
    simp [dispatch, hmark, hblank, hstart]

theorem plainScalar_apply {broken : Bool} (hcandidate : t.addCandidate c = some t')
    (hplain : plain t'.inFlow (t'.indents.head?.elim 0 (· + 1)) c = some ((w, broken), c')) :
    t.plainScalar c = some ((t'.allowKey broken).push (.scalar .plain w), c') := by
  rw [plainScalar, bind_of_eq_some (Scan.cursor_apply _)]
  simp [hcandidate, hplain]

/-- The value of a key, up to the end of its line and the indentation of the next one. -/
theorem Yields.of_value {indent j : Nat} (hv : PlainWord v) (hrest : StartsToken rest)
    (hindent : indent ≤ c.column) (hj : j ≤ indent)
    (hc : c.rest = ' ' :: (v ++ '\n' :: (List.replicate j ' ' ++ rest)))
    (hyields : ∀ index, Yields (inBlock (taken.push (.scalar .plain v)) (indent :: indents) true)
      ⟨rest, index, c.line + 1, j⟩ tokens) :
    Yields (inBlock taken (indent :: indents) false) c tokens := by
  have hskip := skipToToken_blanks (t := inBlock taken (indent :: indents) false) (j := 1)
    (hv.startsToken _) hc
  have hmark :
      (c.past [' '] (v ++ '\n' :: (List.replicate j ' ' ++ rest))).atDocumentMark = false := rfl
  obtain ⟨x, hhead, hdispatch⟩ :=
    dispatch_plainWord (t := inBlock taken (indent :: indents) false) hv
    (c := c.past [' '] (v ++ '\n' :: (List.replicate j ' ' ++ rest))) rfl hmark
  obtain ⟨index, hplain⟩ := plain_line (indent + 1) hv.nonempty hv.isWordChar hmark
    hv.head?_ne hrest.startsLine (Nat.lt_succ_of_le hj) rfl
  have hscalar := plainScalar_apply (t := inBlock taken (indent :: indents) false) rfl hplain
  refine Yields.of_dispatch hskip rfl (closeTo_inBlock ?_) hhead (hdispatch ▸ hscalar) ?_
    (hyields index)
  · rintro i hi
    rw [← Option.some.inj hi]
    exact Nat.le_succ_of_le hindent
  · rw [hc]
    simp only [List.length_cons, List.length_append]
    omega

/-! ## Keys -/

theorem insertIdxIfInBounds_append (xs ys : Array Token) (token : Token) :
    (xs ++ ys).insertIdxIfInBounds xs.size token = xs ++ #[token] ++ ys := by
  have hlist (xs ys : List Token) : (xs ++ ys).insertIdx xs.length token = xs ++ token :: ys := by
    induction xs with
    | nil => rfl
    | cons x xs ih => rw [List.cons_append, List.length_cons, List.insertIdx_succ_cons, ih,
        List.cons_append]
  rw [Array.insertIdxIfInBounds, dif_pos (by simp), ← Array.toList_inj, Array.toList_insertIdx,
    Array.toList_append, ← Array.length_toList, hlist]
  simp

def candidateAt (taken : Array Token) (indents : List Nat) (c : Cursor) : KeyCandidate where
  position := taken.size
  required := indents.head? == some c.column
  index := c.index
  line := c.line
  column := c.column

/-- A block whose last token may turn out to be a key. -/
def afterScalar (taken : Array Token) (indents : List Nat) (c : Cursor) (k : List Char) : Tokens :=
  ⟨taken.push (.scalar .plain k), indents, false, [], some (candidateAt taken indents c)⟩

def keyTokens (first : Bool) (k : List Char) : Array Token :=
  (if first then #[.blockMappingStart] else #[]) ++ #[.key, .scalar .plain k, .value]

theorem value_first (hfirst : ∀ indent ∈ indents.head?, indent < c.column) (c' : Cursor) :
    (afterScalar taken indents c k).value c' =
      some (inBlock (taken ++ keyTokens true k) (c.column :: indents) false, c'.skip) := by
  have hopen : (indents.head?.all fun indent => decide (indent < c.column)) = true := by
    cases indents with
    | nil => rfl
    | cons indent indents => exact decide_eq_true (hfirst indent rfl)
  have hkey : (taken.push (.scalar .plain k)).insertIdxIfInBounds taken.size .key =
      taken ++ #[.key, .scalar .plain k] := by
    rw [Array.push_eq_append, insertIdxIfInBounds_append, Array.append_assoc]
    rfl
  have hmapping : (taken ++ #[Token.key, .scalar .plain k]).insertIdxIfInBounds taken.size
      .blockMappingStart = taken ++ #[.blockMappingStart, .key, .scalar .plain k] := by
    rw [insertIdxIfInBounds_append, Array.append_assoc]
    rfl
  simp only [value, candidate, afterScalar, candidateAt, hkey, openBlock, inFlow, List.isEmpty_nil,
    Bool.not_true, Bool.not_false, Bool.true_and, hopen, if_true, hmapping, bind_apply,
    Scan.skip_apply, Option.bind_some, pure_apply]
  simp [inBlock, keyTokens, setCandidate, allowKey, push]

theorem value_further (c' : Cursor) :
    (afterScalar taken (c.column :: indents) c k).value c' =
      some (inBlock (taken ++ keyTokens false k) (c.column :: indents) false, c'.skip) := by
  have hopen : ((c.column :: indents).head?.all fun indent => decide (indent < c.column)) = false :=
    decide_eq_false (Nat.lt_irrefl _)
  have hkey : (taken.push (.scalar .plain k)).insertIdxIfInBounds taken.size .key =
      taken ++ #[.key, .scalar .plain k] := by
    rw [Array.push_eq_append, insertIdxIfInBounds_append, Array.append_assoc]
    rfl
  simp only [value, candidate, afterScalar, candidateAt, hkey, openBlock, inFlow, List.isEmpty_nil,
    Bool.not_true, Bool.not_false, Bool.true_and, hopen, Bool.false_eq_true, if_false, bind_apply,
    Scan.skip_apply, Option.bind_some, pure_apply]
  simp [inBlock, keyTokens, setCandidate, allowKey, push]

theorem dropStale_afterScalar (hk : KeyWord k) (rest : List Char) :
    (afterScalar taken indents c k).dropStale (c.past k rest) =
      some (afterScalar taken indents c k) := by
  have hindex := c.past_index_le k rest
  have hshort := hk.short
  have hfresh : isStale (c.past k rest) (candidateAt taken indents c) = false := by
    have hline : ¬ (candidateAt taken indents c).line < (c.past k rest).line := Nat.lt_irrefl c.line
    have hbytes : ¬ (candidateAt taken indents c).index + 1024 < (c.past k rest).index := by
      show ¬ c.index + 1024 < (c.past k rest).index
      omega
    rw [isStale, decide_eq_false hline, decide_eq_false hbytes, Bool.or_false]
  have hrefresh : refresh (c.past k rest) (some (candidateAt taken indents c)) =
      some (some (candidateAt taken indents c)) := by
    rw [refresh, hfresh, if_neg Bool.false_ne_true]
  simp only [afterScalar, dropStale, List.mapM_nil, hrefresh]
  rfl

theorem dispatch_colon (hc : c.rest = ':' :: rest) (hrest : rest.head?.all isBlankOrBreak = true) :
    t.dispatch c ':' = t.value := by
  have hmark := Cursor.atDocumentMark_cons hc (by decide) (by decide)
  have hblank : c.blankAt 1 = true := by
    rw [Cursor.blankAt, Cursor.at?, hc, List.getElem?_cons_succ, ← List.head?_eq_getElem?]
    exact hrest
  simp [dispatch, hmark, hblank]

theorem Yields.of_key {c₀ : Cursor} (hk : KeyWord k) (hrest : rest.head?.all isBlankOrBreak = true)
    (hskip : t.skipToToken c₀ = some (inBlock taken indents true, c))
    (hindent : ∀ indent ∈ indents.head?, indent ≤ c.column) (hc : c.rest = k ++ ':' :: rest)
    (hle : c.rest.length ≤ c₀.rest.length)
    (hvalue : (afterScalar taken indents c k).value (c.past k (':' :: rest)) =
      some (t', (c.past k (':' :: rest)).skip))
    (hyields : Yields t' (c.past (k ++ [':']) rest) tokens) : Yields t c₀ tokens := by
  have hmark := hk.atDocumentMark_eq_false hc
  obtain ⟨x, hhead, hdispatch⟩ :=
    dispatch_plainWord (t := inBlock taken indents true) hk.plainWord hc hmark
  have hplain := plain_key (indents.head?.elim 0 (· + 1)) hk.nonempty hk.isWordChar hmark
    hk.plainWord.head?_ne hrest hc
  have hcandidate : (inBlock taken indents true).addCandidate c =
      some ⟨taken, indents, true, [], some (candidateAt taken indents c)⟩ := rfl
  have hscalar : (inBlock taken indents true).plainScalar c =
      some (afterScalar taken indents c k, c.past k (':' :: rest)) :=
    plainScalar_apply hcandidate hplain
  have hskip' : (afterScalar taken indents c k).skipToToken (c.past k (':' :: rest)) =
      some (afterScalar taken indents c k, c.past k (':' :: rest)) :=
    skipToToken_blanks (j := 0) (by rintro x hx; cases hx; decide) rfl
  have hskipColon : (c.past k (':' :: rest)).skip = c.past (k ++ [':']) rest := by
    rw [Cursor.skip_of_rest (show (c.past k (':' :: rest)).rest = ':' :: rest from rfl),
      Cursor.past_past]
  have hcolumn : ∀ indent ∈ indents.head?, indent ≤ (c.past k (':' :: rest)).column :=
    fun indent hi => (hindent indent hi).trans (Nat.le_add_right _ _)
  -- the scalar stays a candidate for a key until its colon is seen
  refine Yields.of_dispatch hskip rfl (closeTo_inBlock hindent) hhead (hdispatch ▸ hscalar) ?_ ?_
  · have hpos := List.length_pos_iff.mpr hk.nonempty
    rw [hc, List.length_append] at hle
    show (':' :: rest).length < _
    omega
  · refine Yields.of_dispatch hskip' (dropStale_afterScalar hk _) (closeTo_inBlock hcolumn) rfl
      ((dispatch_colon (c := c.past k (':' :: rest)) rfl hrest).symm ▸ hvalue) ?_
      (hskipColon ▸ hyields)
    rw [hskipColon]
    exact Nat.lt_succ_self _

/-! ## Lines -/

section

variable {index line column i j : Nat}

theorem Yields.of_firstEntry {c₀ : Cursor} (hk : KeyWord k) (hv : PlainWord v)
    (hrest : StartsToken rest) (hj : j ≤ column)
    (hskip : t.skipToToken c₀ = some (inBlock taken indents true,
      ⟨k ++ ':' :: ' ' :: (v ++ '\n' :: (List.replicate j ' ' ++ rest)), index, line, column⟩))
    (hle : (k ++ ':' :: ' ' :: (v ++ '\n' :: (List.replicate j ' ' ++ rest))).length ≤
      c₀.rest.length)
    (hindent : ∀ indent ∈ indents.head?, indent < column)
    (hyields : ∀ index line,
      Yields (inBlock (taken ++ keyTokens true k ++ #[.scalar .plain v]) (column :: indents) true)
        ⟨rest, index, line, j⟩ tokens) : Yields t c₀ tokens := by
  refine Yields.of_key hk ?_ hskip (fun indent hi => (hindent indent hi).le) rfl hle
    (value_first hindent _) (Yields.of_value hv hrest (Nat.le_add_right _ _) hj rfl fun index => ?_)
  · rfl
  · exact hyields index _

theorem Yields.of_furtherEntry (hk : KeyWord k) (hv : PlainWord v) (hrest : StartsToken rest)
    (hj : j ≤ column)
    (hyields : ∀ index line,
      Yields (inBlock (taken ++ keyTokens false k ++ #[.scalar .plain v]) (column :: indents) true)
        ⟨rest, index, line, j⟩ tokens) :
    Yields (inBlock taken (column :: indents) true)
      ⟨k ++ ':' :: ' ' :: (v ++ '\n' :: (List.replicate j ' ' ++ rest)), index, line, column⟩
      tokens := by
  have hskip := skipToToken_blanks (t := inBlock taken (column :: indents) true) (j := 0)
    (hk.plainWord.startsToken (':' :: ' ' :: (v ++ '\n' :: (List.replicate j ' ' ++ rest))))
    (c := ⟨_, index, line, column⟩) rfl
  refine Yields.of_key hk rfl hskip (fun indent hi => (Option.some.inj hi).ge) rfl (Nat.le_refl _)
    (value_further _) (Yields.of_value hv hrest (Nat.le_add_right _ _) hj rfl fun index => ?_)
  exact hyields index _

/-- A key without a value on its line, and the first line of the block below it. -/
theorem Yields.of_nestedEntry {outer : List Char} (houter : KeyWord outer) (hk : KeyWord k)
    (hv : PlainWord v) (hrest : StartsToken rest) (hi : column < i) (hj : j ≤ i)
    (hyields : ∀ index line,
      Yields (inBlock (taken ++ keyTokens false outer ++ keyTokens true k ++ #[.scalar .plain v])
        (i :: column :: indents) true) ⟨rest, index, line, j⟩ tokens) :
    Yields (inBlock taken (column :: indents) true)
      ⟨outer ++ ':' :: '\n' :: (List.replicate i ' ' ++
        (k ++ ':' :: ' ' :: (v ++ '\n' :: (List.replicate j ' ' ++ rest)))), index, line, column⟩
      tokens := by
  have hskip := skipToToken_blanks (t := inBlock taken (column :: indents) true) (j := 0)
    (houter.plainWord.startsToken (':' :: '\n' :: (List.replicate i ' ' ++
        (k ++ ':' :: ' ' :: (v ++ '\n' :: (List.replicate j ' ' ++ rest))))))
    (c := ⟨_, index, line, column⟩) rfl
  refine Yields.of_key houter rfl hskip (fun indent hi => (Option.some.inj hi).ge) rfl
    (Nat.le_refl _) (value_further _) ?_
  obtain ⟨index', hnewline⟩ := skipToToken_newline
    (t := inBlock (taken ++ keyTokens false outer) (column :: indents) false)
    (hk.plainWord.startsToken (':' :: ' ' :: (v ++ '\n' :: (List.replicate j ' ' ++ rest)))) rfl
    (c := Cursor.past ⟨_, index, line, column⟩ (outer ++ [':']) ('\n' :: (List.replicate i ' ' ++
        (k ++ ':' :: ' ' :: (v ++ '\n' :: (List.replicate j ' ' ++ rest)))))) rfl
  refine Yields.of_firstEntry hk hv hrest hj hnewline ?_ (fun indent h => ?_) hyields
  · simp only [Cursor.past, List.length_cons, List.length_append]
    omega
  · rwa [← Option.some.inj h]

end

theorem Yields.of_end {outer inner : Nat} (hc : c.rest = []) (houter : outer ≤ c.column)
    (hinner : c.column < inner) :
    Yields (inBlock taken [inner, outer] true) c (taken.toList ++ [.blockEnd, .blockEnd]) := by
  have hskip : (inBlock taken [inner, outer] true).skipToToken c =
      some (inBlock taken [inner, outer] true, c) := by
    have hblanks := skipToToken_blanks (t := inBlock taken [inner, outer] true) (j := 0)
      (show StartsToken [] from fun _ hx => absurd hx (by simp)) hc
    rwa [List.replicate_zero, Cursor.past_nil hc] at hblanks
  have hclose : (inBlock taken [inner, outer] true).closeTo c.column =
      inBlock (taken.push .blockEnd) [outer] true := by
    simp only [closeTo, inBlock, inFlow, List.isEmpty_nil, Bool.not_true, Bool.false_eq_true,
      if_false, closeBlocks, if_pos hinner, if_neg (Nat.not_lt.mpr houter)]
  have hstale : (inBlock taken [inner, outer] true).dropStale c =
      some (inBlock taken [inner, outer] true) :=
    rfl
  have hhead : c.head? = none := by rw [Cursor.head?, hc]; rfl
  have hboundary : (inBlock (taken.push .blockEnd) [outer] true).boundary =
      some (inBlock (taken.push .blockEnd ++ #[.blockEnd]) [] false) := rfl
  refine ⟨c, Scan.loop_of_inr ?_⟩
  rw [next, bind_of_eq_some hskip, bind_of_eq_some (Scan.cursor_apply _)]
  simp only [bind_apply, liftM_apply, hstale, Option.map_some, Option.bind_some, hclose, hhead,
    hboundary, pure_apply]
  simp [inBlock]

end Tokens

end LargeNeighborhood.Yaml
