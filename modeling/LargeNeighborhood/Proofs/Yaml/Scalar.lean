import LargeNeighborhood.Yaml.Scalar
import LargeNeighborhood.Proofs.Text.Reader

/-!
# YAML words as plain scalars

A word of visible characters is scanned as a plain scalar, whether a colon ends it or the end of its
line. In the second case the line break and the indentation after it are scanned as well.
-/

namespace LargeNeighborhood.Yaml

variable {α : Type} {w rest : List Char} {c : Cursor}

/-! ## Cursors -/

namespace Cursor

def past (c : Cursor) (w rest : List Char) : Cursor :=
  ⟨rest, w.foldl (fun index x => index + x.utf8Size) c.index, c.line, c.column + w.length⟩

theorem past_nil (h : c.rest = rest) : c.past [] rest = c := by
  rw [← h]
  rfl

theorem skip_of_rest {x : Char} (h : c.rest = x :: rest) : c.skip = c.past [x] rest := by
  rw [skip, h]
  rfl

theorem past_past (c : Cursor) (v w rest rest' : List Char) :
    (c.past v rest').past w rest = c.past (v ++ w) rest := by
  simp only [past, List.foldl_append, List.length_append, Nat.add_assoc]

/-- A character takes at most four bytes. -/
theorem past_index_le (c : Cursor) (w rest : List Char) :
    (c.past w rest).index ≤ c.index + 4 * w.length := by
  rw [past]
  generalize c.index = index
  dsimp only
  induction w generalizing index with
  | nil => exact Nat.le_refl _
  | cons x w ih =>
    have hx := Char.utf8Size_le_four x
    have hw := ih (index + x.utf8Size)
    rw [List.foldl_cons, List.length_cons]
    omega

theorem takeBreak_newline (h : c.rest = '\n' :: rest) :
    c.takeBreak = (['\n'], ⟨rest, c.index + 1, c.line + 1, 0⟩) := by
  rw [takeBreak, h]
  rfl

end Cursor

/-! ## Steps and loops -/

namespace Scan

@[simp]
theorem cursor_apply (c : Cursor) : cursor c = some (c, c) := rfl

@[simp]
theorem skip_apply (c : Cursor) : skip c = some ((), c.skip) := rfl

@[simp]
theorem takeBreak_apply (c : Cursor) : takeBreak c = some c.takeBreak := rfl

section

variable {σ : Type} {step : σ → Scan (σ ⊕ α)} {state next : σ} {c' : Cursor} {a : α}
  {r : α × Cursor}

theorem loop_of_inl (hstep : step state c = some (.inl next, c'))
    (hlt : c'.rest.length < c.rest.length) (hloop : loop step next c' = some r) :
    loop step state c = some r := by
  rw [loop, rounds_of_inl hstep]
  exact rounds_mono hloop hlt

theorem loop_of_inr (hstep : step state c = some (.inr a, c')) : loop step state c = some (a, c') :=
  rounds_of_inr hstep

end

theorem loop_append {step : List Char → Scan (List Char ⊕ α)} {p : Char → Bool}
    {taken text : List Char} {c' : Cursor} {a : α} (hc : c.rest = text ++ rest)
    (htext : ∀ x ∈ text, p x = true)
    (hstep : ∀ (taken tail : List Char) (x : Char) (c : Cursor), p x = true → c.rest = x :: tail →
      step taken c = some (.inl (x :: taken), c.skip))
    (hstop : step (text.reverse ++ taken) (c.past text rest) = some (.inr a, c')) :
    loop step taken c = some (a, c') := by
  induction text generalizing taken c with
  | nil =>
    rw [List.nil_append] at hc
    rw [Cursor.past_nil hc] at hstop
    exact loop_of_inr hstop
  | cons x text ih =>
    have hskip := Cursor.skip_of_rest hc
    refine loop_of_inl (hstep taken _ x c (htext x List.mem_cons_self) hc) ?_ ?_
    · rw [hskip, hc]
      exact Nat.lt_succ_self _
    · apply ih (by rw [hskip]; rfl) fun y hy => htext y (List.mem_cons_of_mem x hy)
      rw [hskip, Cursor.past_past]
      rwa [List.reverse_cons, List.append_assoc] at hstop

end Scan

/-! ## Words -/

/-- The characters of words: those of ASCII that are visible, but for the colon. -/
def isWordChar (x : Char) : Bool :=
  '!' ≤ x && x ≤ '~' && x != ':'

theorem not_blankOrBreak_of_word {x : Char} (h : isWordChar x = true) :
    isBlankOrBreak x = false := by
  rw [Bool.eq_false_iff]
  intro hblank
  simp only [isBlankOrBreak, isBlank, isBreak, Bool.or_eq_true, beq_iff_eq] at hblank
  rcases hblank with (rfl | rfl) | (((rfl | rfl) | rfl) | rfl) | rfl <;> exact absurd h (by decide)

theorem ne_colon_of_word {x : Char} (h : isWordChar x = true) : x ≠ ':' := by
  rintro rfl
  cases h

/-- A word ends here: at a blank, a line break or the end of the text, or at a colon before one of
these. -/
def EndsWord (rest : List Char) : Prop :=
  ∀ x ∈ rest.head?, isBlankOrBreak x = true ∨ (x = ':' ∧ rest[1]?.all isBlankOrBreak = true)

theorem plainRun_word (hc : c.rest = w ++ rest) (hw : ∀ x ∈ w, isWordChar x = true)
    (hrest : EndsWord rest) : plainRun false c = some (w, c.past w rest) := by
  apply Scan.loop_append hc hw
  · intro taken tail x c hx hc
    have hhead : c.head? = some x := by rw [Cursor.head?, hc]; rfl
    simp [hhead, not_blankOrBreak_of_word hx, ne_colon_of_word hx]
  · have hat : (c.past w rest).head? = rest.head? := rfl
    have hblankAt : (c.past w rest).blankAt 1 = rest[1]?.all isBlankOrBreak := rfl
    rw [List.append_nil, bind_of_eq_some (Scan.cursor_apply _), hat]
    cases hhead : rest.head? with
    | none => simp
    | some x =>
      rcases hrest x hhead with hblank | ⟨rfl, hafter⟩
      · simp [hblank]
      · have hcolon : isBlankOrBreak ':' = false := by decide
        simp [hcolon, hblankAt, hafter]

/-! ## Gaps -/

def StartsLine (rest : List Char) : Prop :=
  ∀ x ∈ rest.head?, isBlankOrBreak x = false

theorem scan_indentation {g : Gap} (hg : g.hasBreak = true) (least : Nat) {j : Nat}
    (hrest : StartsLine rest) (hc : c.rest = List.replicate j ' ' ++ rest) :
    g.scan least c = some (g, c.past (List.replicate j ' ') rest) := by
  induction j generalizing c with
  | zero =>
    have hc' : c.rest = rest := hc
    have hhead : c.head? = rest.head? := by rw [Cursor.head?, hc']
    have hpast : c.past (List.replicate 0 ' ') rest = c := Cursor.past_nil hc'
    rw [hpast]
    apply Scan.loop_of_inr
    rw [bind_of_eq_some (Scan.cursor_apply _), hhead]
    cases hfirst : rest.head? with
    | none => simp
    | some x =>
      have hx := Bool.or_eq_false_iff.mp (hrest x hfirst)
      simp [hx.1, hx.2]
  | succ j ih =>
    rw [List.replicate_succ, List.cons_append] at hc
    have hskip := Cursor.skip_of_rest hc
    have hhead : c.head? = some ' ' := by rw [Cursor.head?, hc]; rfl
    have hnext := ih (c := c.skip) (by rw [hskip]; rfl)
    rw [hskip, Cursor.past_past] at hnext
    refine Scan.loop_of_inl ?_ ?_ hnext
    · have hblank : isBlank ' ' = true := by decide
      simp [hhead, hblank, hg, hskip]
    · rw [hc]
      exact Nat.lt_succ_self _

theorem scan_newline (least : Nat) {j : Nat} (hrest : StartsLine rest)
    (hc : c.rest = '\n' :: (List.replicate j ' ' ++ rest)) :
    ∃ g index, g.hasBreak = true ∧
      Gap.empty.scan least c = some (g, ⟨rest, index, c.line + 1, j⟩) := by
  have hbreak := Cursor.takeBreak_newline hc
  have hhead : c.head? = some '\n' := by rw [Cursor.head?, hc]; rfl
  have hscan := scan_indentation (g := Gap.empty.addBreak ['\n']) rfl least hrest
    (c := ⟨List.replicate j ' ' ++ rest, c.index + 1, c.line + 1, 0⟩) rfl
  rw [Cursor.past, List.length_replicate, Nat.zero_add] at hscan
  refine ⟨Gap.empty.addBreak ['\n'], _, rfl, Scan.loop_of_inl ?_ ?_ hscan⟩
  · have hblank : isBlank '\n' = false := by decide
    have hnewline : isBreak '\n' = true := by decide
    simp [hhead, hblank, hnewline, hbreak]
  · rw [hc]
    exact Nat.lt_succ_self _

/-! ## Plain scalars -/

section

variable (least : Nat) (hne : w ≠ []) (hw : ∀ x ∈ w, isWordChar x = true)
  (hmark : c.atDocumentMark = false) (hcomment : w.head? ≠ some '#')

include hne hw hmark hcomment

theorem plain_key (hrest : rest.head?.all isBlankOrBreak = true) (hc : c.rest = w ++ ':' :: rest) :
    plain false least c = some ((w, false), c.past w (':' :: rest)) := by
  have hends : EndsWord (':' :: rest) := by
    rintro x hx
    refine .inr ⟨(Option.some.inj hx).symm, ?_⟩
    rwa [List.getElem?_cons_succ, ← List.head?_eq_getElem?]
  have hhead : c.head? ≠ some '#' := by
    rw [Cursor.head?, hc, List.head?_append, Option.or_of_isSome (List.isSome_head?.mpr hne)]
    exact hcomment
  have hnotEmpty : w.isEmpty = false := List.isEmpty_eq_false_iff.mpr hne
  have hafter : (c.past w (':' :: rest)).holds 0 isBlankOrBreak = false := rfl
  apply Scan.loop_of_inr
  dsimp only
  rw [bind_of_eq_some (Scan.cursor_apply _), hmark, Bool.false_or, decide_eq_false hhead,
    if_neg Bool.false_ne_true, bind_of_eq_some (plainRun_word hc hw hends)]
  simp [hnotEmpty, hafter, Gap.text, Gap.empty, Gap.hasBreak]

/-- A word at the end of its line is a plain scalar if the next line is indented less. -/
theorem plain_line {j : Nat} (hrest : StartsLine rest) (hj : j < least)
    (hc : c.rest = w ++ '\n' :: (List.replicate j ' ' ++ rest)) :
    ∃ index, plain false least c = some ((w, true), ⟨rest, index, c.line + 1, j⟩) := by
  have hends : EndsWord ('\n' :: (List.replicate j ' ' ++ rest)) := by
    rintro x hx
    refine .inl ?_
    rw [← Option.some.inj hx]
    rfl
  have hhead : c.head? ≠ some '#' := by
    rw [Cursor.head?, hc, List.head?_append, Option.or_of_isSome (List.isSome_head?.mpr hne)]
    exact hcomment
  have hnotEmpty : w.isEmpty = false := List.isEmpty_eq_false_iff.mpr hne
  have hafter :
      (c.past w ('\n' :: (List.replicate j ' ' ++ rest))).holds 0 isBlankOrBreak = true := rfl
  obtain ⟨g, index, hg, hscan⟩ := scan_newline least (j := j) hrest
    (c := c.past w ('\n' :: (List.replicate j ' ' ++ rest))) rfl
  refine ⟨index, Scan.loop_of_inr ?_⟩
  dsimp only
  rw [bind_of_eq_some (Scan.cursor_apply _), hmark, Bool.false_or, decide_eq_false hhead,
    if_neg Bool.false_ne_true, bind_of_eq_some (plainRun_word hc hw hends)]
  have htext : Gap.empty.text = [] := rfl
  simp [hnotEmpty, hafter, hscan, hg, hj, htext]
  rfl

end

end LargeNeighborhood.Yaml
