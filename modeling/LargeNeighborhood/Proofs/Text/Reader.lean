import LargeNeighborhood.Text.Reader
import Mathlib.Data.List.TakeDrop
import Mathlib.Data.List.TakeWhile

/-!
# Running readers

What the steps of a reader do at the front of a text, and how a loop goes on: a round that takes
something leaves enough rounds for the rest.
-/

namespace LargeNeighborhood

variable {σ τ α β : Type}

/-! ## Sequences of steps -/

section

variable (t : τ)

@[simp]
theorem bind_apply (x : StateT τ Option α) (f : α → StateT τ Option β) :
    (x >>= f) t = (x t).bind fun r => f r.1 r.2 := rfl

theorem bind_of_eq_some {x : StateT τ Option α} {f : α → StateT τ Option β} {t t' : τ} {a : α}
    (h : x t = some (a, t')) : (x >>= f) t = f a t' := by
  rw [bind_apply, h, Option.bind_some]

@[simp]
theorem pure_apply (a : α) : (pure a : StateT τ Option α) t = some (a, t) := rfl

@[simp]
theorem map_apply (f : α → β) (x : StateT τ Option α) :
    (f <$> x) t = (x t).map fun r => (f r.1, r.2) := by
  show (x t).bind _ = _
  cases x t <;> rfl

@[simp]
theorem failure_apply : (failure : StateT τ Option α) t = none := rfl

@[simp]
theorem get_apply : (get : StateT τ Option τ) t = some (t, t) := rfl

@[simp]
theorem set_apply (t' : τ) : (set t' : StateT τ Option Unit) t = some ((), t') := rfl

@[simp]
theorem modify_apply (f : τ → τ) : (modify f : StateT τ Option Unit) t = some ((), f t) := rfl

@[simp]
theorem liftM_apply (x : Option α) :
    (liftM x : StateT τ Option α) t = x.map fun a => (a, t) := by
  cases x <;> rfl

end

/-! ## Loops -/

section

variable {step : σ → StateT τ Option (σ ⊕ α)} {state next : σ} {t t' : τ} {a : α} {r : α × τ}
  {fuel more : Nat}

theorem rounds_of_inl (h : step state t = some (.inl next, t')) :
    rounds step (fuel + 1) state t = rounds step fuel next t' := by
  rw [rounds, bind_of_eq_some h]

theorem rounds_of_inr (h : step state t = some (.inr a, t')) :
    rounds step (fuel + 1) state t = some (a, t') := by
  rw [rounds, bind_of_eq_some h]
  exact pure_apply t' a

/-- A loop that has ended does not need more rounds. -/
theorem rounds_mono (h : rounds step fuel state t = some r) (hle : fuel ≤ more) :
    rounds step more state t = some r := by
  induction fuel generalizing more state t with
  | zero => cases h
  | succ fuel ih =>
    obtain ⟨more, rfl⟩ := Nat.exists_eq_succ_of_ne_zero (Nat.lt_of_lt_of_le fuel.succ_pos hle).ne'
    cases hstep : step state t with
    | none =>
      rw [rounds, bind_apply, hstep] at h
      cases h
    | some result =>
      obtain ⟨next | a, t'⟩ := result
      · rw [rounds_of_inl hstep] at h ⊢
        exact ih h (Nat.le_of_succ_le_succ hle)
      · rw [rounds_of_inr hstep] at h ⊢
        exact h

end

/-- A run ends where a text starts that does not go on with it. -/
theorem span_append {p : α → Bool} {taken rest : List α} (htaken : ∀ c ∈ taken, p c = true)
    (hrest : ∀ c ∈ rest.head?, p c = false) :
    (taken ++ rest).takeWhile p = taken ∧ (taken ++ rest).dropWhile p = rest := by
  rw [List.takeWhile_append_of_pos htaken, List.dropWhile_append_of_pos htaken]
  cases rest with
  | nil => exact ⟨List.append_nil taken, rfl⟩
  | cons c rest =>
    have hstop : ¬ p c = true := by rw [hrest c rfl]; exact Bool.false_ne_true
    rw [List.takeWhile_cons_of_neg hstop, List.dropWhile_cons_of_neg hstop, List.append_nil]
    exact ⟨rfl, rfl⟩

namespace Reader

section

variable {step : σ → Reader (σ ⊕ α)} {state next : σ} {cs cs' : List Char} {a : α}
  {r : α × List Char}

theorem loop_of_inl (hstep : step state cs = some (.inl next, cs')) (hlt : cs'.length < cs.length)
    (hloop : loop step next cs' = some r) : loop step state cs = some r := by
  rw [loop, rounds_of_inl hstep]
  exact rounds_mono hloop hlt

theorem loop_of_inr (hstep : step state cs = some (.inr a, cs')) :
    loop step state cs = some (a, cs') :=
  rounds_of_inr hstep

/-- A loop that collects characters, the last one first. -/
theorem loop_append {step : List Char → Reader (List Char ⊕ α)} {p : Char → Bool}
    {taken text rest : List Char} (htext : ∀ c ∈ text, p c = true)
    (hstep : ∀ (taken tail : List Char) (c : Char), p c = true →
      step taken (c :: tail) = some (.inl (c :: taken), tail))
    (hstop : step (text.reverse ++ taken) rest = some (.inr a, cs')) :
    loop step taken (text ++ rest) = some (a, cs') := by
  induction text generalizing taken with
  | nil => exact loop_of_inr hstop
  | cons c text ih =>
    apply loop_of_inl (hstep taken (text ++ rest) c (htext c List.mem_cons_self))
    · exact Nat.lt_succ_self _
    · apply ih fun x hx => htext x (List.mem_cons_of_mem c hx)
      rwa [List.reverse_cons, List.append_assoc] at hstop

end

/-! ## Single steps -/

section

variable {p : Char → Bool} {c : Char} {cs taken rest : List Char}

@[simp]
theorem peek_apply (cs : List Char) : peek cs = some (cs.head?, cs) := rfl

@[simp]
theorem remaining_apply (cs : List Char) : remaining cs = some (cs, cs) := rfl

@[simp]
theorem next_cons (c : Char) (cs : List Char) : next (c :: cs) = some (c, cs) := rfl

theorem satisfy_cons (h : p c = true) (cs : List Char) : satisfy p (c :: cs) = some (c, cs) :=
  if_pos h

@[simp]
theorem char_cons (c : Char) (cs : List Char) : char c (c :: cs) = some ((), cs) := by
  rw [char, bind_of_eq_some (satisfy_cons (p := fun x => x == c) (beq_self_eq_true c) cs),
    pure_apply]

@[simp]
theorem startsWith_apply (expected cs : List Char) :
    startsWith expected cs = some (expected.isPrefixOf cs, cs) := rfl

@[simp]
theorem text_append (expected cs : List Char) : text expected (expected ++ cs) = some ((), cs) := by
  rw [text, if_pos (List.isPrefixOf_iff_prefix.mpr (List.prefix_append expected cs)),
    List.drop_left]

theorem takeWhile_apply (p : Char → Bool) (cs : List Char) :
    takeWhile p cs = some (cs.takeWhile p, cs.dropWhile p) := by
  rw [takeWhile, List.span_eq_takeWhile_dropWhile]

theorem takeWhile_append (htaken : ∀ c ∈ taken, p c = true)
    (hrest : ∀ c ∈ rest.head?, p c = false) :
    takeWhile p (taken ++ rest) = some (taken, rest) := by
  obtain ⟨htake, hdrop⟩ := span_append htaken hrest
  rw [takeWhile_apply, htake, hdrop]

theorem skipWhile_append (htaken : ∀ c ∈ taken, p c = true)
    (hrest : ∀ c ∈ rest.head?, p c = false) : skipWhile p (taken ++ rest) = some ((), rest) := by
  rw [skipWhile, (span_append htaken hrest).2]

end

end Reader

end LargeNeighborhood
