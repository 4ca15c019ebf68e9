import LargeNeighborhood.Random.Stream

/-!
# Indices from words

An index below a bound is the high part of the product of the bound and a word. The low part is the
fraction that was cut off; where further words could still carry it over, one more word settles
that. The index is below the bound whatever the words are.
-/

namespace LargeNeighborhood

namespace RandomSource

/-- An index below `bound` from words below `radix`, and the source after the words it took. -/
inductive Widens (draw : ρ → Nat × ρ) (radix bound : Nat) (source : ρ) : (index : Nat) → ρ → Prop
  /-- The fraction is too far from one to be carried over. -/
  | settled {word high low : Nat} {rest : ρ} (hword : draw source = (word, rest))
      (hproduct : word * bound = radix * high + low) (hlow : low < radix)
      (hfar : low ≤ radix - bound) : Widens draw radix bound source high rest
  /-- The fraction is close to one, and the high part of a second product may carry it over. -/
  | corrected {word high low correction more cut : Nat} {next rest : ρ}
      (hword : draw source = (word, next))
      (hproduct : word * bound = radix * high + low) (hlow : low < radix)
      (hclose : radix - bound < low) (hcorrection : draw next = (correction, rest))
      (hmore : correction * bound = radix * more + cut) (hcut : cut < radix) :
      Widens draw radix bound source (if low + more < radix then high else high + 1) rest

theorem widens_boundedDraw (draw : ρ → Nat × ρ) {radix : Nat} (hradix : 0 < radix) (bound : Nat)
    (source : ρ) :
    Widens draw radix bound source (boundedDraw draw radix bound source).1
      (boundedDraw draw radix bound source).2 := by
  have hsplit : ∀ product, product = radix * (product / radix) + product % radix :=
    fun product => (Nat.div_add_mod product radix).symm
  have hlow : ∀ product, product % radix < radix := fun product => Nat.mod_lt product hradix
  unfold boundedDraw
  dsimp only
  split
  · rename_i hclose
    exact .corrected rfl (hsplit _) (hlow _) (of_decide_eq_true hclose) rfl (hsplit _) (hlow _)
  · rename_i hfar
    exact .settled rfl (hsplit _) (hlow _)
      (Nat.le_of_not_lt fun hclose => hfar (decide_eq_true hclose))

/-- The low part `2 ^ 32 - 2` of a first product is carried over by the high part `2` of a second.
-/
example : boundedDraw (fun words : List Nat => (words.headD 0, words.tail)) UInt32.size 3
    [2863311530, 4294967295, 7] = (2, [7]) := by
  decide

/-- The words that a source takes its indices from. -/
structure Words (ρ : Type) [RandomSource ρ] where
  word : ρ → Nat × ρ
  long : ρ → Nat × ρ
  word_lt : ∀ source, (word source).1 < UInt32.size
  long_lt : ∀ source, (long source).1 < UInt64.size
  below_eq : ∀ bound source, below bound source =
    if bound < UInt32.size then boundedDraw word UInt32.size bound source
    else boundedDraw long UInt64.size bound source

namespace Words

variable [RandomSource ρ]

def Draws (words : Words ρ) (bound : Nat) (source : ρ) (index : Nat) (rest : ρ) : Prop :=
  if bound < UInt32.size then Widens words.word UInt32.size bound source index rest
  else Widens words.long UInt64.size bound source index rest

theorem exists_draws (words : Words ρ) {bound : Nat} (hbound : 0 < bound) (source : ρ) :
    ∃ index rest, below bound source = (index, rest) ∧ words.Draws bound source index rest ∧
      index < bound := by
  unfold Draws
  rw [words.below_eq]
  split
  · exact ⟨_, _, rfl, widens_boundedDraw _ (by decide) bound source,
      boundedDraw_lt source hbound words.word_lt⟩
  · exact ⟨_, _, rfl, widens_boundedDraw _ (by decide) bound source,
      boundedDraw_lt source hbound words.long_lt⟩

end Words

end RandomSource

def Random.Stream.words : RandomSource.Words Random.Stream where
  word := Random.Stream.word
  long := Random.Stream.long
  word_lt := Random.Stream.word_lt
  long_lt := Random.Stream.long_lt
  below_eq _ _ := rfl

end LargeNeighborhood
