import LargeNeighborhood.Proofs.Yaml.Reading

/-!
# What readings cost

A reading that succeeds takes some of the jumps along aliases and does not depend on how many are
left, so that its cost is a number of its own. Another reading of the same nodes that looks at no
more of them needs no more jumps. It is followed by its result, which may be a failure, and by a
bound of its cost.
-/

namespace LargeNeighborhood.Yaml.Reading

variable {α β : Type} {d : Document}

/-! ## Costs -/

/-- A reading gives a result and takes some jumps, however many are left after it. -/
def Costs (x : Reading α) (d : Document) (a : α) (cost : Nat) : Prop :=
  ∀ left, x d (left + cost) = some (a, left)

/-- Whenever a reading succeeds, it does so at a cost. -/
def Steady (x : Reading α) (d : Document) : Prop :=
  ∀ ⦃jumps a left⦄, x d jumps = some (a, left) → ∃ cost, jumps = left + cost ∧ Costs x d a cost

/-- With enough jumps a reading ends as an option says and takes no more than them. -/
def Gives (x : Reading α) (d : Document) (o : Option α) (cost : Nat) : Prop :=
  ∀ jumps, cost ≤ jumps → ∃ left, jumps ≤ left + cost ∧ x d jumps = o.map fun a => (a, left)

section

variable {x : Reading α} {f : α → Reading β} {a a' : α} {b : β} {cost more : Nat}

theorem Costs.bind (hx : Costs x d a cost) (hf : Costs (f a) d b more) :
    Costs (x >>= f) d b (cost + more) := by
  intro left
  rw [Nat.add_comm cost, ← Nat.add_assoc, bind_apply, hx, Option.bind_some, hf]

theorem Steady.pure (a : α) : Steady (pure a) d := by
  rintro jumps _ _ ⟨⟩
  exact ⟨0, rfl, fun _ => rfl⟩

theorem Costs.of_pure (h : Costs (Pure.pure a) d a' cost) : a' = a ∧ cost = 0 := by
  have hrun := h 0
  rw [pure_apply, Option.some.injEq, Prod.mk.injEq] at hrun
  exact ⟨hrun.1.symm, by omega⟩

theorem Costs.of_liftM {o : Option α} (h : Costs (liftM o) d a cost) : o = some a := by
  have hrun := h 0
  rw [liftM_apply, Option.map_eq_some_iff] at hrun
  obtain ⟨_, ho, hrun⟩ := hrun
  rw [ho, (Prod.mk.inj hrun).1]

theorem Steady.failure : Steady (failure : Reading α) d := nofun

theorem Steady.liftM (x : Option α) : Steady (liftM x) d := by
  intro jumps a left h
  cases x with
  | none => cases h
  | some a =>
    cases h
    exact ⟨0, rfl, fun _ => rfl⟩

theorem Steady.bind (hx : Steady x d) (hf : ∀ a, Steady (f a) d) : Steady (x >>= f) d := by
  intro jumps b left h
  rw [bind_apply, Option.bind_eq_some_iff] at h
  obtain ⟨⟨a, between⟩, hfirst, hsecond⟩ := h
  obtain ⟨cost, rfl, hx⟩ := hx hfirst
  obtain ⟨more, rfl, hf⟩ := hf a hsecond
  exact ⟨cost + more, by rw [Nat.add_assoc, Nat.add_comm more], hx.bind hf⟩

theorem Costs.of_bind (h : Costs (x >>= f) d b cost) (hx : Steady x d) (hf : ∀ a, Steady (f a) d) :
    ∃ a first second, cost = first + second ∧ Costs x d a first ∧ Costs (f a) d b second := by
  have hrun := h 0
  rw [bind_apply, Option.bind_eq_some_iff] at hrun
  obtain ⟨⟨a, between⟩, hfirst, hsecond⟩ := hrun
  obtain ⟨first, hbetween, hx⟩ := hx hfirst
  obtain ⟨second, rfl, hf⟩ := hf a hsecond
  exact ⟨a, first, second, by omega, hx, hf⟩

theorem Steady.mapM {f : α → Reading β} {items : List α} (h : ∀ a ∈ items, Steady (f a) d) :
    Steady (items.mapM f) d := by
  induction items with
  | nil => exact Steady.pure []
  | cons a items ih =>
    rw [List.mapM_cons]
    refine Steady.bind (h a List.mem_cons_self) fun b => ?_
    refine Steady.bind (ih fun a ha => h a (List.mem_cons_of_mem _ ha)) fun bs => ?_
    exact Steady.pure (b :: bs)

theorem Costs.gives (h : Costs x d a cost) : Gives x d (some a) cost := by
  intro jumps hle
  refine ⟨jumps - cost, by omega, ?_⟩
  obtain ⟨left, rfl⟩ := Nat.exists_eq_add_of_le' hle
  rw [h left, Nat.add_sub_cancel]
  rfl

theorem Gives.mono {o : Option α} (h : Gives x d o cost) (hle : cost ≤ more) :
    Gives x d o more := by
  intro jumps hjumps
  obtain ⟨left, hleft, hx⟩ := h jumps (Nat.le_trans hle hjumps)
  exact ⟨left, by omega, hx⟩

theorem Gives.bind {o : Option α} {g : α → Option β} (hx : Gives x d o cost)
    (hf : ∀ a ∈ o, Gives (f a) d (g a) more) : Gives (x >>= f) d (o.bind g) (cost + more) := by
  intro jumps hle
  obtain ⟨between, hbetween, hfirst⟩ := hx jumps (by omega)
  cases o with
  | none =>
    refine ⟨jumps, by omega, ?_⟩
    rw [bind_apply, hfirst]
    rfl
  | some a =>
    obtain ⟨left, hleft, hsecond⟩ := hf a rfl between (by omega)
    refine ⟨left, by omega, ?_⟩
    rw [bind_apply, hfirst, Option.map_some, Option.bind_some, hsecond]
    rfl

theorem Costs.gives_bind {o : Option β} (hx : Costs x d a cost) (hf : Gives (f a) d o more) :
    Gives (x >>= f) d o (cost + more) := by
  refine hx.gives.bind (g := fun _ => o) fun b hb => ?_
  cases hb
  exact hf

theorem Gives.pure (a : α) : Gives (pure a) d (some a) 0 :=
  fun jumps _ => ⟨jumps, Nat.le_refl _, rfl⟩

theorem Gives.liftM (o : Option α) : Gives (liftM o) d o 0 :=
  fun jumps _ => ⟨jumps, Nat.le_refl _, liftM_apply d jumps o⟩

theorem Gives.map {o : Option α} (g : α → β) (h : Gives x d o cost) :
    Gives (x >>= fun a => Pure.pure (g a)) d (o.map g) cost := by
  rw [Option.map_eq_bind]
  exact h.bind fun a _ => Gives.pure (g a)

theorem Gives.refused {o : Option α} {c : Prop} [Decidable c] (hc : ¬ c) (h : Gives x d o cost) :
    Gives (if c then (Alternative.failure : Reading PUnit) >>= fun _ => x else x) d o cost := by
  rw [if_neg hc]
  exact h

theorem Gives.failure (cost : Nat) : Gives (failure : Reading α) d none cost :=
  fun jumps _ => ⟨jumps, Nat.le_add_right _ _, rfl⟩

end

/-! ## Following aliases -/

theorem follow_alias (number jumps : Nat) :
    follow (Node.alias number) d (jumps + 1) = (d.resolve number).map fun node => (node, jumps) :=
  liftM_apply d jumps _

theorem steady_follow (node : Node) : Steady (follow node) d := by
  cases node with
  | scalar => exact Steady.pure _
  | sequence => exact Steady.pure _
  | mapping => exact Steady.pure _
  | _ number =>
    rintro (_ | jumps) target left h
    · cases h
    · rw [follow_alias, Option.map_eq_some_iff] at h
      obtain ⟨_, hresolve, h⟩ := h
      cases h
      refine ⟨1, rfl, fun left => ?_⟩
      rw [follow_alias, hresolve]
      rfl

/-! ## Contents -/

theorem Steady.refused {x : Reading α} (hx : Steady x d) (c : Prop) [Decidable c] :
    Steady (if c then (Alternative.failure : Reading PUnit) >>= fun _ => x else x) d := by
  split
  · exact Steady.bind Steady.failure fun _ => hx
  · exact hx

def pair (depth : Nat) (entry : Node × Node) : Reading (Content × Content) := do
  return (← content depth entry.1, ← content depth entry.2)

def contentHere : (depth : Nat) → Node → Reading Content
  | _, .scalar tag style text => scalarContent tag style text
  | depth + 1, .sequence tag items => do
    if isLocal tag then failure
    return .list (← items.mapM (content depth))
  | depth + 1, .mapping tag entries => do
    if isLocal tag then failure
    return .map (← entries.mapM (pair depth))
  | _, _ => failure

theorem contentHere_scalar (depth : Nat) (tag : Option TagBytes) (style : Style)
    (text : List Char) :
    contentHere depth (.scalar tag style text) = liftM (scalarContent tag style text) := by
  cases depth <;> rfl

theorem content_eq (depth : Nat) (node : Node) :
    content depth node = follow node >>= contentHere depth := by
  rw [content]
  congr 1
  funext target
  cases target with
  | scalar => cases depth <;> rfl
  | sequence => cases depth <;> rfl
  | mapping => cases depth <;> rfl
  | _ => cases depth <;> rfl

section

variable {depth : Nat}

theorem Steady.content (h : ∀ target, Steady (contentHere depth target) d) (node : Node) :
    Steady (content depth node) d := by
  rw [content_eq]
  exact Steady.bind (steady_follow node) h

theorem Steady.pair (h : ∀ node, Steady (Reading.content depth node) d) (entry : Node × Node) :
    Steady (pair depth entry) d :=
  Steady.bind (h entry.1) fun _ => Steady.bind (h entry.2) fun _ => Steady.pure _

end

theorem steady_contentHere (depth : Nat) (target : Node) : Steady (contentHere depth target) d := by
  induction depth generalizing target with
  | zero =>
    cases target with
    | scalar => exact Steady.liftM _
    | _ => exact Steady.failure
  | succ depth ih =>
    cases target with
    | scalar => exact Steady.liftM _
    | sequence tag items =>
      refine Steady.refused (Steady.bind (Steady.mapM fun item _ => ?_) fun _ => Steady.pure _) _
      exact Steady.content ih item
    | mapping tag entries =>
      refine Steady.refused (Steady.bind (Steady.mapM fun entry _ => ?_) fun _ => Steady.pure _) _
      exact Steady.pair (Steady.content ih) entry
    | _ => exact Steady.failure

theorem steady_content (depth : Nat) (node : Node) : Steady (content depth node) d :=
  Steady.content (steady_contentHere depth) node

theorem steady_pair (depth : Nat) (entry : Node × Node) : Steady (pair depth entry) d :=
  Steady.pair (steady_content depth) entry

theorem Costs.of_refused {x : Reading α} {c : Prop} [Decidable c] {a : α} {cost : Nat}
    (h : Costs (if c then (Alternative.failure : Reading PUnit) >>= fun _ => x else x) d a cost) :
    ¬ c ∧ Costs x d a cost := by
  split at h
  · exact nomatch h 0
  · exact ⟨‹_›, h⟩

theorem Costs.of_map {x : Reading α} {f : α → β} {b : β} {cost : Nat} (hx : Steady x d)
    (h : Costs (x >>= fun a => Pure.pure (f a)) d b cost) : ∃ a, b = f a ∧ Costs x d a cost := by
  obtain ⟨a, first, second, rfl, hfirst, hsecond⟩ := h.of_bind hx fun a => Steady.pure (f a)
  obtain ⟨rfl, rfl⟩ := hsecond.of_pure
  exact ⟨a, rfl, hfirst⟩

/-- The ways in which a node that is no alias gets its content. -/
inductive Holds (d : Document) (cost : Nat) : (depth : Nat) → Node → Content → Prop
  | scalar {depth : Nat} {c : Content} (tag : Option TagBytes) (style : Style) (text : List Char)
    (hvalue : scalarContent tag style text = some c) : Holds d cost depth (.scalar tag style text) c
  | sequence {depth : Nat} {contents : List Content} (tag : Option TagBytes) (items : List Node)
    (hlocal : ¬ isLocal tag = true) (hitems : Costs (items.mapM (content depth)) d contents cost) :
    Holds d cost (depth + 1) (.sequence tag items) (.list contents)
  | mapping {depth : Nat} {contents : List (Content × Content)} (tag : Option TagBytes)
    (entries : List (Node × Node)) (hlocal : ¬ isLocal tag = true)
    (hentries : Costs (entries.mapM (pair depth)) d contents cost) :
    Holds d cost (depth + 1) (.mapping tag entries) (.map contents)

theorem Costs.holds {depth cost : Nat} {target : Node} {c : Content}
    (h : Costs (contentHere depth target) d c cost) : Holds d cost depth target c := by
  cases target with
  | scalar tag style text =>
    rw [contentHere_scalar] at h
    exact .scalar tag style text h.of_liftM
  | sequence tag items =>
    cases depth with
    | zero => exact nomatch h 0
    | succ depth =>
      obtain ⟨hlocal, h⟩ := Costs.of_refused h
      obtain ⟨contents, rfl, hitems⟩ :=
        h.of_map (Steady.mapM fun item _ => steady_content depth item)
      exact .sequence tag items hlocal hitems
  | mapping tag entries =>
    cases depth with
    | zero => exact nomatch h 0
    | succ depth =>
      obtain ⟨hlocal, h⟩ := Costs.of_refused h
      obtain ⟨contents, rfl, hentries⟩ :=
        h.of_map (Steady.mapM fun entry _ => steady_pair depth entry)
      exact .mapping tag entries hlocal hentries
  | _ => cases depth <;> exact nomatch h 0

theorem Costs.of_content {depth cost : Nat} {node : Node} {c : Content}
    (h : Costs (content depth node) d c cost) :
    ∃ target first second, cost = first + second ∧ Costs (follow node) d target first ∧
      Holds d second depth target c := by
  rw [content_eq] at h
  obtain ⟨target, first, second, hcost, hfollow, hhere⟩ :=
    h.of_bind (steady_follow node) (steady_contentHere depth)
  exact ⟨target, first, second, hcost, hfollow, hhere.holds⟩

theorem Costs.of_cons {f : α → Reading β} {a : α} {items : List α} {bs : List β} {cost : Nat}
    (hf : ∀ a, Steady (f a) d) (h : Costs ((a :: items).mapM f) d bs cost) :
    ∃ b rest first second, bs = b :: rest ∧ cost = first + second ∧ Costs (f a) d b first ∧
      Costs (items.mapM f) d rest second := by
  rw [List.mapM_cons] at h
  obtain ⟨b, first, second, rfl, hfirst, hsecond⟩ :=
    h.of_bind (hf a) fun b => Steady.bind (Steady.mapM fun a _ => hf a) fun _ => Steady.pure _
  obtain ⟨rest, rfl, hrest⟩ := hsecond.of_map (Steady.mapM fun a _ => hf a)
  exact ⟨b, rest, first, second, rfl, rfl, hfirst, hrest⟩

theorem Costs.of_pair {depth cost : Nat} {entry : Node × Node} {contents : Content × Content}
    (h : Costs (pair depth entry) d contents cost) :
    ∃ first second, cost = first + second ∧ Costs (content depth entry.1) d contents.1 first ∧
      Costs (content depth entry.2) d contents.2 second := by
  obtain ⟨key, first, second, rfl, hfirst, hsecond⟩ := h.of_bind (steady_content depth entry.1)
    fun key => Steady.bind (steady_content depth entry.2) fun _ => Steady.pure _
  obtain ⟨value, rfl, hvalue⟩ := hsecond.of_map (steady_content depth entry.2)
  exact ⟨first, second, rfl, hfirst, hvalue⟩

end LargeNeighborhood.Yaml.Reading
