import LargeNeighborhood.Config.Yaml
import LargeNeighborhood.Proofs.Text.Reader

/-!
# Readings of YAML nodes

What the steps of a reading do to a document and to the number of jumps that are left.
-/

namespace LargeNeighborhood.Yaml.Reading

variable {α β : Type} (d : Document) (jumps : Nat)

/-! ## Sequences of steps -/

@[simp]
theorem bind_apply (x : Reading α) (f : α → Reading β) :
    (x >>= f) d jumps = (x d jumps).bind fun r => f r.1 d r.2 := rfl

@[simp]
theorem pure_apply (a : α) : (pure a : Reading α) d jumps = some (a, jumps) := rfl

@[simp]
theorem map_apply (f : α → β) (x : Reading α) :
    (f <$> x) d jumps = (x d jumps).map fun r => (f r.1, r.2) :=
  LargeNeighborhood.map_apply jumps f (x d)

@[simp]
theorem failure_apply : (failure : Reading α) d jumps = none := rfl

@[simp]
theorem liftM_apply (x : Option α) :
    (liftM x : Reading α) d jumps = x.map fun a => (a, jumps) :=
  LargeNeighborhood.liftM_apply jumps x

/-! ## Scalars -/

section

variable (tag : Option TagBytes) (style : Style) (text : List Char)

@[simp]
theorem follow_scalar :
    follow (.scalar tag style text) d jumps = some (.scalar tag style text, jumps) :=
  rfl

@[simp]
theorem rawText_scalar :
    rawText (.scalar tag style text) d jumps = some (String.ofList text, jumps) := rfl

@[simp]
theorem content_scalar (depth : Nat) :
    content depth (.scalar tag style text) d jumps =
      (scalarContent tag style text).map fun c => (c, jumps) := by
  rw [content, bind_apply, follow_scalar, Option.bind_some]
  exact liftM_apply d jumps _

end

/-! ## Collections -/

@[simp]
theorem follow_mapping (tag : Option TagBytes) (entries : List (Node × Node)) :
    follow (.mapping tag entries) d jumps = some (.mapping tag entries, jumps) := rfl

@[simp]
theorem follow_sequence (tag : Option TagBytes) (items : List Node) :
    follow (.sequence tag items) d jumps = some (.sequence tag items, jumps) := rfl

end LargeNeighborhood.Yaml.Reading
