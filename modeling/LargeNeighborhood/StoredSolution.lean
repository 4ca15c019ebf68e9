import LargeNeighborhood.Model

/-!
# Stored solutions

An assignment of values to some variables. Entries are kept in order of their variables, one per
variable, so equal assignments are equal values whatever the order of writing.
-/

namespace LargeNeighborhood

/-- A list of variables with their values, in strictly increasing order of the variables. -/
structure StoredSolution where
  entries : List (VarId × Int32)
  increasing : entries.Pairwise fun a b => a.1.index < b.1.index
deriving DecidableEq

namespace StoredSolution

/-- Writes an entry into an ordered list, replacing the entry of the same variable. -/
def insertEntry (var : VarId) (value : Int32) : List (VarId × Int32) → List (VarId × Int32)
  | [] => [(var, value)]
  | (other, old) :: rest =>
    if var.index < other.index then
      (var, value) :: (other, old) :: rest
    else if var.index = other.index then
      (var, value) :: rest
    else
      (other, old) :: insertEntry var value rest

theorem mem_insertEntry {var : VarId} {value : Int32} {entries : List (VarId × Int32)}
    {entry : VarId × Int32} (h : entry ∈ insertEntry var value entries) :
    entry = (var, value) ∨ entry ∈ entries := by
  induction entries with
  | nil => simpa [insertEntry] using h
  | cons head rest ih =>
    simp only [insertEntry] at h
    split at h
    · simpa using h
    · split at h
      · rcases List.mem_cons.1 h with h | h
        · exact .inl h
        · exact .inr (List.mem_cons_of_mem _ h)
      · rcases List.mem_cons.1 h with h | h
        · exact .inr (h ▸ List.mem_cons_self)
        · exact (ih h).imp_right (List.mem_cons_of_mem _)

theorem increasing_insertEntry (var : VarId) (value : Int32) {entries : List (VarId × Int32)}
    (h : entries.Pairwise fun a b => a.1.index < b.1.index) :
    (insertEntry var value entries).Pairwise fun a b => a.1.index < b.1.index := by
  induction entries with
  | nil => exact List.pairwise_singleton ..
  | cons head rest ih =>
    obtain ⟨below, ordered⟩ := List.pairwise_cons.1 h
    simp only [insertEntry]
    split
    · refine List.pairwise_cons.2 ⟨?_, h⟩
      intro entry member
      rcases List.mem_cons.1 member with rfl | member
      · assumption
      · have := below entry member
        simp only at *
        omega
    · split
      · refine List.pairwise_cons.2 ⟨?_, ordered⟩
        intro entry member
        have := below entry member
        simp only at *
        omega
      · refine List.pairwise_cons.2 ⟨?_, ih ordered⟩
        intro entry member
        rcases mem_insertEntry member with rfl | member
        · simp only at *
          omega
        · exact below entry member

def empty : StoredSolution := ⟨[], List.Pairwise.nil⟩

instance : Inhabited StoredSolution := ⟨empty⟩

def insert (s : StoredSolution) (var : VarId) (value : Int32) : StoredSolution :=
  ⟨insertEntry var value s.entries, increasing_insertEntry var value s.increasing⟩

/-- Stores pairs in order; a later value replaces an earlier one. -/
def ofList (pairs : List (VarId × Int32)) : StoredSolution :=
  pairs.foldl (fun s (var, value) => s.insert var value) empty

def value? (s : StoredSolution) (var : VarId) : Option Int32 :=
  s.entries.lookup var

def size (s : StoredSolution) : Nat :=
  s.entries.length

def isEmpty (s : StoredSolution) : Bool :=
  s.entries.isEmpty

def instantiated (m : Model) : List VarId → Checked (List (VarId × Int32))
  | [] => return []
  | var :: vars => do
    let value? ← m.value var
    let rest ← instantiated m vars
    return match value? with
      | some value => (var, value) :: rest
      | none => rest

/-- Captures the instantiated ones among some variables of a model. -/
def record (m : Model) (vars : List VarId) : Checked StoredSolution :=
  return ofList (← instantiated m vars)

end StoredSolution

end LargeNeighborhood
