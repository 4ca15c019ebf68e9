import LargeNeighborhood.Config.Basic

/-!
# Configuration content

The tree in which both text formats hand over the settings of a neighborhood: a mapping or a list
that names the kind of neighborhood, then its settings. Settings that are left out take their
standard values; settings given twice, and lists that are too long, are refused.
-/

namespace LargeNeighborhood

inductive Content
  | null
  | boolean (value : Bool)
  /-- An integer that was written or stored without a sign. -/
  | unsigned (value : Nat)
  | signed (value : Int)
  | float (value : Binary64)
  | text (value : String)
  | list (items : List Content)
  | map (entries : List (Content × Content))

namespace Content

/-- Numbers of every form can be read as a double. -/
def double? : Content → Option Binary64
  | .float x => some x
  | .unsigned n => some (Binary64.ofNat n)
  | .signed i => some (Binary64.ofInt i)
  | _ => none

/-- An integer of either form, from zero to the largest 32-bit word. -/
def word32? : Content → Option UInt32
  | .unsigned n => if n < UInt32.size then some (UInt32.ofNat n) else none
  | .signed i => if 0 ≤ i ∧ i < UInt32.size then some (UInt32.ofNat i.toNat) else none
  | _ => none

def isKindKey : Content → Bool
  | .text key => key == "type"
  | _ => false

end Content

namespace Settings

inductive Field
  | proportion
  | level
  | unknown

/-- A setting is named by its key or by its place. Keys of other forms are refused. -/
def Field.ofKey : Content → Option Field
  | .text "prop_fix_values" | .unsigned 0 => some .proportion
  | .text "level" | .unsigned 1 => some .level
  | .text _ | .unsigned _ => some .unknown
  | _ => none

structure Given where
  proportion : Option Binary64
  level : Option UInt32

/-- The standard values take the place of what was not given. -/
def Given.complete (given : Given) : Settings where
  proportion := given.proportion.getD standard.proportion
  level := given.level.getD standard.level

def Given.add (given : Given) (entry : Content × Content) : Option Given := do
  match ← Field.ofKey entry.1, given with
  | .proportion, ⟨none, level⟩ => return ⟨some (← entry.2.double?), level⟩
  | .level, ⟨proportion, none⟩ => return ⟨proportion, some (← entry.2.word32?)⟩
  | .unknown, given => return given
  | _, _ => none

def ofEntries (entries : List (Content × Content)) : Option Settings := do
  return (← entries.foldlM Given.add ⟨none, none⟩).complete

def ofItems : List Content → Option Settings
  | [] => some standard
  | [proportion] => do return ⟨← proportion.double?, standard.level⟩
  | [proportion, level] => do return ⟨← proportion.double?, ← level.word32?⟩
  | _ => none

/-- The settings of a neighborhood whose kind is named by a key or in the first place. -/
def ofContent : Content → Option Settings
  | .map entries =>
    match entries.filter fun entry => entry.1.isKindKey with
    | [(_, .text kind)] =>
      if kind = Config.kind then
        ofEntries (entries.filter fun entry => !entry.1.isKindKey)
      else
        none
    | _ => none
  | .list (.text kind :: rest) => if kind = Config.kind then ofItems rest else none
  | _ => none

end Settings

/-- A configuration from its seed and the content of its neighborhood, if they are given. -/
def Config.ofParts (seed : Option UInt64) (neighborhood : Option Content) : Option Config :=
  match neighborhood with
  | none => some ⟨seed, .standard⟩
  | some content => do return ⟨seed, ← Settings.ofContent content⟩

end LargeNeighborhood
