import LargeNeighborhood.Config.Content
import LargeNeighborhood.Toml.Document

/-!
# Configurations in TOML

Reading takes the seed and the neighborhood from the root table and passes over other keys.
Writing fails for a seed that does not fit a signed 64-bit integer.
-/

namespace LargeNeighborhood

namespace Toml

mutual

/-- The content of an item. A date or time is a mapping with a key of its own. -/
def Item.content : Item → Content
  | .text value => .text value
  | .integer value => .signed value
  | .float value => .float value
  | .boolean value => .boolean value
  | .moment written => .map [(.text "moment", .text written)]
  | .array items => .list (contents items)
  | .table _ entries => .map (entriesContent entries)
  | .tables elements => .list (elementsContent elements)

def contents : List Item → List Content
  | [] => []
  | item :: items => item.content :: contents items

def entriesContent : List (String × Item) → List (Content × Content)
  | [] => []
  | (key, item) :: entries => (.text key, item.content) :: entriesContent entries

def elementsContent : List (List (String × Item)) → List Content
  | [] => []
  | entries :: elements => .map (entriesContent entries) :: elementsContent elements

end

def Item.seed? : Item → Option UInt64
  | .integer value => if 0 ≤ value then some (UInt64.ofNat value.toNat) else none
  | _ => none

end Toml

namespace Config

def ofTomlEntries (root : Toml.Entries) : Option Config := do
  let seed ← (root.lookup "random_seed").mapM Toml.Item.seed?
  ofParts seed ((root.lookup "neighbor").map Toml.Item.content)

def ofToml? (text : String) : Option Config := do
  ofTomlEntries (← Toml.parse text)

/-- Doubles in TOML are positional and keep a point. -/
def tomlFloat : FloatText where
  nan := "nan"
  infinity := "inf"
  pointed := true
  positional := none
  tie := .up

def tomlNeighborhood (s : Settings) : List Char :=
  "[neighbor]\ntype = \"".toList ++ kind.toList ++ "\"\nprop_fix_values = ".toList ++
    tomlFloat.chars s.proportion ++ "\nlevel = ".toList ++ Nat.toDigits 10 s.level.toNat ++ ['\n']

/-- The TOML text of a configuration; none if the seed is too large. -/
def toToml? (c : Config) : Option String :=
  match c.seed with
  | none => some (String.ofList (tomlNeighborhood c.settings))
  | some seed =>
    if seed.toNat ≤ Int64.maxValue.toInt then
      some (String.ofList ("random_seed = ".toList ++ Nat.toDigits 10 seed.toNat ++ "\n\n".toList ++
        tomlNeighborhood c.settings))
    else
      none

end Config

end LargeNeighborhood
