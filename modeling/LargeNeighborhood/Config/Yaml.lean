import LargeNeighborhood.Yaml.Resolve

/-!
# Configurations in YAML

Reading follows the aliases of what it needs, up to a number of jumps proportional to the size of
the document and up to a depth of nesting. The values of unknown keys at the root are passed over
unseen. Writing always succeeds.
-/

namespace LargeNeighborhood

namespace Yaml

/-- How deep the collections that are read may nest. -/
def depthLimit : Nat := 128

/-- A reading of a document, with the number of alias jumps it may still make. -/
abbrev Reading := ReaderT Document (StateT Nat Option)

namespace Reading

def follow (node : Node) : Reading Node := do
  match node with
  | .alias number =>
    match ← get with
    | 0 => failure
    | jumps + 1 =>
      set jumps
      (← read).resolve number
  | node => return node

def rawText (node : Node) : Reading String := do
  match ← follow node with
  | .scalar _ _ text => return String.ofList text
  | _ => failure

/-- The content of a node with at most `depth` levels of collections. -/
def content : (depth : Nat) → Node → Reading Content
  | depth, node => do
    match ← follow node with
    | .scalar tag style text => scalarContent tag style text
    | .sequence tag items =>
      match depth with
      | 0 => failure
      | depth + 1 =>
        if isLocal tag then failure
        return .list (← items.mapM (content depth))
    | .mapping tag entries =>
      match depth with
      | 0 => failure
      | depth + 1 =>
        if isLocal tag then failure
        return .map (← entries.mapM fun entry => do
          return (← content depth entry.1, ← content depth entry.2))
    | .alias _ => failure

/-- The content of a neighborhood: the text that names its kind is taken as it is written. -/
def neighborhood (depth : Nat) (node : Node) : Reading Content := do
  match ← follow node with
  | .mapping tag entries =>
    if isLocal tag then failure
    return .map (← entries.mapM fun entry => do
      let key ← content depth entry.1
      if key.isKindKey then
        return (key, .text (← rawText entry.2))
      else
        return (key, ← content depth entry.2))
  | .sequence tag (kind :: items) =>
    if isLocal tag then failure
    return .list (.text (← rawText kind) :: (← items.mapM (content depth)))
  | _ => failure

/-- A seed: null for none, or an unsigned integer that is plain or tagged as an integer. -/
def seed (node : Node) : Reading (Option UInt64) := do
  match ← follow node with
  | .scalar tag style text =>
    if style = .plain ∧ tag = some (coreTag "null") then
      if isNull text then return none else failure
    else if style = .plain ∧ tag = none ∧ (text.isEmpty ∨ isNull text) then
      return none
    else if style = .plain ∨ (style = .literal ∧ tag = some (coreTag "int")) then
      let n ← unsigned? text
      if n < UInt64.size then return some (UInt64.ofNat n) else failure
    else
      failure
  | _ => failure

structure Parts where
  seed : Option (Option UInt64)
  neighborhood : Option Content

/-- Reads one entry of the root. A known key must not come twice. -/
def entry (parts : Parts) (entry : Node × Node) : Reading Parts := do
  match ← rawText entry.1 with
  | "random_seed" =>
    if parts.seed.isSome then failure
    return { parts with seed := some (← seed entry.2) }
  | "neighbor" =>
    if parts.neighborhood.isSome then failure
    return { parts with neighborhood := some (← neighborhood (depthLimit - 2) entry.2) }
  | _ => return parts

def config (root : Option Node) : Reading Config := do
  match root with
  | none | some (.scalar _ .plain []) => return .standard
  | some (.mapping _ entries) =>
    let parts ← entries.foldlM entry ⟨none, none⟩
    Config.ofParts (parts.seed.getD none) parts.neighborhood
  | some _ => failure

end Reading

end Yaml

namespace Config

def ofYamlDocument (document : Yaml.Document) : Option Config :=
  let parts := (document.root.map Yaml.Node.parts).getD 0
  (Yaml.Reading.config document.root document (100 * parts)).map Prod.fst

def ofYaml? (text : String) : Option Config := do
  ofYamlDocument (← Yaml.Document.parse text)

/-- Doubles in YAML keep a point and take an exponent far from one. -/
def yamlFloat : FloatText where
  nan := ".nan"
  infinity := ".inf"
  pointed := true
  positional := some (-4, 16)
  tie := .even

def toYaml (c : Config) : String :=
  let seed :=
    match c.seed with
    | none => "null".toList
    | some seed => Nat.toDigits 10 seed.toNat
  String.ofList ("random_seed: ".toList ++ seed ++ "\nneighbor:\n  type: ".toList ++ kind.toList ++
    "\n  prop_fix_values: ".toList ++ yamlFloat.chars c.settings.proportion ++
    "\n  level: ".toList ++ Nat.toDigits 10 c.settings.level.toNat ++ ['\n'])

end Config

end LargeNeighborhood
