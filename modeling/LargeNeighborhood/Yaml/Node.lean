import LargeNeighborhood.Yaml.Token

/-!
# YAML nodes

The tree of a document. Aliases stay in the tree as numbers; the nodes they stand for are kept
beside it, because a node may contain an alias of itself. An anchor gets as its number how many
names there were before it, and a number stands for the last node that got it.
-/

namespace LargeNeighborhood.Yaml

inductive Node
  | alias (number : Nat)
  | scalar (tag : Option TagBytes) (style : Style) (text : List Char)
  | sequence (tag : Option TagBytes) (items : List Node)
  | mapping (tag : Option TagBytes) (entries : List (Node × Node))

/-- An anchored node with its number and its place among the anchored nodes. -/
structure Anchored where
  number : Nat
  place : Nat
  node : Node

/-- The tokens to come and the anchors so far. -/
structure Pending where
  tokens : List Token
  /-- The texts that tag handles stand for. -/
  handles : List (List Char × TagBytes)
  /-- The number each anchor name stands for. -/
  names : List (List Char × Nat)
  /-- How many anchored nodes have begun. -/
  begun : Nat
  anchored : List Anchored

abbrev Build := StateT Pending Option

namespace Build

def peek : Build (Option Token) := do
  return (← get).tokens.head?

def advance : Build Unit :=
  modify fun p => { p with tokens := p.tokens.tail }

def skipIf (token : Token) : Build Bool := do
  if (← peek) = some token then
    advance
    return true
  else
    return false

def nextIn (tokens : List Token) : Build Bool := do
  return (← peek).any tokens.contains

/-- Repeats a step until it ends with a result; every round that goes on takes a token. -/
def loop (step : σ → Build (σ ⊕ α)) (state : σ) : Build α :=
  fun p => rounds step (p.tokens.length + 1) state p

def aliasNumber (name : List Char) : Build Nat := do
  (← get).names.lookup name

def begin? : Option (List Char) → Build (Option (Nat × Nat))
  | none => return none
  | some name => do
    let p ← get
    let number := p.names.length
    let others := p.names.filter fun entry => entry.1 != name
    set { p with names := (name, number) :: others, begun := p.begun + 1 }
    return some (number, p.begun)

def finish (begun : Option (Nat × Nat)) (node : Node) : Build Node := do
  match begun with
  | none => return node
  | some (number, place) =>
    modify fun p => { p with anchored := ⟨number, place, node⟩ :: p.anchored }
    return node

/-- The bytes of a tag. An empty handle stands for nothing. -/
def resolveTag (handle : List Char) (suffix : TagBytes) : Build TagBytes := do
  if handle.isEmpty then
    return suffix
  else
    return (← (← get).handles.lookup handle) ++ suffix

def anchor? : Build (Option (List Char)) := do
  match ← peek with
  | some (.anchor name) => advance; return some name
  | _ => return none

def tag? : Build (Option TagBytes) := do
  match ← peek with
  | some (.tag handle suffix) => advance; return some (← resolveTag handle suffix)
  | _ => return none

def properties : Build (Option (List Char) × Option TagBytes) := do
  match ← anchor? with
  | some name => return (some name, ← tag?)
  | none =>
    match ← tag? with
    | some tag => return (← anchor?, some tag)
    | none => return (none, none)

end Build

def Node.absent : Node := .scalar none .plain []

namespace Build

/-- A node, unless one of the tokens that can only follow it comes next. -/
def nodeUnless (after : List Token) (node : Build Node) : Build Node := do
  if ← nextIn after then return Node.absent else node

/-- A value after its colon. Without a colon there is no value. -/
def valueUnless (after : List Token) (node : Build Node) : Build Node := do
  if ← skipIf .value then nodeUnless after node else return Node.absent

def blockItems (node : Build Node) : Build (List Node) :=
  loop (fun (items : List Node) => do
    if ← skipIf .blockEntry then
      return .inl ((← nodeUnless [.blockEntry, .blockEnd] node) :: items)
    else if ← skipIf .blockEnd then
      return .inr items.reverse
    else
      failure) []

/-- The entries of a block sequence that is no deeper than the mapping around it. -/
def flushItems (node : Build Node) : Build (List Node) :=
  loop (fun (items : List Node) => do
    if ← skipIf .blockEntry then
      return .inl ((← nodeUnless [.blockEntry, .key, .value, .blockEnd] node) :: items)
    else
      return .inr items.reverse) []

def blockEntries (node : Build Node) : Build (List (Node × Node)) :=
  loop (fun (entries : List (Node × Node)) => do
    let after := [Token.key, .value, .blockEnd]
    if ← skipIf .key then
      let key ← nodeUnless after node
      let value ← valueUnless after node
      return .inl ((key, value) :: entries)
    else if ← skipIf .blockEnd then
      return .inr entries.reverse
    else
      failure) []

/-- A single pair in a flow sequence. If its key is absent the token in its place is lost. -/
def flowPair (node : Build Node) : Build (Node × Node) := do
  let key ←
    if ← nextIn [.value, .flowEntry, .flowSequenceEnd] then
      advance
      pure Node.absent
    else
      node
  return (key, ← valueUnless [.flowEntry, .flowSequenceEnd] node)

def separator (first : Bool) : Build Unit := do
  if !first then
    if !(← skipIf .flowEntry) then failure

def flowItems (node : Build Node) : Build (List Node) :=
  loop (fun (items : List Node) => do
    if ← skipIf .flowSequenceEnd then
      return .inr items.reverse
    else
      separator items.isEmpty
      if ← skipIf .flowSequenceEnd then
        return .inr items.reverse
      else if ← skipIf .key then
        return .inl (.mapping none [← flowPair node] :: items)
      else
        return .inl ((← node) :: items)) []

def flowEntries (node : Build Node) : Build (List (Node × Node)) :=
  loop (fun (entries : List (Node × Node)) => do
    if ← skipIf .flowMappingEnd then
      return .inr entries.reverse
    else
      separator entries.isEmpty
      let after := [Token.flowEntry, .flowMappingEnd]
      if ← skipIf .flowMappingEnd then
        return .inr entries.reverse
      else if ← skipIf .key then
        let key ← nodeUnless (.value :: after) node
        let value ← valueUnless after node
        return .inl ((key, value) :: entries)
      else
        return .inl ((← node, Node.absent) :: entries)) []

/-- Where a node stands: in a flow collection, in a block, or in a block mapping, whose sequences
need no indentation. -/
inductive Place
  | flow
  | block
  | flush
deriving DecidableEq

def node : (depth : Nat) → Place → Build Node
  | 0, _ => failure
  | depth + 1, place => do
    match ← peek with
    | some (.alias name) =>
      advance
      return .alias (← aliasNumber name)
    | _ =>
      let (name, tag) ← properties
      let begun ← begin? name
      match ← peek with
      | some (.scalar style text) =>
        advance
        finish begun (.scalar tag style text)
      | some .flowSequenceStart =>
        advance
        finish begun (.sequence tag (← flowItems (node depth .flow)))
      | some .flowMappingStart =>
        advance
        finish begun (.mapping tag (← flowEntries (node depth .flow)))
      | next =>
        if place = .flush ∧ next = some .blockEntry then
          finish begun (.sequence tag (← flushItems (node depth .block)))
        else if place ≠ .flow ∧ next = some .blockSequenceStart then
          advance
          finish begun (.sequence tag (← blockItems (node depth .block)))
        else if place ≠ .flow ∧ next = some .blockMappingStart then
          advance
          finish begun (.mapping tag (← blockEntries (node depth .flush)))
        else if name.isSome ∨ tag.isSome then
          finish begun (.scalar tag .plain [])
        else
          failure

/-- The directives of a document: at most one version, which must be known, and handles given
once each. -/
def directives : Build (Bool × List (List Char × TagBytes)) :=
  loop (fun ((versioned, handles) : Bool × List (List Char × TagBytes)) => do
    match ← peek with
    | some (.directive (.version major minor)) =>
      if versioned || major != 1 || (minor != 1 && minor != 2) then failure
      advance
      return .inl (true, handles)
    | some (.directive (.tag handle uri)) =>
      if (handles.lookup handle).isSome then failure
      advance
      return .inl (versioned, handles ++ [(handle, uri)])
    | _ => return .inr (versioned, handles)) (false, [])

def commonHandles : List (List Char × TagBytes) :=
  [(['!'], tagBytes "!"), (['!', '!'], tagBytes "tag:yaml.org,2002:")]

def root : Build (Option Node) := do
  let depth := (← get).tokens.length + 1
  match ← peek with
  | none => return none
  | some (.directive _) | some .documentStart =>
    let (_, handles) ← directives
    if !(← skipIf .documentStart) then failure
    modify fun p => { p with handles := handles ++ commonHandles }
    let next ← peek
    if next = none ∨ next = some .documentStart ∨ next = some .documentEnd then
      return some Node.absent
    else
      match next with
      | some (.directive _) => return some Node.absent
      | _ => return some (← node depth .block)
  | some _ => return some (← node depth .block)

def document : Build (Option Node) := do
  let root ← root
  loop (fun () => do
    if ← skipIf .documentEnd then return .inl () else return .inr ()) ()
  match root, ← peek with
  | root, none => return root
  | _, some _ => failure

end Build

/-- A document: its tree, if there is one, and its anchored nodes. -/
structure Document where
  root : Option Node
  anchored : List Anchored

namespace Document

def parse (text : String) : Option Document := do
  let tokens ← tokens? text.toList
  let (root, p) ← Build.document ⟨tokens, Build.commonHandles, [], 0, []⟩
  return ⟨root, p.anchored⟩

/-- The node a number stands for: the last one that got it. -/
def resolve (d : Document) (number : Nat) : Option Node :=
  let holders := d.anchored.filter fun a => a.number = number
  (holders.foldl (fun best a =>
    match best with
    | some b => if b.place < a.place then some a else best
    | none => some a) none).map Anchored.node

end Document

mutual

/-- The number of parts a node was put together from: one per scalar and alias, two per collection
beside its parts. -/
def Node.parts : Node → Nat
  | .alias _ => 1
  | .scalar .. => 1
  | .sequence _ items => 2 + itemsParts items
  | .mapping _ entries => 2 + entriesParts entries

def itemsParts : List Node → Nat
  | [] => 0
  | item :: items => item.parts + itemsParts items

def entriesParts : List (Node × Node) → Nat
  | [] => 0
  | (key, value) :: entries => key.parts + value.parts + entriesParts entries

end

end LargeNeighborhood.Yaml
