import LargeNeighborhood.Yaml.Property

/-!
# YAML tokens

The indicators, properties and scalars of a text, with the block structure that its indentation
implies. A mapping key is only recognised at the colon after it, so the tokens that could start
one are remembered: one candidate per open flow collection, and one for the block around them.
-/

namespace LargeNeighborhood.Yaml

inductive Token
  | directive (directive : Directive)
  | documentStart
  | documentEnd
  | blockSequenceStart
  | blockMappingStart
  | blockEnd
  | flowSequenceStart
  | flowSequenceEnd
  | flowMappingStart
  | flowMappingEnd
  | blockEntry
  | flowEntry
  | key
  | value
  | alias (name : List Char)
  | anchor (name : List Char)
  | tag (handle : List Char) (suffix : TagBytes)
  | scalar (style : Style) (text : List Char)
deriving DecidableEq

structure KeyCandidate where
  /-- The number of tokens before it. -/
  position : Nat
  /-- It must start a key, because nothing else may stand there. -/
  required : Bool
  index : Nat
  line : Nat
  column : Nat

/-- The tokens of the text read so far and what decides about the next ones. -/
structure Tokens where
  taken : Array Token
  /-- The columns of the open blocks, the innermost first. -/
  indents : List Nat
  /-- A mapping key may start here. -/
  keyAllowed : Bool
  /-- The candidates of the open flow collections, the innermost first. -/
  flowKeys : List (Option KeyCandidate)
  /-- The candidate of the innermost block. -/
  blockKey : Option KeyCandidate

namespace Tokens

def start : Tokens where
  taken := #[]
  indents := []
  keyAllowed := true
  flowKeys := []
  blockKey := none

def inFlow (t : Tokens) : Bool :=
  !t.flowKeys.isEmpty

def push (t : Tokens) (token : Token) : Tokens :=
  { t with taken := t.taken.push token }

def allowKey (t : Tokens) (allowed : Bool) : Tokens :=
  { t with keyAllowed := allowed }

def candidate (t : Tokens) : Option KeyCandidate :=
  match t.flowKeys with
  | key :: _ => key
  | [] => t.blockKey

def setCandidate (t : Tokens) (key : Option KeyCandidate) : Tokens :=
  match t.flowKeys with
  | _ :: rest => { t with flowKeys := key :: rest }
  | [] => { t with blockKey := key }

/-- A candidate can no longer be followed by its colon, which must come on its line and within
1024 bytes. -/
def isStale (c : Cursor) (key : KeyCandidate) : Bool :=
  decide (key.line < c.line) || decide (key.index + 1024 < c.index)

/-- Gives up a stale candidate; a required one must not become stale. -/
def refresh (c : Cursor) : Option KeyCandidate → Option (Option KeyCandidate)
  | none => some none
  | some key =>
    if isStale c key then (if key.required then none else some none) else some (some key)

def dropStale (t : Tokens) (c : Cursor) : Option Tokens := do
  return { t with flowKeys := ← t.flowKeys.mapM (refresh c), blockKey := ← refresh c t.blockKey }

def dropCandidate (t : Tokens) : Option Tokens :=
  if t.candidate.any KeyCandidate.required then none else some (t.setCandidate none)

/-- Makes the next token a candidate if a key may start there. -/
def addCandidate (t : Tokens) (c : Cursor) : Option Tokens :=
  if t.keyAllowed then do
    let t ← t.dropCandidate
    return t.setCandidate (some {
      position := t.taken.size
      required := !t.inFlow && t.indents.head? == some c.column
      index := c.index
      line := c.line
      column := c.column })
  else
    some t

/-- Opens a block at a column to the right of the innermost block. Its first token goes to
`position`, which is before a key recognised late. -/
def openBlock (t : Tokens) (column position : Nat) (token : Token) : Tokens :=
  if !t.inFlow && t.indents.head?.all (fun indent => decide (indent < column)) then
    { t with indents := column :: t.indents, taken := t.taken.insertIdxIfInBounds position token }
  else
    t

/-- Closes the blocks to the right of a column, given by their columns from the innermost on. -/
def closeBlocks (column : Nat) : List Nat → Array Token → List Nat × Array Token
  | [], taken => ([], taken)
  | indent :: indents, taken =>
    if column < indent then closeBlocks column indents (taken.push .blockEnd)
    else (indent :: indents, taken)

def closeTo (t : Tokens) (column : Nat) : Tokens :=
  if t.inFlow then t
  else
    let (indents, taken) := closeBlocks column t.indents t.taken
    { t with indents := indents, taken := taken }

def closeAll (t : Tokens) : Tokens :=
  if t.inFlow then t
  else { t with indents := [], taken := t.taken ++ Array.replicate t.indents.length .blockEnd }

/-- Passes over blanks, comments and line breaks. A byte order mark may come first in any line and
takes up a column. A tab counts as a blank only where no key may start; after a line break in a
block one may. -/
def skipToToken (t : Tokens) : Scan Tokens :=
  Scan.loop (fun (t : Tokens) => do
    if (← Scan.cursor).column = 0 ∧ (← Scan.cursor).head? = some '\ufeff' then
      Scan.skip
    Scan.skipWhile fun x => x == ' ' || (x == '\t' && (t.inFlow || !t.keyAllowed))
    Scan.skipComment
    if (← Scan.cursor).holds 0 isBreak then
      let _ ← Scan.takeBreak
      return .inl (if t.inFlow then t else t.allowKey true)
    else
      return .inr t) t

/-- A directive or a document mark: it closes all blocks. -/
def boundary (t : Tokens) : Option Tokens := do
  return (← t.closeAll.dropCandidate).allowKey false

def openFlow (t : Tokens) (token : Token) : Scan Tokens := do
  let t ← t.addCandidate (← Scan.cursor)
  Scan.skip
  return { t with flowKeys := none :: t.flowKeys, keyAllowed := true }.push token

def closeFlow (t : Tokens) (token : Token) : Scan Tokens := do
  let t ← t.dropCandidate
  Scan.skip
  return { t with flowKeys := t.flowKeys.tail, keyAllowed := false }.push token

def flowEntry (t : Tokens) : Scan Tokens := do
  let t ← t.dropCandidate
  Scan.skip
  return (t.allowKey true).push .flowEntry

def blockEntry (t : Tokens) : Scan Tokens := do
  let c ← Scan.cursor
  if !t.inFlow && !t.keyAllowed then failure
  let t ← (t.openBlock c.column t.taken.size .blockSequenceStart).dropCandidate
  Scan.skip
  return (t.allowKey true).push .blockEntry

def explicitKey (t : Tokens) : Scan Tokens := do
  let c ← Scan.cursor
  if !t.inFlow && !t.keyAllowed then failure
  let t ← (t.openBlock c.column t.taken.size .blockMappingStart).dropCandidate
  Scan.skip
  return (t.allowKey !t.inFlow).push .key

/-- A colon before a value. The innermost candidate becomes a key. -/
def value (t : Tokens) : Scan Tokens := do
  match t.candidate with
  | some key =>
    let t := { t with taken := t.taken.insertIdxIfInBounds key.position .key }
    let t := t.openBlock key.column key.position .blockMappingStart
    Scan.skip
    return ((t.setCandidate none).allowKey false).push .value
  | none =>
    let c ← Scan.cursor
    if !t.inFlow && !t.keyAllowed then failure
    let t := t.openBlock c.column t.taken.size .blockMappingStart
    Scan.skip
    return (t.allowKey !t.inFlow).push .value

/-- A token that may start a key and that no key may follow at once. -/
def content (t : Tokens) (token : Scan Token) : Scan Tokens := do
  let t ← t.addCandidate (← Scan.cursor)
  return (t.allowKey false).push (← token)

def blockScalar (t : Tokens) (style : Style) : Scan Tokens := do
  let t ← t.dropCandidate
  let text ← block (style == .folded) t.indents.head?
  return (t.allowKey true).push (.scalar style text)

/-- A plain scalar. A key may follow it on a further line. -/
def plainScalar (t : Tokens) : Scan Tokens := do
  let t ← t.addCandidate (← Scan.cursor)
  let (text, broken) ← plain t.inFlow (t.indents.head?.elim 0 (· + 1))
  return (t.allowKey broken).push (.scalar .plain text)

/-- The indicators that cannot start a plain scalar. -/
def isIndicator (c : Char) : Bool :=
  "-?:,[]\x7b\x7d#&*!|>'\"%@`".toList.contains c

def startsPlain (t : Tokens) (c : Cursor) : Bool :=
  c.head?.any fun x =>
    !(isBlankOrBreak x || isIndicator x) || (x == '-' && !c.holds 1 isBlank) ||
      (!t.inFlow && (x == '?' || x == ':') && !c.blankAt 1)

/-- Takes the next token that starts with a given character. -/
def dispatch (t : Tokens) (c : Cursor) (x : Char) : Scan Tokens := do
  if c.column = 0 ∧ x = '%' then
    let t ← t.boundary
    return t.push (.directive (← directive))
  else if c.atDocumentMark then
    let t ← t.boundary
    Scan.skip
    Scan.skip
    Scan.skip
    return t.push (if x = '-' then .documentStart else .documentEnd)
  else
    match x with
    | '[' => t.openFlow .flowSequenceStart
    | '\x7b' => t.openFlow .flowMappingStart
    | ']' => t.closeFlow .flowSequenceEnd
    | '\x7d' => t.closeFlow .flowMappingEnd
    | ',' => t.flowEntry
    | '*' => t.content (.alias <$> anchorName)
    | '&' => t.content (.anchor <$> anchorName)
    | '!' => t.content ((fun parts => .tag parts.1 parts.2) <$> tag t.inFlow)
    | '\'' => t.content (.scalar .singleQuoted <$> quoted '\'')
    | '"' => t.content (.scalar .doubleQuoted <$> quoted '"')
    | x =>
      if x = '-' ∧ c.blankAt 1 then t.blockEntry
      else if x = '?' ∧ (t.inFlow ∨ c.blankAt 1) then t.explicitKey
      else if x = ':' ∧ (t.inFlow ∨ c.blankAt 1) then t.value
      else if x = '|' ∧ ¬ t.inFlow then t.blockScalar .literal
      else if x = '>' ∧ ¬ t.inFlow then t.blockScalar .folded
      else if t.startsPlain c then t.plainScalar
      else failure

/-- Takes the next token, or ends the blocks at the end of the text. -/
def next (t : Tokens) : Scan (Tokens ⊕ List Token) := do
  let t ← t.skipToToken
  let c ← Scan.cursor
  let t ← t.dropStale c
  let t := t.closeTo c.column
  match c.head? with
  | none => return .inr (← t.boundary).taken.toList
  | some x => return .inl (← t.dispatch c x)

end Tokens

def tokens? (text : List Char) : Option (List Token) :=
  if text.all isAllowed then
    (Scan.loop Tokens.next Tokens.start (Cursor.ofText text)).map Prod.fst
  else
    none

end LargeNeighborhood.Yaml
