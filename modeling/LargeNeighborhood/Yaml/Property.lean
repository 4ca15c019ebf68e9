import LargeNeighborhood.Yaml.Scalar

/-!
# YAML node properties and directives

Anchors, aliases and tags of nodes, and the directives before a document.
-/

namespace LargeNeighborhood.Yaml

def anchorName : Scan (List Char) := do
  Scan.skip
  let name ← Scan.takeWhile isNameChar
  let c ← Scan.cursor
  if name.isEmpty then failure
  else if c.blankAt 0 || c.holds 0 "?:,]\x7d%@`".toList.contains then return name
  else failure

/-- The characters of tags; flow indicators are among them where no flow collection can end. -/
def isUriChar (wide : Bool) (c : Char) : Bool :=
  isNameChar c || ";/?:@&=+$.%!~*'()".toList.contains c || (wide && ",[]".toList.contains c)

/-- Tags are compared by their bytes, which need not encode a text. -/
abbrev TagBytes := List UInt8

def tagBytes (text : String) : TagBytes :=
  text.toList.flatMap String.utf8EncodeChar

/-- A tag ends before its first zero byte. -/
def TagBytes.cut (bytes : TagBytes) : TagBytes :=
  bytes.takeWhile (· != 0)

def furtherBytes (first : UInt8) : Option Nat :=
  if first < 0x80 then some 0
  else if first &&& 0xe0 = 0xc0 then some 1
  else if first &&& 0xf0 = 0xe0 then some 2
  else if first &&& 0xf8 = 0xf0 then some 3
  else none

def escapedByte : Scan UInt8 := do
  if (← Scan.take) ≠ '%' then failure
  let digits := [← Scan.take, ← Scan.take]
  return UInt8.ofNat (← digits? 16 digits)

def escapedBytes : (count : Nat) → Scan TagBytes
  | 0 => return []
  | count + 1 => do
    let byte ← escapedByte
    if byte &&& 0xc0 = 0x80 then return byte :: (← escapedBytes count) else failure

/-- The percent-escaped bytes of a character. Only their number and their marks are checked. -/
def uriEscape : Scan TagBytes := do
  let first ← escapedByte
  return first :: (← escapedBytes (← furtherBytes first))

/-- The characters of a tag, all of which are ASCII or escaped. -/
def uri (wide : Bool) : Scan TagBytes :=
  Scan.loop (fun (taken : TagBytes) => do
    match (← Scan.cursor).head? with
    | some '%' => return .inl ((← uriEscape).reverse ++ taken)
    | some c =>
      if isUriChar wide c then
        Scan.skip
        return .inl (c.toUInt8 :: taken)
      else
        return .inr taken.reverse
    | none => return .inr taken.reverse) []

/-- A tag handle: an exclamation mark, or a name between two of them. In a directive a name must be
closed. -/
def tagHandle (directive : Bool) : Scan (List Char) := do
  if (← Scan.take) ≠ '!' then failure
  let name ← Scan.takeWhile isNameChar
  if (← Scan.cursor).head? = some '!' then
    Scan.skip
    return '!' :: name ++ ['!']
  else if directive && !name.isEmpty then
    failure
  else
    return '!' :: name

/-- A tag as a handle and a suffix. Without a suffix, an exclamation mark is a tag of its own. -/
def tagParts : Scan (List Char × TagBytes) := do
  if (← Scan.cursor).at? 1 = some '<' then
    Scan.skip
    Scan.skip
    let suffix ← uri true
    if suffix.isEmpty || (← Scan.take) != '>' then failure
    return ([], suffix.cut)
  else
    let handle ← tagHandle false
    if 1 < handle.length ∧ handle.getLast? = some '!' then
      let suffix ← uri false
      if suffix.isEmpty then failure
      return (handle, suffix.cut)
    else
      let suffix := TagBytes.cut (handle.tail.map Char.toUInt8 ++ (← uri false))
      if suffix.isEmpty then return ([], tagBytes "!") else return (['!'], suffix)

/-- A tag, which ends at a blank or, in a flow collection, at a comma. -/
def tag (flow : Bool) : Scan (List Char × TagBytes) := do
  let parts ← tagParts
  let c ← Scan.cursor
  if (flow && c.head? = some ',') || c.blankAt 0 then return parts else failure

def versionNumber : Scan Nat := do
  let digits ← Scan.takeWhile Char.isDigit
  if digits.length ≤ 9 then digits? 10 digits else failure

inductive Directive
  | version (major minor : Nat)
  | tag (handle : List Char) (uri : TagBytes)
deriving DecidableEq

def directive : Scan Directive := do
  Scan.skip
  let name ← Scan.takeWhile isNameChar
  if !(← Scan.cursor).blankAt 0 then failure
  Scan.skipWhile isBlank
  if name = "YAML".toList then
    let major ← versionNumber
    if (← Scan.take) ≠ '.' then failure
    let minor ← versionNumber
    restOfLine
    return .version major minor
  else if name = "TAG".toList then
    let handle ← tagHandle true
    if !(← Scan.cursor).holds 0 isBlank then failure
    Scan.skipWhile isBlank
    let uri ← uri true
    if uri.isEmpty || !(← Scan.cursor).blankAt 0 then failure
    restOfLine
    return .tag handle uri.cut
  else
    failure

end LargeNeighborhood.Yaml
