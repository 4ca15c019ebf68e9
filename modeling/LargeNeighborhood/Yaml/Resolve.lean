import LargeNeighborhood.Config.Content
import LargeNeighborhood.Text.Digits
import LargeNeighborhood.Text.Reader
import LargeNeighborhood.Yaml.Node

/-!
# Values of YAML scalars

Which texts of plain scalars are nulls, booleans, integers and floats, and how a tag overrides
that. Integers that need more than 64 bits have no value here unless they can be read as floats.
-/

namespace LargeNeighborhood.Yaml

def isNull (text : List Char) : Bool :=
  ["null", "Null", "NULL", "~"].any fun word => text == word.toList

def boolean? (text : List Char) : Option Bool :=
  if ["true", "True", "TRUE"].any fun word => text == word.toList then some true
  else if ["false", "False", "FALSE"].any fun word => text == word.toList then some false
  else none

def startsWithSign (text : List Char) : Bool :=
  text.head?.any fun c => c == '+' || c == '-'

/-- Several digits of which the first is a zero, after an optional sign. Such a text is no
number. -/
def hasLeadingZero (text : List Char) : Bool :=
  match if startsWithSign text then text.tail else text with
  | '0' :: c :: rest => (c :: rest).all Char.isDigit
  | _ => false

/-- The size of an integer after its sign, in one of four bases. -/
def size? : List Char → Option Nat
  | '0' :: 'x' :: digits => digits? 16 digits
  | '0' :: 'o' :: digits => digits? 8 digits
  | '0' :: 'b' :: digits => digits? 2 digits
  | digits => digits? 10 digits

def unsigned? (text : List Char) : Option Nat :=
  if hasLeadingZero text then none
  else
    match text with
    | '+' :: rest => size? rest
    | text => size? text

def negative? (text : List Char) : Option Nat :=
  if hasLeadingZero text then none
  else
    match text with
    | '-' :: rest => size? rest
    | _ => none

/-- Digits with an optional point among them and an optional exponent. -/
def decimal : Reader Decimal := do
  let whole ← Reader.takeWhile Char.isDigit
  let fraction ←
    if ← Reader.startsWith ['.'] then
      Reader.char '.'
      Reader.takeWhile Char.isDigit
    else
      pure []
  if whole.isEmpty && fraction.isEmpty then failure
  let exponent : Int ←
    match ← Reader.peek with
    | some 'e' | some 'E' =>
      let _ ← Reader.next
      let negative ←
        match ← Reader.peek with
        | some '-' => Reader.char '-'; pure true
        | some '+' => Reader.char '+'; pure false
        | _ => pure false
      let size ← digits? 10 (← Reader.takeWhile Char.isDigit)
      pure (if negative then -(size : Int) else size)
    | _ => pure 0
  return ⟨ofDigits 10 (whole ++ fraction), exponent - fraction.length⟩

def float? (text : List Char) : Option Binary64 :=
  let bare := if text.head? = some '+' then text.tail else text
  if text.head? = some '+' ∧ startsWithSign bare then none
  else if [".inf", ".Inf", ".INF"].any fun word => bare == word.toList then
    some (.infinite false)
  else if ["-.inf", "-.Inf", "-.INF"].any fun word => text == word.toList then
    some (.infinite true)
  else if [".nan", ".NaN", ".NAN"].any fun word => text == word.toList then
    some .nan
  else
    let negative := bare.head? = some '-'
    match Reader.readAll decimal (if negative then bare.tail else bare) with
    | none => none
    | some d =>
      match Binary64.ofDecimal negative d with
      | .infinite _ => none
      | x => some x

/-- An integer; none if the text is no integer, and no value if it is between 64 and 128 bits. -/
def integer? (text : List Char) : Option (Option Content) :=
  match unsigned? text, negative? text with
  | some n, _ =>
    if n < UInt64.size then some (some (.unsigned n))
    else if n.log2 < 128 then some none
    else none
  | none, some n =>
    if Int64.minValue.toInt ≤ -(n : Int) then some (some (.signed (-(n : Int))))
    else if (n - 1).log2 < 127 then some none
    else none
  | none, none => none

def plainContent (text : List Char) : Option Content :=
  if text.isEmpty || isNull text then some .null
  else
    match boolean? text, integer? text with
    | some b, _ => some (.boolean b)
    | none, some content => content
    | none, none =>
      match if hasLeadingZero text then none else float? text with
      | some x => some (.float x)
      | none => some (.text (String.ofList text))

/-- A tag that starts with an exclamation mark. -/
def isMarked (tag : TagBytes) : Bool :=
  tag.head? == some '!'.toUInt8

/-- A tag of the application's own: it starts with an exclamation mark and is a text. -/
def isLocal (tag : Option TagBytes) : Bool :=
  tag.any fun tag => isMarked tag && (String.fromUTF8? ⟨tag.toArray⟩).isSome

def coreTag (name : String) : TagBytes :=
  tagBytes ("tag:yaml.org,2002:" ++ name)

/-- The value of a scalar. Some tags of the core schema ask for a value of their kind, and tags of
the application's own have no value. Beside other tags only a plain scalar can be more than a text,
if its tag starts with an exclamation mark. -/
def scalarContent (tag : Option TagBytes) (style : Style) (text : List Char) : Option Content :=
  match tag with
  | none => if style = .plain then plainContent text else some (.text (String.ofList text))
  | some tag =>
    if isLocal (some tag) then none
    else if tag = coreTag "bool" then (boolean? text).map .boolean
    else if tag = coreTag "int" then (integer? text).join
    else if tag = coreTag "float" then (float? text).map .float
    else if tag = coreTag "null" then (if isNull text then some .null else none)
    else if isMarked tag ∧ style = .plain then plainContent text
    else some (.text (String.ofList text))

end LargeNeighborhood.Yaml
