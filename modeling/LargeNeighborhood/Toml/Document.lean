import LargeNeighborhood.Toml.Moment
import LargeNeighborhood.Toml.Number
import LargeNeighborhood.Toml.Quoted

/-!
# TOML documents

Keys, values and lines. Arrays and inline tables nest up to a fixed depth, and a dotted key has
fewer parts than a fixed bound.
-/

namespace LargeNeighborhood.Toml

/-- The depth at which arrays and inline tables are refused, and as many parts of a key. -/
def nestingLimit : Nat := 80

def isBareKeyChar (c : Char) : Bool :=
  c.isAlphanum || c == '_' || c == '-'

def skipBlanks : Reader Unit :=
  Reader.skipWhile isBlank

def keyPart : Reader String := do
  match ← Reader.peek with
  | some '"' | some '\'' => quoted
  | _ =>
    let c ← Reader.satisfy isBareKeyChar
    return String.ofList (c :: (← Reader.takeWhile isBareKeyChar))

/-- A key: the parts before the last one, and the last one. -/
def key : Reader (List String × String) := do
  let (path, last) ← Reader.loop (fun (taken : List String) => do
    skipBlanks
    let part ← keyPart
    skipBlanks
    if ← Reader.startsWith ['.'] then
      Reader.char '.'
      return .inl (part :: taken)
    else
      return .inr (taken.reverse, part)) []
  if path.length + 1 < nestingLimit then return (path, last) else failure

/-- Drops blanks, line ends and comments; `comment` says whether the text starts in a comment. -/
def dropTrivia : (comment : Bool) → List Char → List Char
  | _, '\n' :: rest => dropTrivia false rest
  | _, '\r' :: '\n' :: rest => dropTrivia false rest
  | true, c :: rest => if isCommentChar c then dropTrivia true rest else c :: rest
  | false, c :: rest =>
    if isBlank c then dropTrivia false rest
    else if c = '#' then dropTrivia true rest
    else c :: rest
  | _, [] => []

def skipTrivia : Reader Unit :=
  fun cs => some ((), dropTrivia false cs)

def scalar : Reader Item := do
  match ← Reader.peek with
  | some '"' | some '\'' => return .text (← string)
  | some 't' => Reader.text "true".toList; return .boolean true
  | some 'f' => Reader.text "false".toList; return .boolean false
  | some 'i' | some 'n' => number
  | some c =>
    if c == '+' || c == '-' || c.isDigit then
      let cs ← Reader.remaining
      if dateFollows cs || timeFollows cs then moment else number
    else
      failure
  | none => failure

def arrayRest (value : Reader Item) : Reader Item :=
  Reader.loop (fun (taken : List Item) => do
    skipTrivia
    if ← Reader.startsWith [']'] then
      Reader.char ']'
      return .inr (.array taken.reverse)
    else
      let item ← value
      skipTrivia
      match ← Reader.next with
      | ',' => return .inl (item :: taken)
      | ']' => return .inr (.array (item :: taken).reverse)
      | _ => failure) []

def keyValue (value : Reader Item) : Reader (List String × String × Item) := do
  let (path, last) ← key
  Reader.char '='
  skipBlanks
  let item ← value
  skipBlanks
  return (path, last, item)

/-- The rest of an inline table. It holds no comma after its last entry. -/
def inlineTableRest (value : Reader Item) : Reader Item := do
  skipBlanks
  if ← Reader.startsWith ['}'] then
    Reader.char '}'
    return .table .inline []
  else
    Reader.loop (fun (taken : Entries) => do
      let (path, last, item) ← keyValue value
      let taken ← taken.insert path last item .inline
      match ← Reader.next with
      | ',' => return .inl taken
      | '}' => return .inr (.table .inline taken)
      | _ => failure) []

/-- A value with at most `depth` levels of arrays and inline tables. -/
def value : (depth : Nat) → Reader Item
  | 0 => scalar
  | depth + 1 => do
    match ← Reader.peek with
    | some '[' => Reader.char '['; arrayRest (value depth)
    | some '{' => Reader.char '{'; inlineTableRest (value depth)
    | _ => scalar

def lineEnd : Reader Unit := do
  skipBlanks
  if ← Reader.startsWith ['#'] then
    Reader.skipWhile isCommentChar
  match ← Reader.peek with
  | none => return ()
  | some _ => newline

/-- The tables so far and the path of the one opened last. -/
structure Progress where
  root : Entries
  opened : List String

/-- A header of a table or of an element of a repeated table. -/
def header (progress : Progress) : Reader Progress := do
  Reader.char '['
  let repeated ← Reader.startsWith ['[']
  if repeated then
    Reader.char '['
  let (path, last) ← key
  Reader.char ']'
  if repeated then
    Reader.char ']'
  lineEnd
  let root ←
    if repeated then progress.root.openElement path last
    else progress.root.openTable path last
  return ⟨root, path ++ [last]⟩

def entryLine (progress : Progress) : Reader Progress := do
  let (path, last, item) ← keyValue (value (nestingLimit - 1))
  lineEnd
  return { progress with root := ← progress.root.insertBelow progress.opened path last item }

def lines : Reader Entries :=
  Reader.loop (fun (progress : Progress) => do
    skipBlanks
    match ← Reader.peek with
    | none => return .inr progress.root
    | some '#' | some '\n' | some '\r' =>
      lineEnd
      return .inl progress
    | some '[' => return .inl (← header progress)
    | some _ => return .inl (← entryLine progress)) ⟨[], []⟩

def dropMark : List Char → List Char
  | '\ufeff' :: rest => rest
  | cs => cs

def parse (text : String) : Option Entries :=
  Reader.readAll lines (dropMark text.toList)

end LargeNeighborhood.Toml
