import LargeNeighborhood.Text.Digits
import LargeNeighborhood.Text.Reader

/-!
# TOML strings

The four forms of strings: escapes or none, one line or several. A form over several lines drops a
newline right after its opening quotes and may end with up to two quotes of its own.
-/

namespace LargeNeighborhood.Toml

def isBlank (c : Char) : Bool :=
  c == ' ' || c == '\t'

def isCommentChar (c : Char) : Bool :=
  c == '\t' || (' ' ≤ c && c ≤ '~') || '\x80' ≤ c

/-- The characters that stand for themselves in strings with escapes. -/
def isBasicChar (c : Char) : Bool :=
  isCommentChar c && c != '"' && c != '\\'

/-- The characters of strings without escapes. -/
def isLiteralChar (c : Char) : Bool :=
  isCommentChar c && c != '\''

/-- Takes a line end: a line feed, or a carriage return and a line feed. -/
def newline : Reader Unit
  | '\n' :: rest => some ((), rest)
  | '\r' :: '\n' :: rest => some ((), rest)
  | _ => none

/-- Takes `count` hexadecimal digits of a Unicode scalar value. -/
def scalarValue (count : Nat) : Reader Char := fun cs =>
  match digits? 16 (cs.take count) with
  | none => none
  | some value =>
    if (cs.take count).length = count ∧ value.isValidChar then
      some (Char.ofNat value, cs.drop count)
    else
      none

def escape : Reader Char := do
  match ← Reader.next with
  | 'b' => return '\x08'
  | 'f' => return '\x0c'
  | 'n' => return '\n'
  | 'r' => return '\r'
  | 't' => return '\t'
  | '"' => return '"'
  | '\\' => return '\\'
  | 'u' => scalarValue 4
  | 'U' => scalarValue 8
  | _ => failure

def basicBody : Reader String :=
  Reader.loop (fun (taken : List Char) => do
    match ← Reader.next with
    | '"' => return .inr (String.ofList taken.reverse)
    | '\\' => return .inl ((← escape) :: taken)
    | c => if isBasicChar c then return .inl (c :: taken) else failure) []

def literalBody : Reader String :=
  Reader.loop (fun (taken : List Char) => do
    match ← Reader.next with
    | '\'' => return .inr (String.ofList taken.reverse)
    | c => if isLiteralChar c then return .inl (c :: taken) else failure) []

/-- Takes a run of quotes: three more than belong to the text end it. -/
def quotes (quote : Char) (taken : List Char) : Reader (List Char ⊕ String) := do
  let count := (← Reader.takeWhile (· == quote)).length
  if count < 3 then
    return .inl (List.replicate count quote ++ taken)
  else if count ≤ 5 then
    return .inr (String.ofList (List.replicate (count - 3) quote ++ taken).reverse)
  else
    failure

def dropBlankLines : List Char → List Char
  | '\n' :: rest => dropBlankLines rest
  | '\r' :: '\n' :: rest => dropBlankLines rest
  | c :: rest => if isBlank c then dropBlankLines rest else c :: rest
  | [] => []

/-- Whether a backslash ended its line. If so, all blanks and line ends that follow are dropped. -/
def lineContinuation : Reader Bool := fun cs =>
  match newline (cs.dropWhile isBlank) with
  | none => some (false, cs)
  | some _ => some (true, dropBlankLines cs)

def multilineBasicBody : Reader String :=
  Reader.loop (fun (taken : List Char) => do
    match ← Reader.peek with
    | some '"' => quotes '"' taken
    | some '\\' =>
      Reader.char '\\'
      if ← lineContinuation then return .inl taken else return .inl ((← escape) :: taken)
    | some '\n' | some '\r' =>
      newline
      return .inl ('\n' :: taken)
    | _ => return .inl ((← Reader.satisfy isBasicChar) :: taken)) []

def multilineLiteralBody : Reader String :=
  Reader.loop (fun (taken : List Char) => do
    match ← Reader.peek with
    | some '\'' => quotes '\'' taken
    | some '\n' | some '\r' =>
      newline
      return .inl ('\n' :: taken)
    | _ => return .inl ((← Reader.satisfy isLiteralChar) :: taken)) []

def quoted : Reader String := do
  match ← Reader.next with
  | '"' => basicBody
  | '\'' => literalBody
  | _ => failure

def string : Reader String := do
  if ← Reader.startsWith ['"', '"', '"'] then
    Reader.text ['"', '"', '"']
    newline <|> pure ()
    multilineBasicBody
  else if ← Reader.startsWith ['\'', '\'', '\''] then
    Reader.text ['\'', '\'', '\'']
    newline <|> pure ()
    multilineLiteralBody
  else
    quoted

end LargeNeighborhood.Toml
