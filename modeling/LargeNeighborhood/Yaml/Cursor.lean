import LargeNeighborhood.Text.Reader

/-!
# Positions in a YAML text

A cursor is the rest of a text with the line and the column of its first character, and with the
number of bytes before it.
Line breaks are carriage returns, line feeds, both together, and three breaks beyond ASCII.
-/

namespace LargeNeighborhood.Yaml

def isBreak (c : Char) : Bool :=
  c == '\n' || c == '\r' || c == '\u0085' || c == '\u2028' || c == '\u2029'

def isBlank (c : Char) : Bool :=
  c == ' ' || c == '\t'

def isBlankOrBreak (c : Char) : Bool :=
  isBlank c || isBreak c

def isNameChar (c : Char) : Bool :=
  c.isAlphanum || c == '_' || c == '-'

/-- The characters a text may hold. -/
def isAllowed (c : Char) : Bool :=
  c == '\t' || c == '\n' || c == '\r' || (' ' ≤ c && c ≤ '~') || c == '\u0085' ||
    ('\u00a0' ≤ c && c ≤ '\ufffd') || 0x10000 ≤ c.toNat

structure Cursor where
  rest : List Char
  /-- The bytes passed over so far. -/
  index : Nat
  line : Nat
  column : Nat
deriving DecidableEq

namespace Cursor

def ofText (cs : List Char) : Cursor := ⟨cs, 0, 0, 0⟩

def head? (c : Cursor) : Option Char :=
  c.rest.head?

def at? (c : Cursor) (i : Nat) : Option Char :=
  c.rest[i]?

/-- The character `i` places ahead has a property; the end of the text has none. -/
def holds (c : Cursor) (i : Nat) (p : Char → Bool) : Bool :=
  (c.at? i).any p

/-- A blank, a line break or the end of the text is `i` places ahead. -/
def blankAt (c : Cursor) (i : Nat) : Bool :=
  (c.at? i).all isBlankOrBreak

def skip (c : Cursor) : Cursor :=
  match c.rest with
  | [] => c
  | x :: rest =>
    { c with rest := rest, index := c.index + x.utf8Size, column := c.column + 1 }

/-- Passes over a line break, if there is one: the text it stands for. -/
def takeBreak (c : Cursor) : List Char × Cursor :=
  match c.rest with
  | '\r' :: '\n' :: rest => (['\n'], ⟨rest, c.index + 2, c.line + 1, 0⟩)
  | b :: rest =>
    if b == '\u2028' || b == '\u2029' then ([b], ⟨rest, c.index + b.utf8Size, c.line + 1, 0⟩)
    else if isBreak b then (['\n'], ⟨rest, c.index + b.utf8Size, c.line + 1, 0⟩)
    else ([], c)
  | [] => ([], c)

/-- Passes over the longest run of characters with a property, none of them a line break. -/
def takeWhile (c : Cursor) (p : Char → Bool) : List Char × Cursor :=
  let taken := c.rest.takeWhile p
  (taken, { c with
    rest := c.rest.dropWhile p
    index := taken.foldl (fun index x => index + x.utf8Size) c.index
    column := c.column + taken.length })

/-- A line that starts with three dashes or three dots, and nothing else or a blank after them. -/
def atDocumentMark (c : Cursor) : Bool :=
  c.column == 0 && (['-', '-', '-'].isPrefixOf c.rest || ['.', '.', '.'].isPrefixOf c.rest) &&
    c.blankAt 3

end Cursor

/-- Takes something off the text at a cursor. -/
abbrev Scan := StateT Cursor Option

namespace Scan

def cursor : Scan Cursor := get

def skip : Scan Unit := modify Cursor.skip

def take : Scan Char := fun c =>
  match c.rest with
  | [] => none
  | x :: _ => some (x, c.skip)

def takeBreak : Scan (List Char) := fun c => some c.takeBreak

def takeWhile (p : Char → Bool) : Scan (List Char) := fun c => some (c.takeWhile p)

def skipWhile (p : Char → Bool) : Scan Unit := fun c => some ((), (c.takeWhile p).2)

def skipComment : Scan Unit := do
  if (← cursor).head? = some '#' then
    skipWhile fun c => !isBreak c

/-- Repeats a step until it ends with a result. -/
def loop (step : σ → Scan (σ ⊕ α)) (state : σ) : Scan α :=
  fun c => rounds step (c.rest.length + 1) state c

end Scan

end LargeNeighborhood.Yaml
