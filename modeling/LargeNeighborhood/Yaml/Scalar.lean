import LargeNeighborhood.Text.Digits
import LargeNeighborhood.Yaml.Cursor

/-!
# YAML scalars

Plain, quoted and block scalars. A single line break inside a plain or quoted scalar becomes a
space and further breaks are kept; block scalars keep or fold their lines as their header says.
-/

namespace LargeNeighborhood.Yaml

inductive Style
  | plain
  | singleQuoted
  | doubleQuoted
  | literal
  | folded
deriving DecidableEq

/-- Blanks and line breaks between two parts of a scalar. -/
structure Gap where
  /-- The blanks before the first line break. -/
  blanks : List Char
  /-- The first line break, if the gap has one; an escaped one leaves no text. -/
  first : Option (List Char)
  /-- The line breaks after the first one. -/
  more : List Char
deriving DecidableEq

namespace Gap

def empty : Gap := ⟨[], none, []⟩

def hasBreak (g : Gap) : Bool :=
  g.first.isSome

/-- The text a gap stands for. A first break that is a line feed is folded. -/
def text (g : Gap) : List Char :=
  match g.first with
  | none => g.blanks
  | some ['\n'] => if g.more.isEmpty then [' '] else g.more
  | some first => first ++ g.more

def addBreak (g : Gap) (b : List Char) : Gap :=
  match g.first with
  | none => { g with blanks := [], first := some b }
  | some _ => { g with more := g.more ++ b }

/-- Takes blanks and line breaks. Blanks after a line break are dropped; a tab among them is
refused below the given column. -/
def scan (g : Gap) (least : Nat) : Scan Gap :=
  Scan.loop (fun (g : Gap) => do
    let c ← Scan.cursor
    match c.head? with
    | some x =>
      if isBlank x then
        if g.hasBreak then
          if x == '\t' && decide (c.column < least) then failure
          Scan.skip
          return .inl g
        else
          Scan.skip
          return .inl { g with blanks := g.blanks ++ [x] }
      else if isBreak x then
        return .inl (g.addBreak (← Scan.takeBreak))
      else
        return .inr g
    | none => return .inr g) g

end Gap

/-- The characters that end a plain scalar inside a flow collection. -/
def isFlowIndicator (c : Char) : Bool :=
  c == ',' || c == '[' || c == ']' || c == '{' || c == '}'

def plainRun (flow : Bool) : Scan (List Char) :=
  Scan.loop (fun (taken : List Char) => do
    let c ← Scan.cursor
    match c.head? with
    | none => return .inr taken.reverse
    | some x =>
      if isBlankOrBreak x then
        return .inr taken.reverse
      else if flow && x == ':' && c.holds 1 (fun y => isFlowIndicator y || y == '?') then
        failure
      else if (x == ':' && c.blankAt 1) || (flow && isFlowIndicator x) then
        return .inr taken.reverse
      else
        Scan.skip
        return .inl (x :: taken)) []

/-- A plain scalar in a block whose lines are indented by at least `least` columns: its text, and
whether a line break came after it. -/
def plain (flow : Bool) (least : Nat) : Scan (List Char × Bool) :=
  Scan.loop (fun ((taken, gap) : List Char × Gap) => do
    let c ← Scan.cursor
    if c.atDocumentMark || c.head? = some '#' then
      return .inr (taken, gap.hasBreak)
    else
      let run ← plainRun flow
      let (taken, gap) :=
        if run.isEmpty then (taken, gap) else (taken ++ gap.text ++ run, Gap.empty)
      let c ← Scan.cursor
      if c.holds 0 isBlankOrBreak then
        let gap ← gap.scan least
        let c ← Scan.cursor
        if !flow && decide (c.column < least) then
          return .inr (taken, gap.hasBreak)
        else
          return .inl (taken, gap)
      else
        return .inr (taken, gap.hasBreak)) ([], Gap.empty)

def escaped : Char → Option (Char ⊕ Nat)
  | '0' => some (.inl '\x00')
  | 'a' => some (.inl '\x07')
  | 'b' => some (.inl '\x08')
  | 't' | '\t' => some (.inl '\t')
  | 'n' => some (.inl '\n')
  | 'v' => some (.inl '\x0b')
  | 'f' => some (.inl '\x0c')
  | 'r' => some (.inl '\r')
  | 'e' => some (.inl '\x1b')
  | ' ' => some (.inl ' ')
  | '"' => some (.inl '"')
  | '/' => some (.inl '/')
  | '\\' => some (.inl '\\')
  | 'N' => some (.inl '\u0085')
  | '_' => some (.inl '\u00a0')
  | 'L' => some (.inl '\u2028')
  | 'P' => some (.inl '\u2029')
  | 'x' => some (.inr 2)
  | 'u' => some (.inr 4)
  | 'U' => some (.inr 8)
  | _ => none

def scalarValue (count : Nat) : Scan Char := do
  let digits := (← Scan.cursor).rest.take count
  let value ← digits? 16 digits
  if digits.length = count ∧ value.isValidChar then
    for _ in digits do
      Scan.skip
    return Char.ofNat value
  else
    failure

def escape : Scan Char := do
  match ← escaped (← Scan.take) with
  | .inl x => return x
  | .inr count => scalarValue count

/-- The run of a quoted scalar up to the next blank, line break or closing quote, and the gap
after it if an escaped line break ended it. -/
def quotedRun (quote : Char) : Scan (List Char × Gap) :=
  Scan.loop (fun (taken : List Char) => do
    let c ← Scan.cursor
    match c.head? with
    | none => return .inr (taken.reverse, Gap.empty)
    | some x =>
      if isBlankOrBreak x then
        return .inr (taken.reverse, Gap.empty)
      else if quote == '\'' && x == '\'' && c.at? 1 == some '\'' then
        Scan.skip
        Scan.skip
        return .inl ('\'' :: taken)
      else if x == quote then
        return .inr (taken.reverse, Gap.empty)
      else if quote == '"' && x == '\\' then
        Scan.skip
        if c.holds 1 isBreak then
          let _ ← Scan.takeBreak
          return .inr (taken.reverse, { Gap.empty with first := some [] })
        else
          return .inl ((← escape) :: taken)
      else
        Scan.skip
        return .inl (x :: taken)) []

def quoted (quote : Char) : Scan (List Char) := do
  Scan.skip
  Scan.loop (fun (taken : List Char) => do
    let c ← Scan.cursor
    if c.atDocumentMark || c.head?.isNone then
      failure
    else
      let (run, gap) ← quotedRun quote
      let taken := taken ++ run
      if (← Scan.cursor).head? = some quote then
        Scan.skip
        return .inr taken
      else
        let gap ← gap.scan 0
        return .inl (taken ++ gap.text)) []

/-- What happens to the line breaks at the end of a block scalar. -/
inductive Chomping
  | strip
  | clip
  | keep
deriving DecidableEq

def indentation : Scan (Option Nat) := do
  match (← Scan.cursor).head? with
  | some x =>
    if x == '0' then failure
    else if x.isDigit then
      Scan.skip
      return digit? 10 x
    else
      return none
  | none => return none

def chomping : Scan (Option Chomping) := do
  match (← Scan.cursor).head? with
  | some '+' => Scan.skip; return some .keep
  | some '-' => Scan.skip; return some .strip
  | _ => return none

/-- The header of a block scalar: chomping and indentation in either order. -/
def blockHeader : Scan (Chomping × Option Nat) := do
  match ← chomping with
  | some chomping => return (chomping, ← indentation)
  | none =>
    match ← indentation with
    | some columns => return ((← chomping).getD .clip, some columns)
    | none => return (.clip, none)

/-- Blanks, a comment and the line break after a header or directive. -/
def restOfLine : Scan Unit := do
  Scan.skipWhile isBlank
  Scan.skipComment
  if (← Scan.cursor).blankAt 0 then
    let _ ← Scan.takeBreak
  else
    failure

/-- The breaks of empty lines and the indentation of the line after them. Without a known
indentation the widest of these lines decides it, at least `least` columns. -/
def blockBreaks (known : Option Nat) (least : Nat) : Scan (List Char × Nat) :=
  Scan.loop (fun ((breaks, widest) : List Char × Nat) => do
    let c ← Scan.cursor
    let spaces := (c.rest.takeWhile (· == ' ')).length
    let spaces := match known with
      | some indent => min spaces (indent - c.column)
      | none => spaces
    for _ in List.range spaces do
      Scan.skip
    let c ← Scan.cursor
    let widest := max widest c.column
    if c.head? = some '\t' ∧ known.all (fun indent => decide (c.column < indent)) then
      failure
    else if c.holds 0 isBreak then
      return .inl (breaks ++ (← Scan.takeBreak), widest)
    else
      return .inr (breaks, known.getD (max widest (max least 1)))) ([], 0)

structure BlockText where
  taken : List Char
  /-- The line break after the last line. -/
  leading : List Char
  /-- The breaks of the empty lines after it. -/
  trailing : List Char
  /-- The last line began with a blank. -/
  indented : Bool

/-- The text before a further line: a fold, or all breaks. -/
def BlockText.joined (b : BlockText) (folds indented : Bool) : List Char :=
  if folds && b.leading == ['\n'] && !b.indented && !indented then
    b.taken ++ (if b.trailing.isEmpty then [' '] else []) ++ b.trailing
  else
    b.taken ++ b.leading ++ b.trailing

/-- The text after the last line, with the breaks its chomping leaves. -/
def BlockText.chomped (b : BlockText) : Chomping → List Char
  | .strip => b.taken
  | .clip => b.taken ++ b.leading
  | .keep => b.taken ++ b.leading ++ b.trailing

/-- A block scalar inside a block indented by `parent` columns, or inside none. -/
def block (folds : Bool) (parent : Option Nat) : Scan (List Char) := do
  Scan.skip
  let (chomping, columns) ← blockHeader
  restOfLine
  let known := columns.map (parent.getD 0 + ·)
  let (breaks, indent) ← blockBreaks known (parent.elim 0 (· + 1))
  Scan.loop (fun (b : BlockText) => do
    let c ← Scan.cursor
    if c.column = indent ∧ c.head?.isSome then
      let indented := c.holds 0 isBlank
      let line ← Scan.takeWhile fun x => !isBreak x
      let leading ← Scan.takeBreak
      let (trailing, _) ← blockBreaks (some indent) 0
      return .inl ⟨b.joined folds indented ++ line, leading, trailing, indented⟩
    else
      return .inr (b.chomped chomping)) ⟨[], [], breaks, false⟩

end LargeNeighborhood.Yaml
