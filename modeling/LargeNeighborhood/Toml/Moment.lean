import LargeNeighborhood.Text.Digits
import LargeNeighborhood.Text.Reader
import LargeNeighborhood.Toml.Item

/-!
# TOML dates and times

A calendar date, a time of day, or both with an optional offset from universal time.
-/

namespace LargeNeighborhood.Toml

/-- Exactly `count` decimal digits of a number in a range. -/
def fixedDigits (count least greatest : Nat) : Reader Nat := fun cs =>
  match digits? 10 (cs.take count) with
  | none => none
  | some value =>
    if (cs.take count).length = count ∧ least ≤ value ∧ value ≤ greatest then
      some (value, cs.drop count)
    else
      none

def isLeapYear (year : Nat) : Bool :=
  year % 4 == 0 && (year % 100 != 0 || year % 400 == 0)

def daysInMonth (year month : Nat) : Nat :=
  match month with
  | 2 => if isLeapYear year then 29 else 28
  | 4 | 6 | 9 | 11 => 30
  | _ => 31

/-- A year, a month and a day that exists in it. -/
def date : Reader Unit := do
  let year ← fixedDigits 4 0 9999
  Reader.char '-'
  let month ← fixedDigits 2 1 12
  Reader.char '-'
  let _ ← fixedDigits 2 1 (daysInMonth year month)

/-- Hours, minutes, seconds and a fraction. A leap second is allowed. -/
def time : Reader Unit := do
  let _ ← fixedDigits 2 0 23
  Reader.char ':'
  let _ ← fixedDigits 2 0 59
  Reader.char ':'
  let _ ← fixedDigits 2 0 60
  if ← Reader.startsWith ['.'] then
    Reader.char '.'
    let _ ← Reader.satisfy Char.isDigit
    Reader.skipWhile Char.isDigit

def offset : Reader Unit := do
  match ← Reader.next with
  | 'Z' | 'z' => return ()
  | '+' | '-' =>
    let _ ← fixedDigits 2 0 23
    Reader.char ':'
    let _ ← fixedDigits 2 0 59
  | _ => failure

def timeFollows : List Char → Bool
  | a :: b :: ':' :: _ => a.isDigit && b.isDigit
  | _ => false

def dateFollows : List Char → Bool
  | a :: b :: c :: d :: '-' :: _ => [a, b, c, d].all Char.isDigit
  | _ => false

def timeOfDate : Reader Unit := do
  match ← Reader.remaining with
  | c :: rest =>
    if (c == 'T' || c == 't' || c == ' ') && timeFollows rest then
      let _ ← Reader.next
      time
      match ← Reader.peek with
      | some 'Z' | some 'z' | some '+' | some '-' => offset
      | _ => return ()
    else
      return ()
  | [] => return ()

def moment : Reader Item := do
  let start ← Reader.remaining
  if dateFollows start then
    date
    timeOfDate
  else
    time
  let rest ← Reader.remaining
  return .moment (String.ofList (start.take (start.length - rest.length)))

end LargeNeighborhood.Toml
