import LargeNeighborhood.Numeric.Binary64

/-!
# TOML items

The values of a TOML document and the rules for adding to its tables. A table remembers how it
came to be, because that decides whether later lines may still add to it.
-/

namespace LargeNeighborhood.Toml

/-- How a table came to be. -/
inductive Origin
  /-- A header of its own, or the root. -/
  | header
  /-- A longer header named it on the way. -/
  | implied
  /-- A dotted key named it on the way. -/
  | dotted
  /-- Written in braces. -/
  | inline
deriving DecidableEq

/-- A dotted key may go through the table. -/
def Origin.isImplicit : Origin → Bool
  | .implied | .dotted => true
  | .header | .inline => false

inductive Item
  | text (value : String)
  | integer (value : Int)
  | float (value : Binary64)
  | boolean (value : Bool)
  /-- A date, a time or both, as written. -/
  | moment (written : String)
  | array (items : List Item)
  | table (origin : Origin) (entries : List (String × Item))
  /-- The tables of a repeated header, in order. -/
  | tables (elements : List (List (String × Item)))

abbrev Entries := List (String × Item)

namespace Entries

def replace (entries : Entries) (key : String) (item : Item) : Entries :=
  entries.map fun entry => if entry.1 = key then (key, item) else entry

/-- Changes the table that a path of keys leads to. Tables missing on the way are made; `dotted`
says whether the path belongs to a dotted key or to a header. The change is told how the table came
to be. -/
def update (dotted : Bool) (change : Origin → Entries → Option Entries) :
    List String → Origin → Entries → Option Entries
  | [], origin, entries => change origin entries
  | key :: path, _, entries =>
    match entries.lookup key with
    | none => do
      let origin := if dotted then .dotted else .implied
      let inner ← update dotted change path origin []
      return entries ++ [(key, .table origin inner)]
    | some (.table origin inner) =>
      if origin = .inline ∨ (dotted ∧ ¬ origin.isImplicit) then
        none
      else do
        let inner ← update dotted change path origin inner
        return entries.replace key (.table origin inner)
    | some (.tables elements) =>
      match elements.getLast? with
      | none => none
      | some inner => do
        let inner ← update dotted change path .header inner
        return entries.replace key (.tables (elements.dropLast ++ [inner]))
    | some _ => none

/-- Adds the item of a possibly dotted key. A dotted key only adds to tables that dotted keys made,
and no key is given twice. -/
def insert (path : List String) (key : String) (item : Item) (origin : Origin)
    (entries : Entries) : Option Entries :=
  update true
    (fun origin entries =>
      if (path ≠ [] ∧ origin ≠ .dotted) ∨ (path = [] ∧ origin = .dotted) then none
      else if (entries.lookup key).isSome then none
      else some (entries ++ [(key, item)]))
    path origin entries

def openTable (path : List String) (key : String) (root : Entries) : Option Entries :=
  update false
    (fun _ entries =>
      match entries.lookup key with
      | none => some (entries ++ [(key, .table .header [])])
      | some (.table .implied inner) => some (entries.replace key (.table .header inner))
      | some _ => none)
    path .header root

def openElement (path : List String) (key : String) (root : Entries) : Option Entries :=
  update false
    (fun _ entries =>
      match entries.lookup key with
      | none => some (entries ++ [(key, .tables [[]])])
      | some (.tables elements) => some (entries.replace key (.tables (elements ++ [[]])))
      | some _ => none)
    path .header root

def insertBelow (opened : List String) (path : List String) (key : String) (item : Item)
    (root : Entries) : Option Entries :=
  update false (fun origin entries => entries.insert path key item origin) opened .header root

end Entries

end LargeNeighborhood.Toml
