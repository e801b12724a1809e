import TaskMonitor.Number.Binary64

/-! The values and tables of a TOML document, and the rules on who may extend a table. -/

set_option autoImplicit false

namespace TaskMonitor.Toml

/-- How a table came to be: by its own header or as an element of an array of tables, on the
way of a longer header, or on the way of a dotted key. -/
inductive Origin where
  | header
  | implied
  | dotted
  deriving DecidableEq, Repr

def mostInteger : Nat := 0x7FFFFFFFFFFFFFFF

/-- Dates and times keep their text. A table in braces is a value and cannot be extended. -/
inductive Node where
  | text (value : String)
  | integer (value : Int)
  | real (value : Number.Binary64)
  | bool (value : Bool)
  | moment (text : List Char)
  | list (elements : List Node)
  | inline (entries : List (String × Node))
  | table (origin : Origin) (entries : List (String × Node))
  | tables (elements : List (List (String × Node)))

abbrev Entries := List (String × Node)

namespace Entries

def get? (entries : Entries) (key : String) : Option Node := List.lookup key entries

def replace (entries : Entries) (key : String) (node : Node) : Entries :=
  entries.map fun entry => if entry.1 = key then (key, node) else entry

/-- Change the table at the end of a path. Tables on the way that are not there are made and
get the origin `step`; a path that meets an array of tables goes on in its last element. A dotted
key does not go through a table with a header of its own. -/
def alter (step : Origin) (change : Origin → Entries → Option Entries) :
    List String → Origin → Entries → Option Entries
  | [], origin, entries => change origin entries
  | key :: path, _, entries =>
    match entries.get? key with
    | none => do
      let inner ← alter step change path step []
      return entries ++ [(key, .table step inner)]
    | some (.table origin inner) =>
      if step = .dotted ∧ origin = .header then none
      else do
        let inner ← alter step change path origin inner
        return entries.replace key (.table origin inner)
    | some (.tables elements) =>
      match elements.getLast? with
      | none => none
      | some last => do
        let last ← alter step change path .header last
        return entries.replace key (.tables (elements.dropLast ++ [last]))
    | some _ => none

/-- Give a dotted key a value in a table. The table that holds the value is the one at hand if
the key has no dots, and one made by dotted keys otherwise. -/
def insert (path : List String) (key : String) (node : Node) (entries : Entries) : Option Entries :=
  alter .dotted (fun origin inner =>
    if decide (origin = .dotted) = path.isEmpty ∨ (inner.get? key).isSome then none
    else some (inner ++ [(key, node)])) path .header entries

/-- Open the table of a header. Only a table that was implied so far may exist. -/
def openTable (path : List String) (key : String) (entries : Entries) : Option Entries :=
  alter .implied (fun _ inner =>
    match inner.get? key with
    | none => some (inner ++ [(key, .table .header [])])
    | some (.table .implied content) => some (inner.replace key (.table .header content))
    | some _ => none) path .header entries

def openElement (path : List String) (key : String) (entries : Entries) : Option Entries :=
  alter .implied (fun _ inner =>
    match inner.get? key with
    | none => some (inner ++ [(key, .tables [[]])])
    | some (.tables elements) => some (inner.replace key (.tables (elements ++ [[]])))
    | some _ => none) path .header entries

end Entries

end TaskMonitor.Toml
