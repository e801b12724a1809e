import TaskMonitor.Report.Listing
import TaskMonitor.Report.Table
import TaskMonitor.Session.Error

/-! Printing reports, once or again and again. A report is made in full before any of it is
printed, and the first failure ends the printing. -/

set_option autoImplicit false

namespace TaskMonitor

inductive Format where
  | table
  | json
  deriving DecidableEq, Repr

def Report.write (report : Report) : Format → List Char
  | .table => report.table
  | .json => report.json

def Snapshot.write (snapshot : Snapshot) (format : Format) : List Char :=
  snapshot.normalize.write format

def fetchFailure : String := "failed to fetch task snapshot"

/-- What was printed, how often a snapshot was fetched, and the failure that ended it. -/
structure Printed where
  output : List Char
  fetched : Nat
  failure : Option FetchError

def separated (first : Bool) (text : List Char) : List Char :=
  if first then text else '\n' :: text

def cycle (format : Format) (index : Nat) (snapshot : Except FetchError Snapshot) :
    Except FetchError (List Char) :=
  return separated (index = 0) ((← snapshot).write format)

def gaveUp (failure : FetchError) : Printed := ⟨[], 1, some failure⟩

def printOnce (format : Format) (snapshot : Except FetchError Snapshot) : Printed :=
  match cycle format 0 snapshot with
  | .ok text => ⟨text, 1, none⟩
  | .error failure => gaveUp failure

/-- Print a report for each fetch, from fetch `index` on, until one fails or so many cycles have
passed. -/
def watchFrom (format : Format) (fetch : Nat → Except FetchError Snapshot) (index : Nat) :
    Nat → Printed
  | 0 => ⟨[], 0, none⟩
  | cycles + 1 =>
    match cycle format index (fetch index) with
    | .error failure => gaveUp failure
    | .ok text =>
      let later := watchFrom format fetch (index + 1) cycles
      { later with output := text ++ later.output, fetched := later.fetched + 1 }

def watch (format : Format) (fetch : Nat → Except FetchError Snapshot) (cycles : Nat) : Printed :=
  watchFrom format fetch 0 cycles

/-- The fetches of a source that has these snapshots and failures, and is closed after them. -/
def thenClosed (outcomes : List (Except FetchError Snapshot)) (index : Nat) :
    Except FetchError Snapshot :=
  outcomes[index]?.getD (.error .closed)

end TaskMonitor
