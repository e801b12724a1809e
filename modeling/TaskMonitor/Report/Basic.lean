import TaskMonitor.Report.Share
import TaskMonitor.Snapshot.Basic

/-! Reports: one row for each task number, in ascending order, from the last entry with that
number. -/

set_option autoImplicit false

namespace TaskMonitor

structure Row where
  number : UInt32
  name : String
  state : TaskState
  stateLabel : String
  core : CorePin
  coreLabel : String
  priority : UInt32
  runTime : UInt64
  share : CpuShare
  stackRemaining : UInt32
  deriving DecidableEq, Repr

/-- `dropped` counts the entries that a later one with the same number replaced. -/
structure Report where
  rows : List Row
  runTime : UInt64
  dropped : Nat
  deriving DecidableEq, Repr

def Row.ofTask (runTime : UInt64) (task : TaskRecord) : Row :=
  { number := task.number
    name := task.name
    state := task.state
    stateLabel := task.state.label
    core := task.core
    coreLabel := task.core.label
    priority := task.priority
    runTime := task.runTime
    share := .compute task.runTime runTime
    stackRemaining := task.stackRemaining }

/-- Put a task into a list with ascending numbers, in the place of one with the same number. -/
def insertTask (task : TaskRecord) : List TaskRecord → List TaskRecord
  | [] => [task]
  | other :: rest =>
    if task.number < other.number then task :: other :: rest
    else if task.number = other.number then task :: rest
    else other :: insertTask task rest

def latest (tasks : List TaskRecord) : List TaskRecord :=
  tasks.foldl (fun sorted task => insertTask task sorted) []

def Snapshot.normalize (snapshot : Snapshot) : Report :=
  let tasks := latest snapshot.tasks
  { rows := tasks.map (Row.ofTask snapshot.runTime)
    runTime := snapshot.runTime
    dropped := snapshot.tasks.length - tasks.length }

def lastMax? {α : Type} (key : α → Int) : List α → Option α
  | [] => none
  | x :: rest =>
    match lastMax? key rest with
    | none => some x
    | some y => if key y < key x then some x else some y

def firstMin? {α : Type} (key : α → Int) : List α → Option α
  | [] => none
  | x :: rest =>
    match firstMin? key rest with
    | none => some x
    | some y => if key y < key x then some y else some x

namespace Report

/-- The row with the greatest share, of several the last; shares are compared in the total
order of doubles. -/
def busiest (report : Report) : Option Row :=
  let shared := report.rows.filterMap fun row => row.share.percent?.map fun share => (row, share)
  (lastMax? (fun entry => entry.2.orderKey) shared).map Prod.fst

/-- The row with the least stack left, of several the first. -/
def lowestStack (report : Report) : Option Row :=
  firstMin? (fun row => (row.stackRemaining.toNat : Int)) report.rows

def running (report : Report) : Nat := report.rows.countP fun row => row.state = .running

def summary (report : Report) : List Char :=
  let counts := s!"{report.rows.length} tasks ({report.running} running), run time {report.runTime}"
  let busiest := match report.busiest with
    | none => []
    | some row => s!", busiest {row.name} (".toList ++ row.share.text ++ "%)".toList
  let lowestStack := match report.lowestStack with
    | none => []
    | some row => s!", lowest stack {row.name} ({row.stackRemaining})".toList
  counts.toList ++ busiest ++ lowestStack

end Report

end TaskMonitor
