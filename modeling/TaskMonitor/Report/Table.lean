import TaskMonitor.Report.Basic
import TaskMonitor.Text.Blank

/-! Reports as a text table: a title, a header, a rule, a line for each row and a footer.
Columns are as wide as their widest cell and stand two blanks apart. -/

set_option autoImplicit false

namespace TaskMonitor

namespace Table

inductive Side where
  | left
  | right
  deriving DecidableEq, Repr

structure Column where
  title : String
  side : Side
  cell : Row → List Char

def columns : List Column :=
  [⟨"#", .right, fun row => Number.digits row.number.toNat⟩,
   ⟨"Name", .left, fun row => row.name.toList⟩,
   ⟨"State", .left, fun row => row.stateLabel.toList⟩,
   ⟨"CorePin", .left, fun row => row.coreLabel.toList⟩,
   ⟨"Prio", .right, fun row => Number.digits row.priority.toNat⟩,
   ⟨"Run Time", .right, fun row => Number.digits row.runTime.toNat⟩,
   ⟨"Run %", .right, fun row => row.share.text⟩,
   ⟨"Stack Rem.", .right, fun row => Number.digits row.stackRemaining.toNat⟩]

def gap : List Char := [' ', ' ']

def pad (side : Side) (width : Nat) (text : List Char) : List Char :=
  let fill := List.replicate (width - text.length) ' '
  match side with
  | .left => text ++ fill
  | .right => fill ++ text

def Column.width (column : Column) (rows : List Row) : Nat :=
  rows.foldl (fun width row => max width (column.cell row).length) column.title.length

def layout (rows : List Row) : List (Column × Nat) :=
  columns.map fun column => (column, column.width rows)

def line (layout : List (Column × Nat)) (cell : Column → List Char) : List Char :=
  Text.trimEnd <| gap.intercalate <|
    layout.map fun (column, width) => pad column.side width (cell column)

def ruleLength (layout : List (Column × Nat)) : Nat :=
  layout.foldr (fun (_, width) total => width + total) 0 + gap.length * (layout.length - 1)

def lines (report : Report) : List (List Char) :=
  let layout := layout report.rows
  "RTOS Tasks".toList ::
  line layout (·.title.toList) ::
  List.replicate (ruleLength layout) '-' ::
  report.rows.map (fun row => line layout (·.cell row)) ++
  ["total run time: ".toList ++ Number.digits report.runTime.toNat]

end Table

def Report.table (report : Report) : List Char :=
  (Table.lines report).flatMap fun line => line ++ ['\n']

end TaskMonitor
