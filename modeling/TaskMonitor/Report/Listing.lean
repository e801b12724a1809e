import TaskMonitor.Report.Basic

/-! Reports as JSON documents. -/

set_option autoImplicit false

namespace TaskMonitor

def Row.document (row : Row) : Json.Document :=
  .object
    [("number", .integer row.number.toNat),
     ("name", .text row.name),
     ("state_label", .text row.stateLabel),
     ("core_label", .text row.coreLabel),
     ("prio", .integer row.priority.toNat),
     ("rtc", .integer row.runTime.toNat),
     ("cpu_share", row.share.document),
     ("stack_remaining", .integer row.stackRemaining.toNat)]

def Report.document (report : Report) : Json.Document :=
  .object
    [("rows", .list (report.rows.map (·.document))),
     ("run_time", .integer report.runTime.toNat),
     ("duplicates_dropped", .integer report.dropped)]

def Report.json (report : Report) : List Char := report.document.pretty ++ ['\n']

end TaskMonitor
