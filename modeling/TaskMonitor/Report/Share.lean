import TaskMonitor.Json.Document
import TaskMonitor.Number.Fixed

/-! The share of a task in the total run time, in percent. -/

set_option autoImplicit false

namespace TaskMonitor

/-- Not available if the total run time is zero. -/
inductive CpuShare where
  | percent (value : Number.Binary64)
  | notAvailable
  deriving DecidableEq, Repr

namespace CpuShare

def compute (taskTime runTime : UInt64) : CpuShare :=
  if runTime = 0 then .notAvailable
  else .percent (.ofFloat (taskTime.toFloat / runTime.toFloat * 100.0))

def percent? : CpuShare → Option Number.Binary64
  | .percent value => some value
  | .notAvailable => none

def text : CpuShare → List Char
  | .percent value => Number.fixed 1 value
  | .notAvailable => "n/a".toList

def document : CpuShare → Json.Document
  | .percent value => .real value
  | .notAvailable => .null

end CpuShare

end TaskMonitor
