import TaskMonitor.Number.Digits

/-! Scheduler tasks as a device reports them at one moment. -/

set_option autoImplicit false

namespace TaskMonitor

/-- The state of a task. Codes without a meaning of their own are kept. -/
inductive TaskState where
  | running
  | ready
  | blocked
  | suspended
  | deleted
  | unknown (code : Int32)
  deriving DecidableEq, Repr

def TaskState.ofCode (code : Int32) : TaskState :=
  match code.toInt with
  | 0 => .running
  | 1 => .ready
  | 2 => .blocked
  | 3 => .suspended
  | 4 => .deleted
  | _ => .unknown code

def TaskState.code : TaskState → Int32
  | .running => 0
  | .ready => 1
  | .blocked => 2
  | .suspended => 3
  | .deleted => 4
  | .unknown code => code

def TaskState.label : TaskState → String
  | .running => "running"
  | .ready => "ready"
  | .blocked => "blocked"
  | .suspended => "suspended"
  | .deleted => "deleted"
  | .unknown _ => "unknown"

def TaskState.isUnknown : TaskState → Bool
  | .unknown _ => true
  | _ => false

@[simp] theorem TaskState.code_ofCode (code : Int32) : (ofCode code).code = code := by
  unfold ofCode
  split
  · next same => exact Int32.toInt_inj.mp same.symm
  · next same => exact Int32.toInt_inj.mp same.symm
  · next same => exact Int32.toInt_inj.mp same.symm
  · next same => exact Int32.toInt_inj.mp same.symm
  · next same => exact Int32.toInt_inj.mp same.symm
  · rfl

inductive CorePin where
  | unpinned
  | core (number : Int32)
  deriving DecidableEq, Repr

def CorePin.ofNumber (number : Int32) : CorePin :=
  if number = -1 then .unpinned else .core number

def CorePin.number : CorePin → Int32
  | .unpinned => -1
  | .core number => number

def CorePin.label : CorePin → String
  | .unpinned => "NO PIN"
  | .core number => String.ofList (Number.signedDigits number.toInt)

@[simp] theorem CorePin.number_ofNumber (number : Int32) : (ofNumber number).number = number := by
  unfold ofNumber
  split
  · next same => exact same.symm
  · rfl

/-- One task. `runTime` counts in the same unit as the run time of the snapshot. -/
structure TaskRecord where
  number : UInt32
  name : String
  state : TaskState
  core : CorePin
  priority : UInt32
  runTime : UInt64
  stackRemaining : UInt32
  deriving DecidableEq, Repr

inductive TaskField where
  | number
  | name
  | state
  | core
  | priority
  | runTime
  | stackRemaining
  deriving DecidableEq, Repr

def TaskField.key : TaskField → String
  | .number => "number"
  | .name => "name"
  | .state => "state"
  | .core => "core_num"
  | .priority => "prio"
  | .runTime => "rtc"
  | .stackRemaining => "stack_remaining"

end TaskMonitor
