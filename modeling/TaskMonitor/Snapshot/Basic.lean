import TaskMonitor.Task.Basic

/-! Snapshots of all tasks. A reply of the device may have gaps, a snapshot has none:
`Reply.validate` succeeds on a reply without gaps and names the first gap otherwise. -/

set_option autoImplicit false

namespace TaskMonitor

/-- The tasks in the order of the device, which may repeat task numbers. -/
structure Snapshot where
  tasks : List TaskRecord
  runTime : UInt64
  deriving DecidableEq, Repr

structure TaskEntry where
  number : Option UInt32 := none
  name : Option String := none
  state : Option Int32 := none
  core : Option Int32 := none
  priority : Option UInt32 := none
  runTime : Option UInt64 := none
  stackRemaining : Option UInt32 := none
  deriving DecidableEq, Repr

structure Reply where
  tasks : Option (List TaskEntry) := none
  runTime : Option UInt64 := none
  deriving DecidableEq, Repr

inductive ReplyField where
  | tasks
  | runTime
  deriving DecidableEq, Repr

def ReplyField.key : ReplyField → String
  | .tasks => "task_info"
  | .runTime => "run_time"

inductive Gap where
  | reply (field : ReplyField)
  | task (index : Nat) (field : TaskField)
  deriving DecidableEq, Repr

def Gap.message : Gap → String
  | .reply field => s!"snapshot is missing required field '{field.key}'"
  | .task index field => s!"task entry {index} is missing required field '{field.key}'"

/-- The task that an entry describes; `index` is the place of the entry in its reply. -/
def TaskEntry.validate (entry : TaskEntry) (index : Nat) : Except Gap TaskRecord := do
  let need {α : Type} (field : TaskField) (value : Option α) : Except Gap α :=
    match value with
    | some value => .ok value
    | none => .error (.task index field)
  let number ← need .number entry.number
  let name ← need .name entry.name
  let state ← need .state entry.state
  let core ← need .core entry.core
  let priority ← need .priority entry.priority
  let runTime ← need .runTime entry.runTime
  let stackRemaining ← need .stackRemaining entry.stackRemaining
  return { number, name, state := .ofCode state, core := .ofNumber core, priority, runTime,
           stackRemaining }

def validateFrom (index : Nat) : List TaskEntry → Except Gap (List TaskRecord)
  | [] => .ok []
  | entry :: rest => do
    let task ← entry.validate index
    let tasks ← validateFrom (index + 1) rest
    return task :: tasks

def Reply.validate (reply : Reply) : Except Gap Snapshot :=
  match reply.tasks, reply.runTime with
  | none, _ => .error (.reply .tasks)
  | some _, none => .error (.reply .runTime)
  | some entries, some runTime => do
    let tasks ← validateFrom 0 entries
    return { tasks, runTime }

end TaskMonitor
