import TaskMonitor.Json.Document
import TaskMonitor.Json.Typed
import TaskMonitor.Snapshot.Basic

/-! The JSON form of tasks and snapshots. A reply may leave out each field or give `null` for
it; a snapshot is read from the same form with all fields present. -/

set_option autoImplicit false

namespace TaskMonitor

open Json (Document Reader Record)

def TaskState.reader : Reader TaskState := return .ofCode (← Json.int32)

def TaskState.document (state : TaskState) : Document := .integer state.code.toInt

def CorePin.reader : Reader CorePin := return .ofNumber (← Json.int32)

def CorePin.document (pin : CorePin) : Document := .integer pin.number.toInt

def taskFields (value : {α : Type} → Reader α → Reader (Option α)) : List (Json.Field TaskEntry) :=
  [⟨TaskField.number.key, fun entry => return { entry with number := ← value Json.uint32 }⟩,
   ⟨TaskField.name.key, fun entry => return { entry with name := ← value Json.text }⟩,
   ⟨TaskField.state.key, fun entry => return { entry with state := ← value Json.int32 }⟩,
   ⟨TaskField.core.key, fun entry => return { entry with core := ← value Json.int32 }⟩,
   ⟨TaskField.priority.key, fun entry => return { entry with priority := ← value Json.uint32 }⟩,
   ⟨TaskField.runTime.key, fun entry => return { entry with runTime := ← value Json.uint64 }⟩,
   ⟨TaskField.stackRemaining.key,
    fun entry => return { entry with stackRemaining := ← value Json.uint32 }⟩]

def TaskEntry.record : Record TaskEntry TaskEntry :=
  { fields := taskFields Json.nullable, start := {}, finish := some }

def TaskEntry.reader : Reader TaskEntry := TaskEntry.record.read

def TaskEntry.document (entry : TaskEntry) : Document :=
  .object
    [(TaskField.number.key, .ofOption (fun n => .integer n.toNat) entry.number),
     (TaskField.name.key, .ofOption .text entry.name),
     (TaskField.state.key, .ofOption (fun n => .integer n.toInt) entry.state),
     (TaskField.core.key, .ofOption (fun n => .integer n.toInt) entry.core),
     (TaskField.priority.key, .ofOption (fun n => .integer n.toNat) entry.priority),
     (TaskField.runTime.key, .ofOption (fun n => .integer n.toNat) entry.runTime),
     (TaskField.stackRemaining.key, .ofOption (fun n => .integer n.toNat) entry.stackRemaining)]

def TaskEntry.complete? (entry : TaskEntry) : Option TaskRecord := do
  return {
    number := ← entry.number
    name := ← entry.name
    state := .ofCode (← entry.state)
    core := .ofNumber (← entry.core)
    priority := ← entry.priority
    runTime := ← entry.runTime
    stackRemaining := ← entry.stackRemaining }

def TaskRecord.record : Record TaskEntry TaskRecord :=
  { fields := taskFields Json.present, start := {}, finish := TaskEntry.complete? }

def TaskRecord.reader : Reader TaskRecord := TaskRecord.record.read

def TaskRecord.document (task : TaskRecord) : Document :=
  .object
    [(TaskField.number.key, .integer task.number.toNat),
     (TaskField.name.key, .text task.name),
     (TaskField.state.key, task.state.document),
     (TaskField.core.key, task.core.document),
     (TaskField.priority.key, .integer task.priority.toNat),
     (TaskField.runTime.key, .integer task.runTime.toNat),
     (TaskField.stackRemaining.key, .integer task.stackRemaining.toNat)]

def Reply.record : Record Reply Reply :=
  { fields :=
      [⟨ReplyField.tasks.key,
        fun reply => return { reply with tasks := ← Json.nullable (Json.list TaskEntry.reader) }⟩,
       ⟨ReplyField.runTime.key,
        fun reply => return { reply with runTime := ← Json.nullable Json.uint64 }⟩]
    start := {}
    finish := some }

def Reply.reader : Reader Reply := Reply.record.read

def Reply.document (reply : Reply) : Document :=
  .object
    [(ReplyField.tasks.key, .ofOption (fun tasks => .list (tasks.map (·.document))) reply.tasks),
     (ReplyField.runTime.key, .ofOption (fun n => .integer n.toNat) reply.runTime)]

structure SnapshotParts where
  tasks : Option (List TaskRecord) := none
  runTime : Option UInt64 := none

def Snapshot.record : Record SnapshotParts Snapshot :=
  { fields :=
      [⟨ReplyField.tasks.key,
        fun parts => return { parts with tasks := ← Json.present (Json.list TaskRecord.reader) }⟩,
       ⟨ReplyField.runTime.key,
        fun parts => return { parts with runTime := ← Json.present Json.uint64 }⟩]
    start := {}
    finish := fun parts => return { tasks := ← parts.tasks, runTime := ← parts.runTime } }

def Snapshot.reader : Reader Snapshot := Snapshot.record.read

def Snapshot.document (snapshot : Snapshot) : Document :=
  .object
    [(ReplyField.tasks.key, .list (snapshot.tasks.map (·.document))),
     (ReplyField.runTime.key, .integer snapshot.runTime.toNat)]

end TaskMonitor
