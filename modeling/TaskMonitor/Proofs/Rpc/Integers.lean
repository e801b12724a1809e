import TaskMonitor.Proofs.Json.Places
import TaskMonitor.Proofs.Rpc.Layout

/-! The integers of tasks, replies, snapshots and frames. Wherever one stands in a text, it is read
as exactly the number that its digits spell, or the text is refused. -/

set_option autoImplicit false

namespace TaskMonitor

open Json (Blanks Digits Decimal Reader Record Tree Member Takes Accepts Wraps InObject InRecord
  InList InVariant Guides Exact integer spell)

/-! ## Ranges -/

theorem unsigned_uint32 {n : Int} (low : 0 ≤ n) (high : n ≤ UInt32.size - 1) :
    ((UInt32.ofNat n.toNat).toNat : Int) = n := by
  have size : UInt32.size = 0x100000000 := rfl
  rw [UInt32.toNat_ofNat_of_lt' (by omega)]
  omega

theorem unsigned_uint64 {n : Int} (low : 0 ≤ n) (high : n ≤ UInt64.size - 1) :
    ((UInt64.ofNat n.toNat).toNat : Int) = n := by
  have size : UInt64.size = 0x10000000000000000 := rfl
  rw [UInt64.toNat_ofNat_of_lt' (by omega)]
  omega

theorem signed_int32 {n : Int} (low : Int32.minValue.toInt ≤ n) (high : n ≤ Int32.maxValue.toInt) :
    (Int32.ofInt n).toInt = n :=
  Int32.toInt_ofInt_of_le low (Int.lt_of_le_of_lt high (by decide))

/-! ## Tasks -/

/-- The fields of a task that hold integers. -/
inductive TaskNumber where
  | number
  | state
  | core
  | priority
  | runTime
  | stackRemaining
  deriving DecidableEq, Repr

namespace TaskNumber

def field : TaskNumber → TaskField
  | .number => .number
  | .state => .state
  | .core => .core
  | .priority => .priority
  | .runTime => .runTime
  | .stackRemaining => .stackRemaining

def index : TaskNumber → Nat
  | .number => 0
  | .state => 2
  | .core => 3
  | .priority => 4
  | .runTime => 5
  | .stackRemaining => 6

def least : TaskNumber → Int
  | .state | .core => Int32.minValue.toInt
  | _ => 0

def most : TaskNumber → Int
  | .state | .core => Int32.maxValue.toInt
  | .runTime => UInt64.size - 1
  | _ => UInt32.size - 1

def inEntry : TaskNumber → TaskEntry → Option Int
  | .number, entry => entry.number.map fun n => n.toNat
  | .state, entry => entry.state.map fun n => n.toInt
  | .core, entry => entry.core.map fun n => n.toInt
  | .priority, entry => entry.priority.map fun n => n.toNat
  | .runTime, entry => entry.runTime.map fun n => n.toNat
  | .stackRemaining, entry => entry.stackRemaining.map fun n => n.toNat

def inTask : TaskNumber → TaskRecord → Int
  | .number, task => task.number.toNat
  | .state, task => task.state.code.toInt
  | .core, task => task.core.number.toInt
  | .priority, task => task.priority.toNat
  | .runTime, task => task.runTime.toNat
  | .stackRemaining, task => task.stackRemaining.toNat

def put : TaskNumber → Int → TaskEntry → TaskEntry
  | .number, n, entry => { entry with number := some (.ofNat n.toNat) }
  | .state, n, entry => { entry with state := some (.ofInt n) }
  | .core, n, entry => { entry with core := some (.ofInt n) }
  | .priority, n, entry => { entry with priority := some (.ofNat n.toNat) }
  | .runTime, n, entry => { entry with runTime := some (.ofNat n.toNat) }
  | .stackRemaining, n, entry => { entry with stackRemaining := some (.ofNat n.toNat) }

theorem inEntry_put {kind : TaskNumber} {n : Int} (low : kind.least ≤ n)
    (high : n ≤ kind.most) (entry : TaskEntry) : kind.inEntry (kind.put n entry) = some n := by
  cases kind with
  | number | priority | stackRemaining => exact congrArg some (unsigned_uint32 low high)
  | state | core => exact congrArg some (signed_int32 low high)
  | runTime => exact congrArg some (unsigned_uint64 low high)

section

variable {value : {α : Type} → Reader α → Reader (Option α)}

theorem puts (takes : ∀ {α : Type} {reader : Reader α}, Takes reader → Takes (value reader))
    (wraps : ∀ {α : Type} {reader : Reader α}, Takes reader → Wraps (value reader) reader id)
    (kind : TaskNumber) : ∃ field, (taskFields value)[kind.index]? = some field ∧
      field.key = kind.field.key ∧
      field.Puts (integer kind.least kind.most) kind.put := by
  have uint32 := (wraps Json.takes_uint32).of_map (Json.takes_integer _ _)
  have uint64 := (wraps Json.takes_uint64).of_map (Json.takes_integer _ _)
  have int32 := (wraps Json.takes_int32).of_map (Json.takes_integer _ _)
  cases kind with
  | number | priority | stackRemaining =>
    refine ⟨_, rfl, rfl, ?_⟩
    exact uint32.puts (takes Json.takes_uint32) (fun _ => rfl) (fun _ _ => rfl) fun _ _ _ => rfl
  | state | core =>
    refine ⟨_, rfl, rfl, ?_⟩
    exact int32.puts (takes Json.takes_int32) (fun _ => rfl) (fun _ _ => rfl) fun _ _ _ => rfl
  | runTime =>
    refine ⟨_, rfl, rfl, ?_⟩
    exact uint64.puts (takes Json.takes_uint64) (fun _ => rfl) (fun _ _ => rfl) fun _ _ _ => rfl

theorem apart (takes : ∀ {α : Type} {reader : Reader α}, Takes reader → Takes (value reader))
    (kind : TaskNumber) : ∀ other ∈ taskFields value, other.key ≠ kind.field.key →
      other.Apart kind.put := by
  simp only [taskFields, List.forall_mem_cons]
  refine ⟨fun other => ?_, fun _ => ?_, fun other => ?_, fun other => ?_, fun other => ?_,
    fun other => ?_, fun other => ?_, by simp⟩
  · cases kind <;> first
      | exact absurd rfl other
      | exact (takes Json.takes_uint32).apart (fun _ => rfl) fun _ _ _ => rfl
  · cases kind <;> exact (takes Json.takes_text).apart (fun _ => rfl) fun _ _ _ => rfl
  · cases kind <;> first
      | exact absurd rfl other
      | exact (takes Json.takes_int32).apart (fun _ => rfl) fun _ _ _ => rfl
  · cases kind <;> first
      | exact absurd rfl other
      | exact (takes Json.takes_int32).apart (fun _ => rfl) fun _ _ _ => rfl
  · cases kind <;> first
      | exact absurd rfl other
      | exact (takes Json.takes_uint32).apart (fun _ => rfl) fun _ _ _ => rfl
  · cases kind <;> first
      | exact absurd rfl other
      | exact (takes Json.takes_uint64).apart (fun _ => rfl) fun _ _ _ => rfl
  · cases kind <;> first
      | exact absurd rfl other
      | exact (takes Json.takes_uint32).apart (fun _ => rfl) fun _ _ _ => rfl

end

theorem complete?_put {kind : TaskNumber} {entry : TaskEntry} {task : TaskRecord}
    (complete : entry.complete? = some task) (n : Int) :
    ∃ other, (kind.put n entry).complete? = some other := by
  simp only [TaskEntry.complete?, Option.bind_eq_bind, Option.bind_eq_some_iff] at complete
  obtain ⟨_, number, _, name, _, state, _, core, _, priority, _, runTime, _, stack, _⟩ := complete
  cases kind <;>
    simp [put, TaskEntry.complete?, number, name, state, core, priority, runTime, stack]

theorem inEntry_of_complete {entry : TaskEntry} {task : TaskRecord}
    (complete : entry.complete? = some task) (kind : TaskNumber) :
    kind.inEntry entry = some (kind.inTask task) := by
  simp only [TaskEntry.complete?, Option.bind_eq_bind, Option.bind_eq_some_iff,
    Option.pure_def] at complete
  obtain ⟨_, number, _, name, _, state, _, core, _, priority, _, runTime, _, stack, same⟩ :=
    complete
  cases same
  cases kind <;> simp [inEntry, inTask, number, state, core, priority, runTime, stack]

theorem range (kind : TaskNumber) :
    Int64.minValue.toInt ≤ kind.least ∧ kind.most < UInt64.size := by
  cases kind <;> decide

end TaskNumber

theorem TaskEntry.guides {kind : TaskNumber} {around : Tree → Tree}
    (place : InRecord kind.index kind.field.key around) :
    Guides TaskEntry.reader (integer kind.least kind.most) around kind.inEntry := by
  obtain ⟨field, placed, key, puts⟩ := kind.puts Takes.nullable Takes.wraps_nullable
  have keeps : TaskEntry.record.Keeps kind.index field (integer kind.least kind.most) kind.put
      kind.inEntry :=
    { takes := takes_taskFields Takes.nullable
      placed
      names := by decide
      puts
      apart := key ▸ kind.apart Takes.nullable
      finish := by
        intro tree n entry _ accepts _
        obtain ⟨_, _, low, high⟩ := Json.accepts_integer_iff.mp accepts
        exact ⟨_, rfl, TaskNumber.inEntry_put low high entry⟩ }
  exact keeps.guides (key ▸ place)

theorem TaskRecord.takes_fields :
    ∀ field ∈ TaskRecord.record.fields, ∀ entry, Takes (field.read entry) :=
  takes_taskFields Takes.present

theorem TaskRecord.takes : Takes TaskRecord.reader := Json.takes_record TaskRecord.takes_fields

theorem TaskRecord.guides {kind : TaskNumber} {around : Tree → Tree}
    (place : InRecord kind.index kind.field.key around) :
    Guides TaskRecord.reader (integer kind.least kind.most) around
      fun task => some (kind.inTask task) := by
  obtain ⟨field, placed, key, puts⟩ := kind.puts Takes.present Takes.wraps_present
  have keeps : TaskRecord.record.Keeps kind.index field (integer kind.least kind.most) kind.put
      fun task => some (kind.inTask task) :=
    { takes := TaskRecord.takes_fields
      placed
      names := by decide
      puts
      apart := key ▸ kind.apart Takes.present
      finish := by
        intro tree n entry task accepts complete
        obtain ⟨_, _, low, high⟩ := Json.accepts_integer_iff.mp accepts
        obtain ⟨other, complete⟩ := TaskNumber.complete?_put complete n
        have held := TaskNumber.inEntry_of_complete complete kind
        exact ⟨other, complete, held.symm.trans (TaskNumber.inEntry_put low high entry)⟩ }
  exact keeps.guides (key ▸ place)

/-! ## Replies and snapshots -/

inductive ReplyNumber where
  | runTime
  | task (index : Nat) (kind : TaskNumber)
  deriving DecidableEq, Repr

namespace ReplyNumber

def least : ReplyNumber → Int
  | .runTime => 0
  | .task _ kind => kind.least

def most : ReplyNumber → Int
  | .runTime => UInt64.size - 1
  | .task _ kind => kind.most

def inReply : ReplyNumber → Reply → Option Int
  | .runTime, reply => reply.runTime.map fun n => n.toNat
  | .task index kind, reply => reply.tasks.bind fun tasks => tasks[index]?.bind kind.inEntry

def inSnapshot : ReplyNumber → Snapshot → Option Int
  | .runTime, snapshot => some snapshot.runTime.toNat
  | .task index kind, snapshot => snapshot.tasks[index]?.bind fun task => some (kind.inTask task)

/-- Where the integer stands in the text of the reply or the snapshot. -/
inductive At : ReplyNumber → (Tree → Tree) → Prop where
  | runTime {around : Tree → Tree} : InRecord 1 ReplyField.runTime.key around → At .runTime around
  | task {index : Nat} {kind : TaskNumber} {tasks task field : Tree → Tree} :
      InRecord 0 ReplyField.tasks.key tasks → InList index task →
      InRecord kind.index kind.field.key field →
      At (.task index kind) fun tree => tasks (task (field tree))

theorem range (kind : ReplyNumber) :
    Int64.minValue.toInt ≤ kind.least ∧ kind.most < UInt64.size := by
  cases kind with
  | runTime => decide
  | task _ kind => exact kind.range

theorem At.solid {kind : ReplyNumber} {around : Tree → Tree} (place : kind.At around)
    (tree : Tree) : around tree ≠ .null := by
  cases place with
  | runTime runTime => exact runTime.solid tree
  | task tasks => exact tasks.solid _

end ReplyNumber

theorem Reply.guides_tasks {around : Tree → Tree}
    (place : InRecord 0 ReplyField.tasks.key around) :
    Guides Reply.reader (Json.list TaskEntry.reader) around fun reply => reply.tasks := by
  have keeps : Reply.record.Keeps 0 _ (Json.list TaskEntry.reader)
      (fun tasks reply => { reply with tasks := some tasks }) fun reply => reply.tasks :=
    { takes := Reply.takes_fields
      placed := rfl
      names := by decide
      puts := TaskEntry.takes.list.wraps_nullable.puts TaskEntry.takes.list.nullable (fun _ => rfl)
        (fun _ _ => rfl) fun _ _ _ => rfl
      apart := by
        simp only [Reply.record, List.forall_mem_cons]
        refine ⟨fun other => absurd rfl other, fun _ => ?_, by simp⟩
        exact Json.takes_uint64.nullable.apart (fun _ => rfl) fun _ _ _ => rfl
      finish := fun _ _ => ⟨_, rfl, rfl⟩ }
  exact keeps.guides place

theorem Reply.guides_runTime {around : Tree → Tree}
    (place : InRecord 1 ReplyField.runTime.key around) :
    Guides Reply.reader (integer 0 (UInt64.size - 1)) around
      fun reply => reply.runTime.map fun n => (n.toNat : Int) := by
  have wraps := Json.takes_uint64.wraps_nullable.of_map (Json.takes_integer _ _)
  have keeps : Reply.record.Keeps 1 _ (integer 0 (UInt64.size - 1))
      (fun n reply => { reply with runTime := some (.ofNat n.toNat) })
      fun reply => reply.runTime.map fun n => (n.toNat : Int) :=
    { takes := Reply.takes_fields
      placed := rfl
      names := by decide
      puts := wraps.puts Json.takes_uint64.nullable (fun _ => rfl) (fun _ _ => rfl)
        fun _ _ _ => rfl
      apart := by
        simp only [Reply.record, List.forall_mem_cons]
        refine ⟨fun _ => ?_, fun other => absurd rfl other, by simp⟩
        exact TaskEntry.takes.list.nullable.apart (fun _ => rfl) fun _ _ _ => rfl
      finish := by
        intro tree n reply _ accepts _
        obtain ⟨_, _, low, high⟩ := Json.accepts_integer_iff.mp accepts
        exact ⟨_, rfl, congrArg some (unsigned_uint64 low high)⟩ }
  exact keeps.guides place

theorem Reply.guides {kind : ReplyNumber} {around : Tree → Tree} (place : kind.At around) :
    Guides Reply.reader (integer kind.least kind.most) around kind.inReply := by
  cases place with
  | runTime place => exact Reply.guides_runTime place
  | task tasks task field =>
    exact (Reply.guides_tasks tasks).within
      ((task.guides TaskEntry.takes).within (TaskEntry.guides field) field.solid)
      fun _ => task.solid _

theorem Snapshot.takes_fields :
    ∀ field ∈ Snapshot.record.fields, ∀ parts, Takes (field.read parts) := by
  simp only [Snapshot.record, List.forall_mem_cons]
  exact ⟨fun _ => TaskRecord.takes.list.present.map _, fun _ => Json.takes_uint64.present.map _,
    by simp⟩

theorem Snapshot.takes : Takes Snapshot.reader := Json.takes_record Snapshot.takes_fields

theorem Snapshot.finish_eq_some {parts : SnapshotParts} {snapshot : Snapshot} :
    Snapshot.record.finish parts = some snapshot ↔
      parts.tasks = some snapshot.tasks ∧ parts.runTime = some snapshot.runTime := by
  obtain ⟨tasks, runTime⟩ := parts
  obtain ⟨_, _⟩ := snapshot
  cases tasks <;> cases runTime <;> simp [Snapshot.record]

theorem Snapshot.guides_tasks {around : Tree → Tree}
    (place : InRecord 0 ReplyField.tasks.key around) :
    Guides Snapshot.reader (Json.list TaskRecord.reader) around
      fun snapshot => some snapshot.tasks := by
  have keeps : Snapshot.record.Keeps 0 _ (Json.list TaskRecord.reader)
      (fun tasks parts => { parts with tasks := some tasks }) fun snapshot => some snapshot.tasks :=
    { takes := Snapshot.takes_fields
      placed := rfl
      names := by decide
      puts := TaskRecord.takes.list.wraps_present.puts TaskRecord.takes.list.present (fun _ => rfl)
        (fun _ _ => rfl) fun _ _ _ => rfl
      apart := by
        simp only [Snapshot.record, List.forall_mem_cons]
        refine ⟨fun other => absurd rfl other, fun _ => ?_, by simp⟩
        exact Json.takes_uint64.present.apart (fun _ => rfl) fun _ _ _ => rfl
      finish := by
        intro _ tasks parts snapshot _ finished
        obtain ⟨_, runTime⟩ := Snapshot.finish_eq_some.mp finished
        exact ⟨⟨tasks, snapshot.runTime⟩, Snapshot.finish_eq_some.mpr ⟨rfl, runTime⟩, rfl⟩ }
  exact keeps.guides place

theorem Snapshot.guides_runTime {around : Tree → Tree}
    (place : InRecord 1 ReplyField.runTime.key around) :
    Guides Snapshot.reader (integer 0 (UInt64.size - 1)) around
      fun snapshot => some (snapshot.runTime.toNat : Int) := by
  have wraps := Json.takes_uint64.wraps_present.of_map (Json.takes_integer _ _)
  have keeps : Snapshot.record.Keeps 1 _ (integer 0 (UInt64.size - 1))
      (fun n parts => { parts with runTime := some (.ofNat n.toNat) })
      fun snapshot => some (snapshot.runTime.toNat : Int) :=
    { takes := Snapshot.takes_fields
      placed := rfl
      names := by decide
      puts := wraps.puts Json.takes_uint64.present (fun _ => rfl) (fun _ _ => rfl)
        fun _ _ _ => rfl
      apart := by
        simp only [Snapshot.record, List.forall_mem_cons]
        refine ⟨fun _ => ?_, fun other => absurd rfl other, by simp⟩
        exact TaskRecord.takes.list.present.apart (fun _ => rfl) fun _ _ _ => rfl
      finish := by
        intro tree n parts snapshot accepts finished
        obtain ⟨_, _, low, high⟩ := Json.accepts_integer_iff.mp accepts
        obtain ⟨tasks, _⟩ := Snapshot.finish_eq_some.mp finished
        exact ⟨⟨snapshot.tasks, .ofNat n.toNat⟩, Snapshot.finish_eq_some.mpr ⟨tasks, rfl⟩,
          congrArg some (unsigned_uint64 low high)⟩ }
  exact keeps.guides place

theorem Snapshot.guides {kind : ReplyNumber} {around : Tree → Tree} (place : kind.At around) :
    Guides Snapshot.reader (integer kind.least kind.most) around kind.inSnapshot := by
  cases place with
  | runTime place => exact Snapshot.guides_runTime place
  | task tasks task field =>
    exact (Snapshot.guides_tasks tasks).within
      ((task.guides TaskRecord.takes).within (TaskRecord.guides field) field.solid)
      fun _ => task.solid _

namespace Rpc

/-! ## Frames -/

def Callset.message : Callset → Option TaskMessage
  | .rtosUtils message => some message

def TaskMessage.reply? : TaskMessage → Option Reply
  | .request => none
  | .answer reply => some reply

inductive FrameNumber where
  | seqn
  | reply (kind : ReplyNumber)
  deriving DecidableEq, Repr

namespace FrameNumber

def least : FrameNumber → Int
  | .seqn => 0
  | .reply kind => kind.least

def most : FrameNumber → Int
  | .seqn => UInt32.size - 1
  | .reply kind => kind.most

def inFrame : FrameNumber → Frame → Option Int
  | .seqn, frame => some frame.header.seqn.toNat
  | .reply kind, frame => frame.callset.bind fun callset =>
    callset.message.bind fun message => message.reply?.bind kind.inReply

inductive At : FrameNumber → (Tree → Tree) → Prop where
  | seqn {header field : Tree → Tree} : InRecord 0 "header" header → InRecord 0 "seqn" field →
      At .seqn fun tree => header (field tree)
  | reply {kind : ReplyNumber} {callset message reply field : Tree → Tree} :
      InRecord 1 "callset" callset → InVariant "rtosutils" message →
      InVariant "get_system_tasks_reply" reply → kind.At field →
      At (.reply kind) fun tree => callset (message (reply (field tree)))

theorem range (kind : FrameNumber) :
    Int64.minValue.toInt ≤ kind.least ∧ kind.most < UInt64.size := by
  cases kind with
  | seqn => decide
  | reply kind => exact kind.range

end FrameNumber

theorem Header.finish_eq_some {parts : HeaderParts} {header : Header} :
    Header.record.finish parts = some header ↔ parts.seqn = some header.seqn ∧
      parts.noReply = header.noReply ∧ parts.status = header.status := by
  obtain ⟨seqn, _, _⟩ := parts
  obtain ⟨_, _, _⟩ := header
  cases seqn <;> simp [Header.record]

theorem Header.guides {around : Tree → Tree} (place : InRecord 0 "seqn" around) :
    Guides Header.reader (integer 0 (UInt32.size - 1)) around
      fun header => some (header.seqn.toNat : Int) := by
  have wraps := Json.takes_uint32.wraps_present.of_map (Json.takes_integer _ _)
  have keeps : Header.record.Keeps 0 _ (integer 0 (UInt32.size - 1))
      (fun n parts => { parts with seqn := some (.ofNat n.toNat) })
      fun header => some (header.seqn.toNat : Int) :=
    { takes := Header.takes_fields
      placed := rfl
      names := by decide
      puts := wraps.puts Json.takes_uint32.present (fun _ => rfl) (fun _ _ => rfl)
        fun _ _ _ => rfl
      apart := by
        simp only [Header.record, List.forall_mem_cons]
        refine ⟨fun other => absurd rfl other, fun _ => ?_, fun _ => ?_, by simp⟩
        · exact Json.takes_bool.apart (fun _ => rfl) fun _ _ _ => rfl
        · exact Status.takes.apart (fun _ => rfl) fun _ _ _ => rfl
      finish := by
        intro tree n parts header accepts finished
        obtain ⟨_, _, low, high⟩ := Json.accepts_integer_iff.mp accepts
        obtain ⟨_, others⟩ := Header.finish_eq_some.mp finished
        exact ⟨{ header with seqn := .ofNat n.toNat }, Header.finish_eq_some.mpr ⟨rfl, others⟩,
          congrArg some (unsigned_uint32 low high)⟩ }
  exact keeps.guides place

theorem Frame.finish_eq_some {parts : FrameParts} {frame : Frame} :
    Frame.record.finish parts = some frame ↔
      parts.header = some frame.header ∧ parts.callset = frame.callset := by
  obtain ⟨header, _⟩ := parts
  obtain ⟨_, _⟩ := frame
  cases header <;> simp [Frame.record]

theorem Frame.guides_header {around : Tree → Tree} (place : InRecord 0 "header" around) :
    Guides Frame.reader Header.reader around fun frame => some frame.header := by
  have keeps : Frame.record.Keeps 0 _ Header.reader
      (fun header parts => { parts with header := some header }) fun frame => some frame.header :=
    { takes := Frame.takes_fields
      placed := rfl
      names := by decide
      puts := Header.takes.wraps_present.puts Header.takes.present (fun _ => rfl) (fun _ _ => rfl)
        fun _ _ _ => rfl
      apart := by
        simp only [Frame.record, List.forall_mem_cons]
        refine ⟨fun other => absurd rfl other, fun _ => ?_, by simp⟩
        exact Callset.takes.nullable.apart (fun _ => rfl) fun _ _ _ => rfl
      finish := by
        intro _ header parts frame _ finished
        obtain ⟨_, callset⟩ := Frame.finish_eq_some.mp finished
        exact ⟨⟨header, frame.callset⟩, Frame.finish_eq_some.mpr ⟨rfl, callset⟩, rfl⟩ }
  exact keeps.guides place

theorem Frame.guides_callset {around : Tree → Tree} (place : InRecord 1 "callset" around) :
    Guides Frame.reader Callset.reader around fun frame => frame.callset := by
  have keeps : Frame.record.Keeps 1 _ Callset.reader
      (fun callset parts => { parts with callset := some callset }) fun frame => frame.callset :=
    { takes := Frame.takes_fields
      placed := rfl
      names := by decide
      puts := Callset.takes.wraps_nullable.puts Callset.takes.nullable (fun _ => rfl)
        (fun _ _ => rfl) fun _ _ _ => rfl
      apart := by
        simp only [Frame.record, List.forall_mem_cons]
        refine ⟨fun _ => ?_, fun other => absurd rfl other, by simp⟩
        exact Header.takes.present.apart (fun _ => rfl) fun _ _ _ => rfl
      finish := by
        intro _ callset parts frame _ finished
        obtain ⟨header, _⟩ := Frame.finish_eq_some.mp finished
        exact ⟨⟨frame.header, some callset⟩, Frame.finish_eq_some.mpr ⟨header, rfl⟩, rfl⟩ }
  exact keeps.guides place

theorem Callset.guides {around : Tree → Tree} (place : InVariant "rtosutils" around) :
    Guides Callset.reader TaskMessage.reader around Callset.message :=
  place.guides Callset.contents TaskMessage.takes rfl fun _ => rfl

theorem TaskMessage.guides {around : Tree → Tree}
    (place : InVariant "get_system_tasks_reply" around) :
    Guides TaskMessage.reader Reply.reader around TaskMessage.reply? :=
  place.guides TaskMessage.contents Reply.takes rfl fun _ => rfl

theorem Frame.guides {kind : FrameNumber} {around : Tree → Tree} (place : kind.At around) :
    Guides Frame.reader (integer kind.least kind.most) around kind.inFrame := by
  cases place with
  | seqn header field =>
    exact (Frame.guides_header header).within (Header.guides field) field.solid
  | reply callset message reply field =>
    have inner := (TaskMessage.guides reply).within (Reply.guides field) field.solid
    have middle := (Callset.guides message).within inner fun _ => reply.solid _
    exact (Frame.guides_callset callset).within middle fun _ => message.solid _

/-! ## Literals -/

/-- An integer in the place of an integer of a task, a reply, a snapshot or a frame is read as what
its digits spell if it is in the range of its place. Otherwise the text is refused. -/
theorem integers_exact :
    (∀ (kind : TaskNumber) (around : Tree → Tree), InRecord kind.index kind.field.key around →
      Exact (Json.read TaskEntry.reader) around kind.least kind.most kind.inEntry ∧
        Exact (Json.read TaskRecord.reader) around kind.least kind.most
          fun task => some (kind.inTask task)) ∧
      (∀ (kind : ReplyNumber) (around : Tree → Tree), kind.At around →
        Exact (Json.read Reply.reader) around kind.least kind.most kind.inReply ∧
          Exact (Json.read Snapshot.reader) around kind.least kind.most kind.inSnapshot) ∧
      ∀ (kind : FrameNumber) (around : Tree → Tree), kind.At around →
        Exact Frame.decode around kind.least kind.most kind.inFrame := by
  refine ⟨fun kind around place => ?_, fun kind around place => ?_, fun kind around place => ?_⟩
  · obtain ⟨low, high⟩ := kind.range
    exact ⟨(TaskEntry.guides place).exact TaskEntry.takes low high,
      (TaskRecord.guides place).exact TaskRecord.takes low high⟩
  · obtain ⟨low, high⟩ := kind.range
    exact ⟨(Reply.guides place).exact Reply.takes low high,
      (Snapshot.guides place).exact Snapshot.takes low high⟩
  · obtain ⟨low, high⟩ := kind.range
    exact (Frame.guides place).exact takes_frame low high

def numberedFrame (tree : Tree) : Tree :=
  .object .none [.bare "header" (.object .none [.bare "seqn" tree])]

def listedEntry (tree : Tree) : Tree :=
  .list .none [⟨.none, .null, .none⟩, ⟨.none, .null, .none⟩, ⟨.none, tree, .none⟩]

theorem inRecord_bare (index : Nat) (name : String) :
    InRecord index name fun tree => .object .none [.bare name tree] :=
  .member (@InObject.mk name [] [] ⟨.none, spell name.toList, .none⟩ .none .none .none
    (Member.name_bare name .null))

theorem numberedFrame_at : FrameNumber.At .seqn numberedFrame :=
  @FrameNumber.At.seqn (fun tree => .object .none [.bare "header" tree])
    (fun tree => .object .none [.bare "seqn" tree]) (inRecord_bare 0 "header")
    (inRecord_bare 0 "seqn")

theorem listedEntry_at : InRecord 2 "state" listedEntry :=
  .element (@InList.mk 2 [⟨.none, .null, .none⟩, ⟨.none, .null, .none⟩] [] .none .none .none rfl)

def literal (negative : Bool) (digits : Digits) (zero : digits.first ≠ 0x30) : Decimal :=
  ⟨negative, digits, none, none, fun same => absurd same zero⟩

theorem whole_literal {negative : Bool} {digits : Digits} {zero : digits.first ≠ 0x30} :
    (literal negative digits zero).Whole :=
  ⟨rfl, rfl, fun _ => zero⟩

/-- The ends of the ranges of sequence numbers and states. A digit more than 64 bits hold makes no
difference. -/
theorem integers_exact_limits :
    (∃ frame, Frame.decode (Utf8.encode "\x7b\"header\":\x7b\"seqn\":4294967295\x7d\x7d".toList) =
        .ok frame ∧ frame.header.seqn.toNat = 4294967295) ∧
      (∃ fault, Frame.decode (Utf8.encode
        "\x7b\"header\":\x7b\"seqn\":18446744073709551623\x7d\x7d".toList) = .error fault) ∧
      (∃ entry, Json.read TaskEntry.reader (Utf8.encode "[null,null,-2147483648]".toList) =
        .ok entry ∧ entry.state.map Int32.toInt = some (-2147483648)) ∧
      ∃ fault, Json.read TaskEntry.reader (Utf8.encode "[null,null,-2147483649]".toList) =
        .error fault := by
  let seven := literal false ⟨0x37, [], by decide +kernel⟩ (by decide +kernel)
  let largest := literal false ⟨0x34, [0x32, 0x39, 0x34, 0x39, 0x36, 0x37, 0x32, 0x39, 0x35],
    by decide +kernel⟩ (by decide +kernel)
  let wrapped := literal false ⟨0x31, [0x38, 0x34, 0x34, 0x36, 0x37, 0x34, 0x34, 0x30, 0x37, 0x33,
    0x37, 0x30, 0x39, 0x35, 0x35, 0x31, 0x36, 0x32, 0x33], by decide +kernel⟩ (by decide +kernel)
  let least := literal true ⟨0x32, [0x31, 0x34, 0x37, 0x34, 0x38, 0x33, 0x36, 0x34, 0x38],
    by decide +kernel⟩ (by decide +kernel)
  let below := literal true ⟨0x32, [0x31, 0x34, 0x37, 0x34, 0x38, 0x33, 0x36, 0x34, 0x39],
    by decide +kernel⟩ (by decide +kernel)
  have frame : Frame.decode (Blanks.none.bytes ++ ((numberedFrame (.number seven)).bytes ++
      Blanks.none.bytes)) = .ok ⟨{ seqn := 7 }, none⟩ := by
    decide +kernel
  have entry : Json.read TaskEntry.reader (Blanks.none.bytes ++
      ((listedEntry (.number seven)).bytes ++ Blanks.none.bytes)) = .ok { state := some 7 } := by
    decide +kernel
  obtain ⟨tasks, _, frames⟩ := integers_exact
  have frames := frames .seqn numberedFrame numberedFrame_at frame
  have tasks := (tasks .state listedEntry listedEntry_at).1 entry
  have first : Blanks.none.bytes ++ ((numberedFrame (.number largest)).bytes ++
      Blanks.none.bytes) = Utf8.encode "\x7b\"header\":\x7b\"seqn\":4294967295\x7d\x7d".toList := by
    decide +kernel
  have second : Blanks.none.bytes ++ ((numberedFrame (.number wrapped)).bytes ++
      Blanks.none.bytes) =
      Utf8.encode "\x7b\"header\":\x7b\"seqn\":18446744073709551623\x7d\x7d".toList := by
    decide +kernel
  have third : Blanks.none.bytes ++ ((listedEntry (.number least)).bytes ++ Blanks.none.bytes) =
      Utf8.encode "[null,null,-2147483648]".toList := by
    decide +kernel
  have fourth : Blanks.none.bytes ++ ((listedEntry (.number below)).bytes ++ Blanks.none.bytes) =
      Utf8.encode "[null,null,-2147483649]".toList := by
    decide +kernel
  rw [← first, ← second, ← third, ← fourth]
  refine ⟨?_, ?_, ?_, ?_⟩
  · obtain ⟨frame, decoded, held⟩ := (@frames largest whole_literal).1 (by decide +kernel)
    have value : largest.integer = 4294967295 := by decide +kernel
    exact ⟨frame, decoded, Int.ofNat.inj (Option.some.inj (held.trans (congrArg some value)))⟩
  · exact (@frames wrapped whole_literal).2 (by decide +kernel)
  · obtain ⟨entry, decoded, held⟩ := (@tasks least whole_literal).1 (by decide +kernel)
    have value : least.integer = -2147483648 := by decide +kernel
    exact ⟨entry, decoded, held.trans (congrArg some value)⟩
  · exact (@tasks below whole_literal).2 (by decide +kernel)

end Rpc

end TaskMonitor
