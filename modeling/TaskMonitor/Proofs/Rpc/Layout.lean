import TaskMonitor.Proofs.Json.Compact
import TaskMonitor.Proofs.Json.Taken
import TaskMonitor.Proofs.Rpc.Message

/-! The texts of a frame. Members may stand in any order among others that newer devices add, and
members that hold their default may be left out. A field that stands twice is refused. -/

set_option autoImplicit false

namespace TaskMonitor

open Json (Blanks Digits HexDigit Piece Tree Member Slot Accepts Covers Spells Takes Layout
  IntegerForm TextForm OptionForm ListForm spell knownNames held_full)

/-! ## Tasks and replies -/

def TaskEntry.slots (entry : TaskEntry) : List Slot :=
  [⟨"number", OptionForm (fun n => IntegerForm n.toNat) entry.number, entry.number = none⟩,
   ⟨"name", OptionForm TextForm entry.name, entry.name = none⟩,
   ⟨"state", OptionForm (fun n => IntegerForm n.toInt) entry.state, entry.state = none⟩,
   ⟨"core_num", OptionForm (fun n => IntegerForm n.toInt) entry.core, entry.core = none⟩,
   ⟨"prio", OptionForm (fun n => IntegerForm n.toNat) entry.priority, entry.priority = none⟩,
   ⟨"rtc", OptionForm (fun n => IntegerForm n.toNat) entry.runTime, entry.runTime = none⟩,
   ⟨"stack_remaining", OptionForm (fun n => IntegerForm n.toNat) entry.stackRemaining,
    entry.stackRemaining = none⟩]

def TaskEntry.Form (entry : TaskEntry) (tree : Tree) : Prop := tree.Fills entry.slots

/-- What is known of a task once the fields of some names have been read. -/
def TaskEntry.held (entry : TaskEntry) (seen : List String) : TaskEntry where
  number := Json.held seen "number" entry.number none
  name := Json.held seen "name" entry.name none
  state := Json.held seen "state" entry.state none
  core := Json.held seen "core_num" entry.core none
  priority := Json.held seen "prio" entry.priority none
  runTime := Json.held seen "rtc" entry.runTime none
  stackRemaining := Json.held seen "stack_remaining" entry.stackRemaining none

theorem accepts_uint32? {value : Option UInt32} {tree : Tree}
    (form : OptionForm (fun n => IntegerForm n.toNat) value tree) :
    Accepts (Json.nullable Json.uint32) tree value :=
  form.accepts fun form => ⟨form.not_null, Json.accepts_uint32 form⟩

theorem accepts_uint64? {value : Option UInt64} {tree : Tree}
    (form : OptionForm (fun n => IntegerForm n.toNat) value tree) :
    Accepts (Json.nullable Json.uint64) tree value :=
  form.accepts fun form => ⟨form.not_null, Json.accepts_uint64 form⟩

theorem accepts_int32? {value : Option Int32} {tree : Tree}
    (form : OptionForm (fun n => IntegerForm n.toInt) value tree) :
    Accepts (Json.nullable Json.int32) tree value :=
  form.accepts fun form => ⟨form.not_null, Json.accepts_int32 form⟩

theorem accepts_text? {value : Option String} {tree : Tree}
    (form : OptionForm TextForm value tree) : Accepts (Json.nullable Json.text) tree value :=
  form.accepts fun form => ⟨form.not_null, form.accepts⟩

theorem TaskEntry.layout (entry : TaskEntry) :
    Layout TaskEntry.record entry.slots entry entry.held where
  start := rfl
  field := by
    refine .cons ⟨rfl, fun _ _ _ form => (accepts_uint32? form).put _ (by simp [held])⟩ ?_
    refine .cons ⟨rfl, fun _ _ _ form => (accepts_text? form).put _ (by simp [held])⟩ ?_
    refine .cons ⟨rfl, fun _ _ _ form => (accepts_int32? form).put _ (by simp [held])⟩ ?_
    refine .cons ⟨rfl, fun _ _ _ form => (accepts_int32? form).put _ (by simp [held])⟩ ?_
    refine .cons ⟨rfl, fun _ _ _ form => (accepts_uint32? form).put _ (by simp [held])⟩ ?_
    refine .cons ⟨rfl, fun _ _ _ form => (accepts_uint64? form).put _ (by simp [held])⟩ ?_
    refine .cons ⟨rfl, fun _ _ _ form => (accepts_uint32? form).put _ (by simp [held])⟩ ?_
    exact .nil
  finish := by
    intro seen full
    simp only [slots, List.forall_mem_cons] at full
    obtain ⟨number, name, state, core, priority, runTime, stack, _⟩ := full
    simp only [held, held_full number, held_full name, held_full state, held_full core,
      held_full priority, held_full runTime, held_full stack]
    rfl

theorem TaskEntry.Form.accepts {entry : TaskEntry} {tree : Tree} (form : entry.Form tree) :
    Accepts TaskEntry.reader tree entry :=
  entry.layout.accepts form

theorem spells_unsigned? {α : Type} (number : α → Nat) (value : Option α) :
    Spells (.ofOption (fun n => .integer (number n)) value)
      (OptionForm (fun n => IntegerForm (number n)) value) :=
  Json.spells_ofOption (fun n => Json.spells_integer (number n)) value

theorem spells_int32? (value : Option Int32) :
    Spells (.ofOption (fun n => .integer n.toInt) value)
      (OptionForm (fun n => IntegerForm n.toInt) value) :=
  Json.spells_ofOption (fun n => Json.spells_integer n.toInt) value

theorem TaskEntry.spells (entry : TaskEntry) : Spells entry.document entry.Form := by
  refine Covers.spells ?_ (by simp [slots])
  refine .field (spells_unsigned? _ entry.number) ?_
  refine .field (Json.spells_ofOption Json.spells_text entry.name) ?_
  refine .field (spells_int32? entry.state) ?_
  refine .field (spells_int32? entry.core) ?_
  refine .field (spells_unsigned? _ entry.priority) ?_
  refine .field (spells_unsigned? _ entry.runTime) ?_
  refine .field (spells_unsigned? _ entry.stackRemaining) ?_
  exact .nil

def Reply.slots (reply : Reply) : List Slot :=
  [⟨"task_info", OptionForm (ListForm TaskEntry.Form) reply.tasks, reply.tasks = none⟩,
   ⟨"run_time", OptionForm (fun n => IntegerForm n.toNat) reply.runTime, reply.runTime = none⟩]

def Reply.Form (reply : Reply) (tree : Tree) : Prop := tree.Fills reply.slots

def Reply.held (reply : Reply) (seen : List String) : Reply where
  tasks := Json.held seen "task_info" reply.tasks none
  runTime := Json.held seen "run_time" reply.runTime none

theorem Reply.layout (reply : Reply) : Layout Reply.record reply.slots reply reply.held where
  start := rfl
  field := by
    refine .cons ⟨rfl, fun seen tree _ form => ?_⟩ ?_
    · have tasks : Accepts (Json.nullable (Json.list TaskEntry.reader)) tree reply.tasks :=
        form.accepts fun tasks => ⟨tasks.not_null, tasks.accepts fun entry => entry.accepts⟩
      exact tasks.put _ (by simp [held])
    refine .cons ⟨rfl, fun _ _ _ form => (accepts_uint64? form).put _ (by simp [held])⟩ ?_
    exact .nil
  finish := by
    intro seen full
    simp only [slots, List.forall_mem_cons] at full
    obtain ⟨tasks, runTime, _⟩ := full
    simp only [held, held_full tasks, held_full runTime]
    rfl

theorem Reply.Form.accepts {reply : Reply} {tree : Tree} (form : reply.Form tree) :
    Accepts Reply.reader tree reply :=
  reply.layout.accepts form

theorem Reply.spells (reply : Reply) : Spells reply.document reply.Form := by
  refine Covers.spells ?_ (by simp [slots])
  refine .field (Json.spells_ofOption (fun tasks => ?_) reply.tasks) ?_
  · exact Json.spells_list fun entry _ => entry.spells
  refine .field (spells_unsigned? _ reply.runTime) ?_
  exact .nil

theorem takes_taskFields {value : {α : Type} → Json.Reader α → Json.Reader (Option α)}
    (takes : ∀ {α : Type} {reader : Json.Reader α}, Takes reader → Takes (value reader)) :
    ∀ field ∈ taskFields value, ∀ entry, Takes (field.read entry) := by
  simp only [taskFields, List.forall_mem_cons]
  refine ⟨fun _ => (takes Json.takes_uint32).map _, fun _ => (takes Json.takes_text).map _,
    fun _ => (takes Json.takes_int32).map _, fun _ => (takes Json.takes_int32).map _,
    fun _ => (takes Json.takes_uint32).map _, fun _ => (takes Json.takes_uint64).map _,
    fun _ => (takes Json.takes_uint32).map _, by simp⟩

theorem TaskEntry.takes : Takes TaskEntry.reader :=
  Json.takes_record (takes_taskFields Takes.nullable)

theorem Reply.takes_fields : ∀ field ∈ Reply.record.fields, ∀ reply, Takes (field.read reply) := by
  simp only [Reply.record, List.forall_mem_cons]
  exact ⟨fun _ => TaskEntry.takes.list.nullable.map _, fun _ => Json.takes_uint64.nullable.map _,
    by simp⟩

theorem Reply.takes : Takes Reply.reader := Json.takes_record Reply.takes_fields

namespace Rpc

/-! ## Headers and frames -/

def Header.slots (header : Header) : List Slot :=
  [⟨"seqn", IntegerForm header.seqn.toNat, False⟩,
   ⟨"no_reply", fun tree => tree = .bool header.noReply, header.noReply = false⟩,
   ⟨"status", TextForm header.status.name, header.status = .success⟩]

def Header.Form (header : Header) (tree : Tree) : Prop := tree.Fills header.slots

def Header.held (header : Header) (seen : List String) : HeaderParts where
  seqn := Json.held seen "seqn" (some header.seqn) none
  noReply := Json.held seen "no_reply" header.noReply false
  status := Json.held seen "status" header.status .success

theorem Status.accepts {status : Status} {tree : Tree} (form : TextForm status.name tree) :
    Accepts Status.reader tree status := by
  obtain ⟨pieces, rfl, means⟩ := form
  have named : Status.ofName (String.ofList status.name.toList) = status := by
    rw [String.ofList_toList, Status.ofName_name]
  exact Json.accepts_bare means (by rw [named])

theorem Header.layout (header : Header) :
    Layout Header.record header.slots header header.held where
  start := rfl
  field := by
    refine .cons ⟨rfl, fun seen tree _ form => ?_⟩ ?_
    · exact (Json.accepts_uint32 form).present.put _ (by simp [held])
    refine .cons ⟨rfl, fun seen tree _ form => ?_⟩ ?_
    · cases form
      exact (Json.accepts_bool header.noReply).put _ (by simp [held])
    refine .cons ⟨rfl, fun _ _ _ form => (Status.accepts form).put _ (by simp [held])⟩ ?_
    exact .nil
  finish := by
    intro seen full
    simp only [slots, List.forall_mem_cons] at full
    obtain ⟨seqn, noReply, status, _⟩ := full
    simp only [held, held_full (.inr (seqn.resolve_left id)), held_full noReply, held_full status]
    rfl

theorem Header.Form.accepts {header : Header} {tree : Tree} (form : header.Form tree) :
    Accepts Header.reader tree header :=
  header.layout.accepts form

theorem Header.spells (header : Header) : Spells header.document header.Form := by
  refine Covers.spells ?_ (by simp [slots])
  refine .field (Json.spells_integer header.seqn.toNat) ?_
  refine .field (Json.spells_bool header.noReply) ?_
  refine .field (Json.spells_text header.status.name) ?_
  exact .nil

def TaskMessage.Form : TaskMessage → Tree → Prop
  | .request => Tree.Wraps "get_system_tasks_call" (Tree.Fills [])
  | .answer reply => Tree.Wraps "get_system_tasks_reply" reply.Form

theorem TaskMessage.Form.accepts {message : TaskMessage} {tree : Tree}
    (form : message.Form tree) : Accepts TaskMessage.reader tree message := by
  cases message with
  | request =>
    have empty : Layout emptyRecord [] () fun _ => () :=
      { start := rfl, field := .nil, finish := fun _ _ => rfl }
    exact Tree.Wraps.accepts form rfl fun fills => (empty.accepts fills).map _
  | answer reply => exact Tree.Wraps.accepts form rfl fun reply => reply.accepts.map _

theorem TaskMessage.spells (message : TaskMessage) : Spells message.document message.Form := by
  cases message with
  | request =>
    have empty : Spells (.object []) (Tree.Fills []) := Covers.spells .nil List.nodup_nil
    exact Json.spells_wraps _ empty
  | answer reply => exact Json.spells_wraps _ reply.spells

def Callset.Form : Callset → Tree → Prop
  | .rtosUtils message => Tree.Wraps "rtosutils" message.Form

theorem Callset.Form.accepts {callset : Callset} {tree : Tree} (form : callset.Form tree) :
    tree ≠ .null ∧ Accepts Callset.reader tree callset := by
  cases callset with
  | rtosUtils message =>
    refine ⟨Tree.Wraps.not_null form, Tree.Wraps.accepts form rfl fun message => ?_⟩
    exact message.accepts.map _

theorem Callset.spells (callset : Callset) : Spells callset.document callset.Form := by
  cases callset with
  | rtosUtils message => exact Json.spells_wraps _ message.spells

def Frame.slots (frame : Frame) : List Slot :=
  [⟨"header", frame.header.Form, False⟩,
   ⟨"callset", OptionForm Callset.Form frame.callset, frame.callset = none⟩]

def Frame.Form (frame : Frame) (tree : Tree) : Prop := tree.Fills frame.slots

def Frame.held (frame : Frame) (seen : List String) : FrameParts where
  header := Json.held seen "header" (some frame.header) none
  callset := Json.held seen "callset" frame.callset none

theorem Frame.layout (frame : Frame) : Layout Frame.record frame.slots frame frame.held where
  start := rfl
  field := by
    refine .cons ⟨rfl, fun _ _ _ form => form.accepts.present.put _ (by simp [held])⟩ ?_
    refine .cons ⟨rfl, fun seen tree _ form => ?_⟩ ?_
    · have callset : Accepts (Json.nullable Callset.reader) tree frame.callset :=
        form.accepts fun callset => callset.accepts
      exact callset.put _ (by simp [held])
    exact .nil
  finish := by
    intro seen full
    simp only [slots, List.forall_mem_cons] at full
    obtain ⟨header, callset, _⟩ := full
    simp only [held, held_full (.inr (header.resolve_left id)), held_full callset]
    rfl

theorem Frame.Form.accepts {frame : Frame} {tree : Tree} (form : frame.Form tree) :
    Accepts Frame.reader tree frame :=
  frame.layout.accepts form

theorem Frame.spells (frame : Frame) : Spells frame.document frame.Form := by
  obtain ⟨header, callset⟩ := frame
  refine Covers.spells ?_ (by simp [slots])
  refine .field header.spells ?_
  cases callset with
  | none => exact .spare rfl .nil
  | some callset => exact .field callset.spells .nil

/-! ## Fields that stand twice -/

def taskNames : List String :=
  ["number", "name", "state", "core_num", "prio", "rtc", "stack_remaining"]

def Reports (frame reply : Tree) : Prop :=
  ∃ callset message, frame.Has "callset" callset ∧ callset.Has "rtosutils" message ∧
    message.Has "get_system_tasks_reply" reply

/-- The objects in the text of a frame that have fields as members, with the names of the fields. -/
inductive Known (frame : Tree) : List String → Tree → Prop where
  | frame : Known frame ["header", "callset"] frame
  | header {part : Tree} : frame.Has "header" part → Known frame ["seqn", "no_reply", "status"] part
  | reply {part : Tree} : Reports frame part → Known frame ["task_info", "run_time"] part
  | task {reply tasks part : Tree} : Reports frame reply → reply.Has "task_info" tasks →
      tasks.Lists part → Known frame taskNames part

/-! What the readers take. -/

theorem Status.takes : Takes Status.reader := by
  apply Json.takes_variant
  intro name entry known
  cases known
  exact Json.takes_nothing.map fun _ => Status.ofName name

theorem Header.takes_fields :
    ∀ field ∈ Header.record.fields, ∀ parts, Takes (field.read parts) := by
  simp only [Header.record, List.forall_mem_cons]
  exact ⟨fun _ => Json.takes_uint32.present.map _, fun _ => Json.takes_bool.map _,
    fun _ => Status.takes.map _, by simp⟩

theorem Header.takes : Takes Header.reader := Json.takes_record Header.takes_fields

theorem takes_empty : Takes emptyRecord.read := Json.takes_record nofun

theorem TaskMessage.contents : Json.Contents fun name =>
    if name = "get_system_tasks_call" then some
      ⟨none, emptyRecord.read >>= fun _ => pure TaskMessage.request⟩
    else if name = "get_system_tasks_reply" then some
      ⟨none, Reply.reader >>= fun reply => pure (TaskMessage.answer reply)⟩
    else none :=
  .ite (takes_empty.map _) (.ite (Reply.takes.map _) Json.contents_none _) _

theorem TaskMessage.takes : Takes TaskMessage.reader := Json.takes_variant TaskMessage.contents

theorem Callset.contents : Json.Contents fun name =>
    if name = "rtosutils" then some
      ⟨none, TaskMessage.reader >>= fun message => pure (Callset.rtosUtils message)⟩
    else none :=
  .ite (TaskMessage.takes.map _) Json.contents_none _

theorem Callset.takes : Takes Callset.reader := Json.takes_variant Callset.contents

theorem Frame.takes_fields : ∀ field ∈ Frame.record.fields, ∀ parts, Takes (field.read parts) := by
  simp only [Frame.record, List.forall_mem_cons]
  exact ⟨fun _ => Header.takes.present.map _, fun _ => Callset.takes.nullable.map _, by simp⟩

theorem takes_frame : Takes Frame.reader := Json.takes_record Frame.takes_fields

/-! What is taken as a part of a frame. -/

theorem Reports.accepts {frame reply : Tree} (reports : Reports frame reply) {value : Frame}
    (accepts : Accepts Frame.reader frame value) : ∃ value, Accepts Reply.reader reply value := by
  obtain ⟨callset, message, outer, middle, inner⟩ := reports
  obtain ⟨_, _, found⟩ := accepts.of_has Frame.takes_fields outer rfl
  obtain ⟨_, found, _⟩ := Callset.takes.nullable.of_map found
  obtain ⟨_, found, _⟩ := Callset.takes.of_nullable middle.not_null found
  obtain ⟨_, found⟩ := found.of_single Callset.contents rfl middle
  obtain ⟨_, found, _⟩ := TaskMessage.takes.of_map found
  obtain ⟨_, found⟩ := found.of_single TaskMessage.contents rfl inner
  obtain ⟨value, found, _⟩ := Reply.takes.of_map found
  exact ⟨value, found⟩

theorem Known.once {frame part : Tree} {names : List String} (known : Known frame names part)
    {value : Frame} (accepts : Accepts Frame.reader frame value) : ¬ part.Repeats names := by
  cases known with
  | frame => exact accepts.once Frame.takes_fields
  | header has =>
    obtain ⟨_, _, found⟩ := accepts.of_has Frame.takes_fields has rfl
    obtain ⟨_, found, _⟩ := Header.takes.present.of_map found
    obtain ⟨_, found, _⟩ := Header.takes.of_map found
    exact found.once Header.takes_fields
  | reply reports =>
    obtain ⟨_, found⟩ := reports.accepts accepts
    exact found.once Reply.takes_fields
  | task reports has lists =>
    obtain ⟨_, found⟩ := reports.accepts accepts
    obtain ⟨_, _, found⟩ := found.of_has Reply.takes_fields has rfl
    obtain ⟨_, found, _⟩ := TaskEntry.takes.list.nullable.of_map found
    obtain ⟨_, found, _⟩ := TaskEntry.takes.list.of_nullable lists.not_null found
    obtain ⟨_, found⟩ := TaskEntry.takes.of_lists found lists
    exact found.once (takes_taskFields Takes.nullable)

/-- A frame is decoded from each of its texts, of which its payload is one. Where a field stands
twice in an object with fields, nothing is decoded, whatever the text is otherwise. -/
theorem decode_layout (frame : Frame) :
    (∃ tree, frame.Form tree ∧ tree.bytes = frame.encode) ∧
    ∀ (tree : Tree) (before after : Blanks),
      (frame.Form tree →
        Frame.decode (before.bytes ++ (tree.bytes ++ after.bytes)) = .ok frame) ∧
      ((∃ names part, Known tree names part ∧ part.Repeats names) →
        ∃ fault, Frame.decode (before.bytes ++ (tree.bytes ++ after.bytes)) = .error fault) := by
  refine ⟨frame.spells, fun tree before after => ⟨fun form => form.accepts.read before after, ?_⟩⟩
  rintro ⟨names, part, known, repeats⟩
  cases decoded : Frame.decode (before.bytes ++ (tree.bytes ++ after.bytes)) with
  | error fault => exact ⟨fault, rfl⟩
  | ok other => exact absurd repeats (known.once (takes_frame.read decoded))

def newerHeader (others : List (Member Tree)) : Tree :=
  let zero : HexDigit := ⟨0x30, 0, rfl⟩
  let letter : Piece := .coded ⟨zero, zero, ⟨0x37, 7, rfl⟩, ⟨0x33, 3, rfl⟩⟩
  let digits : Digits := ⟨0x37, [], List.forall_mem_singleton.mpr rfl⟩
  let number : Tree := .number ⟨false, digits, none, none, fun _ => rfl⟩
  let seqn : Member Tree :=
    ⟨⟨.none, letter :: spell "eqn".toList, .none⟩, ⟨.none, number, .none⟩⟩
  .object ⟨[0x20], List.forall_mem_singleton.mpr rfl⟩ (seqn :: others)

def newerFrame (header : Tree) : Tree :=
  let names : Tree := .object .none [.bare "seqn" .null, .bare "seqn" .null]
  .object .none [.bare "callset" .null, .bare "uptime" names, .bare "header" header]

theorem newerHeader_form : Header.Form { seqn := 7 } (newerHeader []) := by
  refine ⟨_, _, rfl, ⟨?_, by decide⟩, ?_⟩
  · refine List.forall_mem_singleton.mpr (@Member.Fits.of _ _ "seqn" rfl ?_)
    simp only [Header.slots, List.forall_mem_cons]
    exact ⟨fun _ => ⟨_, rfl, rfl⟩, by simp, by simp, by simp⟩
  · simp only [Header.slots, List.forall_mem_cons]
    exact ⟨.inr ⟨_, List.mem_cons_self, rfl⟩, .inl trivial, .inl trivial, by simp⟩

theorem newerFrame_form {header : Header} {tree : Tree} (form : header.Form tree) :
    Frame.Form ⟨header, none⟩ (newerFrame tree) := by
  refine ⟨_, _, rfl, ⟨?_, ?_⟩, by simp [Frame.slots, Member.name_bare]⟩
  · simp only [List.forall_mem_cons]
    refine ⟨.of (Member.name_bare _ _) ?_, .of (Member.name_bare _ _) ?_,
      .of (Member.name_bare _ _) ?_, by simp⟩
    · simp [Frame.slots, OptionForm, Member.bare]
    · simp [Frame.slots]
    · simp only [Frame.slots, List.forall_mem_cons]
      exact ⟨fun _ => form, by simp, by simp⟩
  · simp [knownNames, Frame.slots, Member.name_bare]

theorem newerFrame_has (header : Tree) : (newerFrame header).Has "header" header :=
  ⟨_, _, .bare "header" header, rfl,
    List.mem_cons_of_mem _ (List.mem_cons_of_mem _ List.mem_cons_self), Member.name_bare _ _, rfl⟩

/-- A text with and without a second sequence number in the header. A member that no field
has the name of may repeat names. -/
theorem decode_layout_newer : ∃ (frame : Frame) (once twice : Tree) (before after : Blanks),
    frame.Form once ∧ (∃ names part, Known twice names part ∧ part.Repeats names) ∧
    before.bytes ++ (once.bytes ++ after.bytes) = Utf8.encode
      ("\t\x7b\"callset\":null,\"uptime\":\x7b\"seqn\":null,\"seqn\":null\x7d," ++
        "\"header\":\x7b \"\\u0073eqn\":7\x7d\x7d\n").toList ∧
    before.bytes ++ (twice.bytes ++ after.bytes) = Utf8.encode
      ("\t\x7b\"callset\":null,\"uptime\":\x7b\"seqn\":null,\"seqn\":null\x7d," ++
        "\"header\":\x7b \"\\u0073eqn\":7,\"seqn\":null\x7d\x7d\n").toList ∧
    Frame.decode (before.bytes ++ (once.bytes ++ after.bytes)) = .ok frame ∧
    ∃ fault, Frame.decode (before.bytes ++ (twice.bytes ++ after.bytes)) = .error fault := by
  let frame : Frame := ⟨{ seqn := 7 }, none⟩
  let before : Blanks := ⟨[0x09], List.forall_mem_singleton.mpr rfl⟩
  let after : Blanks := ⟨[0x0A], List.forall_mem_singleton.mpr rfl⟩
  let doubled : Tree := newerHeader [.bare "seqn" .null]
  have form : frame.Form (newerFrame (newerHeader [])) := newerFrame_form newerHeader_form
  have repeats : doubled.Repeats ["seqn", "no_reply", "status"] :=
    ⟨_, _, rfl, "seqn", by decide, by decide⟩
  have twice : ∃ names part, Known (newerFrame doubled) names part ∧ part.Repeats names :=
    ⟨_, _, .header (newerFrame_has doubled), repeats⟩
  obtain ⟨_, texts⟩ := decode_layout frame
  exact ⟨frame, _, _, before, after, form, twice, by decide +kernel, by decide +kernel,
    (texts _ before after).1 form, (texts _ before after).2 twice⟩

end Rpc

end TaskMonitor
