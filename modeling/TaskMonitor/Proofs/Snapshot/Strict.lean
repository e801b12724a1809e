import TaskMonitor.Proofs.Json.Agreement
import TaskMonitor.Proofs.Rpc.Message

/-! The two ways to a snapshot, straight from a text or by a reply that is validated. They lead to
the same snapshots, for each text. -/

set_option autoImplicit false

namespace TaskMonitor

open Json (Reader Follows Twin Looks Reads looks_integer looks_text looks_list)

/-! ## Validation -/

theorem TaskEntry.validate_eq_ok {entry : TaskEntry} {index : Nat} {task : TaskRecord} :
    entry.validate index = .ok task ↔ entry.complete? = some task := by
  obtain ⟨number, name, state, core, priority, runTime, stackRemaining⟩ := entry
  cases number <;> cases name <;> cases state <;> cases core <;> cases priority <;>
    cases runTime <;> cases stackRemaining <;>
    simp [validate, complete?, bind, Except.bind, pure, Except.pure]

def TaskEntry.Completes (task : TaskRecord) (entry : TaskEntry) : Prop :=
  entry.complete? = some task

theorem TaskEntry.completes_unique : Relator.LeftUnique TaskEntry.Completes := by
  intro first entry second left right
  exact Option.some.inj (left.symm.trans right)

theorem validateFrom_eq_ok (index : Nat) {entries : List TaskEntry} {tasks : List TaskRecord} :
    validateFrom index entries = .ok tasks ↔ List.Forall₂ TaskEntry.Completes tasks entries := by
  -- On the entries. The index matters to the errors only.
  induction entries generalizing index tasks with
  | nil =>
    rw [List.forall₂_nil_right_iff]
    constructor
    · rintro ⟨⟩
      rfl
    · rintro rfl
      rfl
  | cons entry entries ih =>
    rw [List.forall₂_cons_right_iff, validateFrom]
    constructor
    · intro found
      cases first : entry.validate index with
      | error gap => simp [first, bind, Except.bind] at found
      | ok task =>
        cases others : validateFrom (index + 1) entries with
        | error gap => simp [first, others, bind, Except.bind] at found
        | ok rest =>
          simp only [first, others, bind, Except.bind, pure, Except.pure, Except.ok.injEq] at found
          exact ⟨task, rest, TaskEntry.validate_eq_ok.mp first, (ih _).mp others, found.symm⟩
    · rintro ⟨task, rest, first, others, rfl⟩
      rw [TaskEntry.validate_eq_ok.mpr first, (ih _).mpr others]
      rfl

/-- A reply has no gaps, and the snapshot says the same. -/
def Reply.Completes (snapshot : Snapshot) (reply : Reply) : Prop :=
  ∃ entries, reply.tasks = some entries ∧
    List.Forall₂ TaskEntry.Completes snapshot.tasks entries ∧
    reply.runTime = some snapshot.runTime

theorem Reply.validate_eq_ok {reply : Reply} {snapshot : Snapshot} :
    reply.validate = .ok snapshot ↔ Reply.Completes snapshot reply := by
  obtain ⟨tasks, runTime⟩ := reply
  obtain ⟨records, total⟩ := snapshot
  unfold validate Reply.Completes
  cases tasks with
  | none => simp
  | some entries =>
    cases runTime with
    | none => simp
    | some runTime =>
      cases checked : validateFrom 0 entries with
      | error gap =>
        have never : ¬ List.Forall₂ TaskEntry.Completes records entries := by
          rw [← validateFrom_eq_ok 0, checked]
          exact nofun
        simp [checked, bind, Except.bind, never]
      | ok tasks =>
        simp only [checked, bind, Except.bind, pure, Except.pure, Except.ok.injEq,
          Snapshot.mk.injEq, Option.some.injEq, exists_eq_left', ← validateFrom_eq_ok 0]

/-! ## Readers -/

theorem looks_uint32 : Looks Json.uint32 := (looks_integer _ _).bind _

theorem looks_uint64 : Looks Json.uint64 := (looks_integer _ _).bind _

theorem looks_int32 : Looks Json.int32 := (looks_integer _ _).bind _

def TaskEntry.Lacks (entry : TaskEntry) : TaskField → Prop
  | .number => entry.number = none
  | .name => entry.name = none
  | .state => entry.state = none
  | .core => entry.core = none
  | .priority => entry.priority = none
  | .runTime => entry.runTime = none
  | .stackRemaining => entry.stackRemaining = none

def TaskEntry.LacksKey (key : String) (entry : TaskEntry) : Prop :=
  ∃ field : TaskField, field.key = key ∧ entry.Lacks field

theorem TaskEntry.Lacks.incomplete {entry : TaskEntry} {field : TaskField}
    (lacks : entry.Lacks field) : entry.complete? = none := by
  obtain ⟨number, name, state, core, priority, runTime, stackRemaining⟩ := entry
  cases field <;> cases lacks <;> simp [complete?]

theorem twin_taskField {α : Type} {reader : Reader α} (looks : Looks reader) (field : TaskField)
    {set : TaskEntry → Option α → TaskEntry} (lacks : ∀ entry, (set entry none).Lacks field)
    (others : ∀ {entry : TaskEntry} {other : TaskField} value, other ≠ field →
      entry.Lacks other → (set entry value).Lacks other) :
    Twin Eq TaskEntry.LacksKey
      ⟨field.key, fun entry => Json.present reader >>= fun value => pure (set entry value)⟩
      ⟨field.key, fun entry => Json.nullable reader >>= fun value => pure (set entry value)⟩ := by
  refine .ofValue (.self reader) looks ?_ ?_ ?_
  · rintro entry _ value given rfl same
    cases same with
    | none => rfl
    | some same => rw [same]
  · intro entry value none
    cases value with
    | none => exact ⟨field, rfl, lacks entry⟩
    | some value => exact (none value rfl).elim
  · rintro _ entry value apart ⟨other, rfl, lacks⟩
    refine ⟨other, rfl, others value ?_ lacks⟩
    rintro rfl
    exact apart rfl

theorem twins_task : List.Forall₂ (Twin Eq TaskEntry.LacksKey) (taskFields Json.present)
    (taskFields Json.nullable) := by
  refine .cons (twin_taskField looks_uint32 .number (fun _ => rfl) ?_) <|
    .cons (twin_taskField looks_text .name (fun _ => rfl) ?_) <|
    .cons (twin_taskField looks_int32 .state (fun _ => rfl) ?_) <|
    .cons (twin_taskField looks_int32 .core (fun _ => rfl) ?_) <|
    .cons (twin_taskField looks_uint32 .priority (fun _ => rfl) ?_) <|
    .cons (twin_taskField looks_uint64 .runTime (fun _ => rfl) ?_) <|
    .cons (twin_taskField looks_uint32 .stackRemaining (fun _ => rfl) ?_) .nil
  all_goals
    intro entry other value apart lacks
    cases other
    all_goals first | exact lacks | exact absurd rfl apart

theorem TaskRecord.reader_follows :
    Follows TaskEntry.Completes (fun entry => ∀ task, ¬ TaskEntry.Completes task entry)
      TaskRecord.reader TaskEntry.reader := by
  refine Json.Record.read_follows twins_task (by decide) rfl rfl ?_ ?_
  · rintro entry _ rfl task
    exact Iff.rfl
  · rintro _ entry ⟨field, rfl, lacks⟩ task complete
    cases lacks.incomplete.symm.trans complete

def SnapshotParts.Agree (parts : SnapshotParts) (reply : Reply) : Prop :=
  Option.Rel (List.Forall₂ TaskEntry.Completes) parts.tasks reply.tasks ∧
    parts.runTime = reply.runTime

/-- What has been given under a key is no part of a snapshot. -/
inductive Reply.LacksKey : String → Reply → Prop where
  | tasks {reply : Reply} : (∀ entries ∈ reply.tasks,
      ∃ entry ∈ entries, ∀ task, ¬ TaskEntry.Completes task entry) →
      Reply.LacksKey ReplyField.tasks.key reply
  | runTime {reply : Reply} : reply.runTime = none → Reply.LacksKey ReplyField.runTime.key reply

theorem Reply.LacksKey.incomplete {key : String} {reply : Reply} (lacks : Reply.LacksKey key reply)
    (snapshot : Snapshot) : ¬ Reply.Completes snapshot reply := by
  rintro ⟨entries, given, each, runTime⟩
  cases lacks with
  | tasks gone =>
    obtain ⟨entry, member, never⟩ := gone entries given
    have complete := (List.forall₂_and_left _ _).mp
      (each.flip.imp fun _ task complete => ⟨Exists.intro task complete, complete⟩)
    obtain ⟨task, complete⟩ := complete.1 entry member
    exact never task complete
  | runTime none => cases none.symm.trans runTime

theorem twins_snapshot : List.Forall₂ (Twin SnapshotParts.Agree Reply.LacksKey)
    Snapshot.record.fields Reply.record.fields := by
  refine .cons (.ofValue TaskRecord.reader_follows.list (looks_list _) ?_ ?_ ?_) <|
    .cons (.ofValue (.self Json.uint64) looks_uint64 ?_ ?_ ?_) .nil
  · rintro parts reply value given ⟨_, runTime⟩ tasks
    exact ⟨tasks, runTime⟩
  · intro reply value gone
    exact .tasks gone
  · rintro other reply value apart lacks
    cases lacks with
    | tasks => exact absurd rfl apart
    | runTime none => exact .runTime none
  · rintro parts reply value given ⟨tasks, _⟩ same
    refine ⟨tasks, ?_⟩
    cases same with
    | none => rfl
    | some same => exact congrArg some same
  · intro reply value gone
    cases value with
    | none => exact .runTime rfl
    | some value => exact (gone value rfl).elim
  · rintro other reply value apart lacks
    cases lacks with
    | tasks gone => exact .tasks gone
    | runTime => exact absurd rfl apart

theorem Snapshot.reader_follows :
    Follows Reply.Completes (fun reply => ∀ snapshot, ¬ Reply.Completes snapshot reply)
      Snapshot.reader Reply.reader := by
  refine Json.Record.read_follows twins_snapshot (by decide) ⟨.none, rfl⟩ rfl ?_ ?_
  · rintro ⟨tasks, runTime⟩ ⟨entries, _⟩ ⟨alike, rfl⟩ ⟨records, total⟩
    cases alike with
    | none => simp [Snapshot.record, Reply.Completes]
    | @some tasks entries each =>
      have same : tasks = records ↔ List.Forall₂ TaskEntry.Completes records entries :=
        ⟨fun same => same ▸ each, fun other => TaskEntry.completes_unique.forall₂ each other⟩
      cases runTime <;> simp [Snapshot.record, Reply.Completes, same]
  · intro key reply lacks
    exact lacks.incomplete

theorem Reply.completes_unique : Relator.LeftUnique Reply.Completes := by
  intro first reply second left right
  exact Except.ok.inj ((validate_eq_ok.mpr left).symm.trans (validate_eq_ok.mpr right))

theorem Snapshot.read_eq_ok_iff {text : Bytes} {snapshot : Snapshot} :
    Json.read Snapshot.reader text = .ok snapshot ↔
      ∃ reply, Json.read Reply.reader text = .ok reply ∧ reply.validate = .ok snapshot := by
  simp only [Reply.validate_eq_ok]
  exact Snapshot.reader_follows.read Reply.completes_unique text snapshot

/-! ## Written snapshots -/

/-- A task with its state and its core as their numbers stand for them. -/
def TaskRecord.settled (task : TaskRecord) : TaskRecord :=
  { task with state := .ofCode task.state.code, core := .ofNumber task.core.number }

def Snapshot.settled (snapshot : Snapshot) : Snapshot :=
  { snapshot with tasks := snapshot.tasks.map (·.settled) }

theorem TaskRecord.document_settled (task : TaskRecord) :
    task.settled.document = task.document := by
  simp [document, settled, TaskState.document, CorePin.document]

theorem TaskRecord.settled_of_completes {task : TaskRecord} {entry : TaskEntry}
    (complete : TaskEntry.Completes task entry) : task.settled = task := by
  simp only [TaskEntry.Completes, TaskEntry.complete?, Option.pure_def, Option.bind_eq_bind,
    Option.bind_eq_some_iff] at complete
  obtain ⟨_, _, _, _, _, _, _, _, _, _, _, _, _, _, same⟩ := complete
  cases same
  simp [settled]

theorem TaskRecord.reads (task : TaskRecord) :
    Reads TaskRecord.reader task.document task.settled := by
  obtain ⟨number, name, state, core, priority, runTime, stack⟩ := task
  refine Json.reads_record TaskRecord.record ⟨number, name, state.code, core.number, priority,
    runTime, stack⟩ (by decide) ?_ rfl
  refine .field ((Json.reads_uint32 number).present.map _) ?_
  refine .field ((Json.reads_text name).present.map _) ?_
  refine .field ((Json.reads_int32 state.code).present.map _) ?_
  refine .field ((Json.reads_int32 core.number).present.map _) ?_
  refine .field ((Json.reads_uint32 priority).present.map _) ?_
  refine .field ((Json.reads_uint64 runTime).present.map _) ?_
  refine .field ((Json.reads_uint32 stack).present.map _) ?_
  exact .done

theorem Snapshot.reads (snapshot : Snapshot) :
    Reads Snapshot.reader snapshot.document snapshot.settled := by
  have tasks : Reads (Json.list TaskRecord.reader)
      (.list (snapshot.settled.tasks.map (·.document))) snapshot.settled.tasks := by
    refine Json.reads_list fun task member => ⟨Json.opens_object _, ?_⟩
    obtain ⟨task, _, rfl⟩ := List.mem_map.mp member
    rw [task.document_settled]
    exact task.reads
  have same : snapshot.settled.tasks.map (·.document) = snapshot.tasks.map (·.document) := by
    simp [settled, TaskRecord.document_settled]
  rw [same] at tasks
  refine Json.reads_record Snapshot.record ⟨snapshot.settled.tasks, snapshot.runTime⟩ (by decide) ?_
    rfl
  refine .field (tasks.present.map _) ?_
  refine .field ((Json.reads_uint64 snapshot.runTime).present.map _) ?_
  exact .done

theorem Snapshot.settled_of_completes {snapshot : Snapshot} {reply : Reply}
    (complete : Reply.Completes snapshot reply) : snapshot.settled = snapshot := by
  obtain ⟨entries, _, each, _⟩ := complete
  have settled : ∀ task ∈ snapshot.tasks, task.settled = task := by
    intro task member
    have complete := (List.forall₂_and_left _ _).mp
      (each.imp fun task entry complete => ⟨Exists.intro entry complete, complete⟩)
    obtain ⟨entry, complete⟩ := complete.1 task member
    exact TaskRecord.settled_of_completes complete
  simp only [Snapshot.settled, List.map_congr_left settled, List.map_id']

/-- A text is read as a snapshot just if it is read as a reply that validation accepts, and gives
the same snapshot either way. A snapshot that is written is read back either way, with its states
and cores as their numbers stand for them. Nothing changes in a snapshot that comes from
validation or from a text, and there are no others in which nothing changes. -/
theorem Snapshot.paths_agree (text : Bytes) (snapshot : Snapshot) :
    (Json.read Snapshot.reader text = .ok snapshot ↔
      ∃ reply, Json.read Reply.reader text = .ok reply ∧ reply.validate = .ok snapshot) ∧
    (Json.read Snapshot.reader (Utf8.encode snapshot.document.compact) = .ok snapshot.settled ∧
      ∃ reply, Json.read Reply.reader (Utf8.encode snapshot.document.compact) = .ok reply ∧
        reply.validate = .ok snapshot.settled) ∧
    ((∃ reply, Reply.validate reply = .ok snapshot) ↔ snapshot.settled = snapshot) ∧
    ((∃ source, Json.read Snapshot.reader source = .ok snapshot) ↔ snapshot.settled = snapshot) := by
  have written := snapshot.reads.read
  refine ⟨Snapshot.read_eq_ok_iff, ⟨written, Snapshot.read_eq_ok_iff.mp written⟩, ?_, ?_⟩
  · constructor
    · rintro ⟨reply, valid⟩
      exact Snapshot.settled_of_completes (Reply.validate_eq_ok.mp valid)
    · intro same
      obtain ⟨reply, _, valid⟩ := Snapshot.read_eq_ok_iff.mp written
      exact ⟨reply, same ▸ valid⟩
  · constructor
    · rintro ⟨source, found⟩
      obtain ⟨reply, _, valid⟩ := Snapshot.read_eq_ok_iff.mp found
      exact Snapshot.settled_of_completes (Reply.validate_eq_ok.mp valid)
    · intro same
      exact ⟨_, same ▸ written⟩

end TaskMonitor
