import TaskMonitor.Proofs.Snapshot.Strict

/-! What validation makes of a reply. It loses nothing of a reply without gaps, so that the reply
can be told from the snapshot, and it names the first gap of any other. -/

set_option autoImplicit false

namespace TaskMonitor

/-! ## Entries with gaps -/

def TaskField.all : List TaskField :=
  [.number, .name, .state, .core, .priority, .runTime, .stackRemaining]

theorem TaskField.mem_all (field : TaskField) : field ∈ all := by
  cases field <;> decide

example : TaskField.all.map TaskField.key =
    ["number", "name", "state", "core_num", "prio", "rtc", "stack_remaining"] := rfl

instance TaskEntry.decidableLacks (entry : TaskEntry) (field : TaskField) :
    Decidable (entry.Lacks field) :=
  match field with
  | .number => inferInstanceAs (Decidable (entry.number = none))
  | .name => inferInstanceAs (Decidable (entry.name = none))
  | .state => inferInstanceAs (Decidable (entry.state = none))
  | .core => inferInstanceAs (Decidable (entry.core = none))
  | .priority => inferInstanceAs (Decidable (entry.priority = none))
  | .runTime => inferInstanceAs (Decidable (entry.runTime = none))
  | .stackRemaining => inferInstanceAs (Decidable (entry.stackRemaining = none))

def TaskEntry.Full (entry : TaskEntry) : Prop := ∀ field, ¬ entry.Lacks field

/-- An entry lacks a field, and none of the fields that are asked for before it. -/
def TaskEntry.LacksFirst (entry : TaskEntry) (field : TaskField) : Prop :=
  entry.Lacks field ∧ ∃ before after, TaskField.all = before ++ field :: after ∧
    ∀ other ∈ before, ¬ entry.Lacks other

theorem TaskEntry.lacksFirst_iff {entry : TaskEntry} {field : TaskField} :
    entry.LacksFirst field ↔ TaskField.all.find? (entry.Lacks ·) = some field := by
  simp [List.find?_eq_some_iff_append, LacksFirst]

theorem TaskEntry.full_iff {entry : TaskEntry} :
    entry.Full ↔ TaskField.all.find? (entry.Lacks ·) = none := by
  simp [List.find?_eq_none, Full, TaskField.mem_all]

theorem TaskEntry.validate_cases (entry : TaskEntry) (index : Nat) :
    (entry.Full ∧ ∃ task, entry.validate index = .ok task) ∨
      ∃ field, entry.LacksFirst field ∧ entry.validate index = .error (.task index field) := by
  obtain ⟨number, name, state, core, priority, runTime, stack⟩ := entry
  -- The fields are asked for one by one, so validation comes to an end at the first one lacking.
  cases number with
  | none => exact .inr ⟨.number, lacksFirst_iff.mpr rfl, rfl⟩
  | some number =>
  cases name with
  | none => exact .inr ⟨.name, lacksFirst_iff.mpr rfl, rfl⟩
  | some name =>
  cases state with
  | none => exact .inr ⟨.state, lacksFirst_iff.mpr rfl, rfl⟩
  | some state =>
  cases core with
  | none => exact .inr ⟨.core, lacksFirst_iff.mpr rfl, rfl⟩
  | some core =>
  cases priority with
  | none => exact .inr ⟨.priority, lacksFirst_iff.mpr rfl, rfl⟩
  | some priority =>
  cases runTime with
  | none => exact .inr ⟨.runTime, lacksFirst_iff.mpr rfl, rfl⟩
  | some runTime =>
  cases stack with
  | none => exact .inr ⟨.stackRemaining, lacksFirst_iff.mpr rfl, rfl⟩
  | some stack => exact .inl ⟨full_iff.mpr rfl, _, rfl⟩

theorem TaskEntry.Full.validate {entry : TaskEntry} (full : entry.Full) (index : Nat) :
    ∃ task, entry.validate index = .ok task := by
  rcases entry.validate_cases index with ⟨_, valid⟩ | ⟨field, ⟨lacks, _⟩, _⟩
  · exact valid
  · exact absurd lacks (full field)

theorem TaskEntry.LacksFirst.validate {entry : TaskEntry} {field : TaskField}
    (first : entry.LacksFirst field) (index : Nat) :
    entry.validate index = .error (.task index field) := by
  rcases entry.validate_cases index with ⟨full, _⟩ | ⟨other, first', found⟩
  · exact absurd first.1 (full field)
  · cases (lacksFirst_iff.mp first).symm.trans (lacksFirst_iff.mp first')
    exact found

/-! ## Entries of tasks -/

def TaskRecord.entry (task : TaskRecord) : TaskEntry where
  number := some task.number
  name := some task.name
  state := some task.state.code
  core := some task.core.number
  priority := some task.priority
  runTime := some task.runTime
  stackRemaining := some task.stackRemaining

theorem TaskRecord.complete?_entry (task : TaskRecord) :
    task.entry.complete? = some task.settled := rfl

theorem TaskEntry.completes_iff {task : TaskRecord} {entry : TaskEntry} :
    TaskEntry.Completes task entry ↔ task.entry = entry ∧ task.settled = task := by
  constructor
  · intro complete
    refine ⟨?_, TaskRecord.settled_of_completes complete⟩
    simp only [Completes, complete?, Option.pure_def, Option.bind_eq_bind,
      Option.bind_eq_some_iff] at complete
    obtain ⟨_, number, _, name, _, state, _, core, _, priority, _, runTime, _, stack, same⟩ :=
      complete
    cases same
    obtain ⟨_, _, _, _, _, _, _⟩ := entry
    simp_all [TaskRecord.entry]
  · rintro ⟨rfl, settled⟩
    rw [Completes, task.complete?_entry, settled]

theorem TaskEntry.forall₂_completes_iff {tasks : List TaskRecord} {entries : List TaskEntry} :
    List.Forall₂ TaskEntry.Completes tasks entries ↔
      tasks.map (·.entry) = entries ∧ tasks.map (·.settled) = tasks := by
  induction tasks generalizing entries with
  | nil => simp [eq_comm]
  | cons task tasks ih =>
    rw [List.forall₂_cons_left_iff, List.map_cons, List.map_cons, List.cons_eq_cons]
    simp only [completes_iff, ih]
    constructor
    · rintro ⟨_, _, ⟨rfl, settled⟩, ⟨rfl, others⟩, rfl⟩
      exact ⟨rfl, settled, others⟩
    · rintro ⟨rfl, settled, others⟩
      exact ⟨_, _, ⟨rfl, settled⟩, ⟨rfl, others⟩, rfl⟩

/-! ## Replies -/

def Snapshot.reply (snapshot : Snapshot) : Reply where
  tasks := some (snapshot.tasks.map (·.entry))
  runTime := some snapshot.runTime

theorem Reply.completes_iff {snapshot : Snapshot} {reply : Reply} :
    Reply.Completes snapshot reply ↔ snapshot.reply = reply ∧ snapshot.settled = snapshot := by
  obtain ⟨tasks, total⟩ := snapshot
  obtain ⟨entries, runTime⟩ := reply
  simp only [Completes, TaskEntry.forall₂_completes_iff, Snapshot.reply, Snapshot.settled,
    Reply.mk.injEq, Snapshot.mk.injEq, and_true]
  constructor
  · rintro ⟨_, rfl, ⟨rfl, settled⟩, rfl⟩
    exact ⟨⟨rfl, rfl⟩, settled⟩
  · rintro ⟨⟨rfl, rfl⟩, settled⟩
    exact ⟨_, rfl, ⟨rfl, settled⟩, rfl⟩

structure Reply.Full (reply : Reply) : Prop where
  tasks : ∃ entries, reply.tasks = some entries ∧ ∀ entry ∈ entries, entry.Full
  runTime : ∃ total, reply.runTime = some total

/-- The gap that comes first: the list of tasks, the run time, or else the first field that the
first entry with a gap lacks. -/
inductive Reply.FirstGap (reply : Reply) : Gap → Prop where
  | tasks : reply.tasks = none → FirstGap reply (.reply .tasks)
  | runTime {entries : List TaskEntry} : reply.tasks = some entries → reply.runTime = none →
      FirstGap reply (.reply .runTime)
  | task {front back : List TaskEntry} {entry : TaskEntry} {field : TaskField} {total : UInt64} :
      reply.tasks = some (front ++ entry :: back) → reply.runTime = some total →
      (∀ earlier ∈ front, earlier.Full) → entry.LacksFirst field →
      FirstGap reply (.task front.length field)

theorem validateFrom_cons {index : Nat} {entry : TaskEntry} {task : TaskRecord}
    (valid : entry.validate index = .ok task) (rest : List TaskEntry) :
    validateFrom index (entry :: rest) = (validateFrom (index + 1) rest).map (task :: ·) := by
  rw [validateFrom, valid]
  cases validateFrom (index + 1) rest <;> rfl

theorem validateFrom_full {entries : List TaskEntry} (full : ∀ entry ∈ entries, entry.Full)
    (index : Nat) : ∃ tasks, validateFrom index entries = .ok tasks := by
  induction entries generalizing index with
  | nil => exact ⟨[], rfl⟩
  | cons entry entries ih =>
    obtain ⟨own, others⟩ := List.forall_mem_cons.mp full
    obtain ⟨task, valid⟩ := own.validate index
    obtain ⟨tasks, more⟩ := ih others (index + 1)
    refine ⟨task :: tasks, ?_⟩
    rw [validateFrom_cons valid, more]
    rfl

/-- The place of the first entry with a gap is its place in the whole list. -/
theorem validateFrom_gap {front back : List TaskEntry} {entry : TaskEntry} {field : TaskField}
    (full : ∀ earlier ∈ front, earlier.Full) (first : entry.LacksFirst field) (index : Nat) :
    validateFrom index (front ++ entry :: back) = .error (.task (index + front.length) field) := by
  induction front generalizing index with
  | nil =>
    rw [List.nil_append, validateFrom, first.validate]
    rfl
  | cons earlier front ih =>
    obtain ⟨own, others⟩ := List.forall_mem_cons.mp full
    obtain ⟨task, valid⟩ := own.validate index
    rw [List.cons_append, validateFrom_cons valid, ih others, List.length_cons, Nat.add_assoc,
      Nat.add_comm 1]
    rfl

theorem TaskEntry.full_or_gap (entries : List TaskEntry) :
    (∀ entry ∈ entries, entry.Full) ∨ ∃ front entry back field, entries = front ++ entry :: back ∧
      (∀ earlier ∈ front, earlier.Full) ∧ entry.LacksFirst field := by
  induction entries with
  | nil => exact .inl (by simp)
  | cons entry entries ih =>
    rcases entry.validate_cases 0 with ⟨full, _⟩ | ⟨field, first, _⟩
    · rcases ih with others | ⟨front, gapped, back, field, rfl, others, first⟩
      · exact .inl (List.forall_mem_cons.mpr ⟨full, others⟩)
      · exact .inr ⟨entry :: front, gapped, back, field, rfl,
          List.forall_mem_cons.mpr ⟨full, others⟩, first⟩
    · exact .inr ⟨[], entry, entries, field, rfl, by simp, first⟩

theorem Reply.full_or_firstGap (reply : Reply) : reply.Full ∨ ∃ gap, reply.FirstGap gap := by
  obtain ⟨tasks, runTime⟩ := reply
  cases tasks with
  | none => exact .inr ⟨_, .tasks rfl⟩
  | some entries =>
    cases runTime with
    | none => exact .inr ⟨_, .runTime rfl rfl⟩
    | some total =>
      rcases TaskEntry.full_or_gap entries with
        full | ⟨front, entry, back, field, rfl, others, first⟩
      · exact .inl ⟨⟨entries, rfl, full⟩, total, rfl⟩
      · exact .inr ⟨_, .task rfl rfl others first⟩

theorem Reply.Full.validate {reply : Reply} (full : reply.Full) :
    ∃ snapshot, reply.validate = .ok snapshot := by
  obtain ⟨⟨entries, given, each⟩, total, known⟩ := full
  obtain ⟨tasks, valid⟩ := validateFrom_full each 0
  refine ⟨⟨tasks, total⟩, ?_⟩
  simp only [Reply.validate, given, known, valid]
  rfl

theorem Reply.FirstGap.validate {reply : Reply} {gap : Gap} (first : reply.FirstGap gap) :
    reply.validate = .error gap := by
  cases first with
  | tasks none => simp only [Reply.validate, none]
  | runTime given none => simp only [Reply.validate, given, none]
  | task given known others first =>
    simp only [Reply.validate, given, known, validateFrom_gap others first, Nat.zero_add]
    rfl

/-- Validation accepts just the replies without gaps, and the reply can be told from the snapshot
that comes of it: there are as many tasks in the same order, and each state and each core is the
one that its number in the reply stands for. Of any other reply it names the first gap. -/
theorem Reply.validate_first_gap (reply : Reply) :
    (∀ snapshot, reply.validate = .ok snapshot ↔
      snapshot.reply = reply ∧ snapshot.settled = snapshot) ∧
    ((∃ snapshot, reply.validate = .ok snapshot) ↔ reply.Full) ∧
    ∀ gap, reply.validate = .error gap ↔ reply.FirstGap gap := by
  refine ⟨fun snapshot => Reply.validate_eq_ok.trans Reply.completes_iff, ?_, fun gap => ?_⟩
  · constructor
    · rintro ⟨snapshot, valid⟩
      rcases reply.full_or_firstGap with full | ⟨gap, first⟩
      · exact full
      · cases valid.symm.trans first.validate
    · exact Reply.Full.validate
  · constructor
    · intro found
      rcases reply.full_or_firstGap with full | ⟨other, first⟩
      · obtain ⟨snapshot, valid⟩ := full.validate
        cases found.symm.trans valid
      · cases found.symm.trans first.validate
        exact first
    · exact Reply.FirstGap.validate

/-- Of two entries with gaps the first counts, and of its gaps the one that is asked for first. -/
example : Reply.validate
    { tasks := some [⟨some 7, some "idle", some 1, some (-1), some 0, some 9, some 128⟩,
        { number := some 8, name := some "wifi", state := some 9, priority := some 1 }, {}]
      runTime := some 0 } = .error (.task 1 .core) := by rfl

end TaskMonitor
