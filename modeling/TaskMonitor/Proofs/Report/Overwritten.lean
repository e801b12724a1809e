import Mathlib.Data.List.Perm.Basic
import Mathlib.Data.List.Sort
import TaskMonitor.Proofs.Report.Latest

/-! Which snapshots have the same rows. Nothing counts but the last task with each number: neither
the tasks before it nor the order of the device can be told from a report. -/

set_option autoImplicit false

namespace TaskMonitor

theorem Ascending.eq_of_mem_iff {first second : List TaskRecord} (left : Ascending first)
    (right : Ascending second) (same : ∀ task, task ∈ first ↔ task ∈ second) : first = second := by
  let Before (task other : TaskRecord) : Prop := task.number < other.number
  have : Std.Antisymm Before := ⟨fun _ _ before after => absurd after (UInt32.lt_asymm before)⟩
  have : Std.Irrefl Before := ⟨fun task => UInt32.lt_irrefl task.number⟩
  exact List.Pairwise.eq_of_mem_iff (r := Before) left right same

theorem latest_eq_iff {first second : List TaskRecord} :
    latest first = latest second ↔ ∀ number, last? number first = last? number second := by
  constructor
  · intro same number
    rw [← find?_latest, same, find?_latest]
  · intro same
    refine (ascending_latest first).eq_of_mem_iff (ascending_latest second) fun task => ?_
    rw [mem_latest_iff, mem_latest_iff, same]

theorem Ascending.last?_eq_find? {tasks : List TaskRecord} (ascending : Ascending tasks)
    (number : UInt32) : last? number tasks = tasks.find? (·.number = number) := by
  induction tasks with
  | nil => rfl
  | cons head rest ih =>
    obtain ⟨least, later⟩ := List.pairwise_cons.mp ascending
    by_cases same : head.number = number
    · have alone : rest.filter (·.number = number) = [] := by
        simp only [List.filter_eq_nil_iff, decide_eq_true_eq]
        intro task member
        exact same ▸ (UInt32.ne_of_lt (least task member)).symm
      simp [last?, same, alone]
    · have rest := ih later
      unfold last? at rest ⊢
      simpa [same] using rest

theorem latest_latest (tasks : List TaskRecord) : latest (latest tasks) = latest tasks := by
  rw [latest_eq_iff]
  intro number
  rw [(ascending_latest tasks).last?_eq_find?, find?_latest]

/-- Tasks in another order, in which those of one number still follow each other as before. -/
def Rearranged (first second : List TaskRecord) : Prop :=
  ∀ number, first.filter (·.number = number) = second.filter (·.number = number)

theorem Rearranged.perm {first second : List TaskRecord} (rearranged : Rearranged first second) :
    first.Perm second := by
  rw [List.perm_iff_count]
  intro task
  have kept : ∀ tasks : List TaskRecord,
      (tasks.filter (·.number = task.number)).count task = tasks.count task :=
    fun tasks => List.count_filter (decide_eq_true rfl)
  rw [← kept first, rearranged, kept second]

theorem Rearranged.last?_eq {first second : List TaskRecord}
    (rearranged : Rearranged first second) (number : UInt32) :
    last? number first = last? number second := by
  unfold last?
  rw [rearranged]

/-! ## Rows -/

def Row.task (row : Row) : TaskRecord :=
  { number := row.number
    name := row.name
    state := row.state
    core := row.core
    priority := row.priority
    runTime := row.runTime
    stackRemaining := row.stackRemaining }

/-- The tasks of a report's rows, as a device might list them. -/
def Report.snapshot (report : Report) : Snapshot :=
  { tasks := report.rows.map Row.task, runTime := report.runTime }

/-- A row keeps all that is known of its task. -/
theorem Row.task_ofTask (runTime : UInt64) (task : TaskRecord) :
    (Row.ofTask runTime task).task = task := rfl

theorem Snapshot.tasks_rows (snapshot : Snapshot) :
    snapshot.normalize.rows.map Row.task = latest snapshot.tasks := by
  simp only [normalize, List.map_map, Function.comp_def, Row.task_ofTask, List.map_id']

theorem Snapshot.rows_eq_iff_latest {first second : Snapshot}
    (total : first.runTime = second.runTime) :
    first.normalize.rows = second.normalize.rows ↔ latest first.tasks = latest second.tasks := by
  constructor
  · intro same
    rw [← first.tasks_rows, same, second.tasks_rows]
  · intro same
    simp only [normalize, same, total]

/-- Two snapshots of one total run time have the same rows just when they have the same last task
of each number. So the order of the device does not count as long as tasks of one number keep
theirs, and the tasks of a report give the same report, with nothing dropped. -/
theorem Snapshot.rows_eq_iff_last (first second : Snapshot)
    (total : first.runTime = second.runTime) :
    (first.normalize.rows = second.normalize.rows ↔
      ∀ number, last? number first.tasks = last? number second.tasks) ∧
    (Rearranged first.tasks second.tasks →
      first.normalize.rows = second.normalize.rows ∧
        first.normalize.dropped = second.normalize.dropped) ∧
    first.normalize.snapshot.normalize.rows = first.normalize.rows ∧
    first.normalize.snapshot.normalize.dropped = 0 := by
  have rows := rows_eq_iff_latest total
  have again : first.normalize.snapshot.tasks = latest first.tasks := first.tasks_rows
  refine ⟨rows.trans latest_eq_iff, fun rearranged => ?_, ?_, ?_⟩
  · have same := latest_eq_iff.mpr rearranged.last?_eq
    refine ⟨rows.mpr same, ?_⟩
    simp only [normalize, same, rearranged.perm.length_eq]
  · have rebuilt : first.normalize.snapshot.runTime = first.runTime := rfl
    rw [rows_eq_iff_latest rebuilt, again, latest_latest]
  · simp only [normalize] at again ⊢
    rw [again, latest_latest, Nat.sub_self]

/-- A task that comes twice, and a snapshot without the first of the two in another order. -/
theorem Snapshot.rows_eq_iff_last_overwritten :
    let old : TaskRecord := ⟨7, "boot", .deleted, .ofNumber 1, 0, 90, 12⟩
    let new : TaskRecord := ⟨7, "idle", .ready, .unpinned, 3, 25, 64⟩
    let main : TaskRecord := ⟨2, "main", .running, .ofNumber 0, 5, 75, 128⟩
    let first : Snapshot := ⟨[old, main, new], 100⟩
    let second : Snapshot := ⟨[new, main], 100⟩
    first.runTime = second.runTime ∧ first.normalize.rows = second.normalize.rows ∧
      first.normalize.dropped = 1 ∧ second.normalize.dropped = 0 ∧
      ∀ number, last? number first.tasks = last? number second.tasks := by
  intro old new main first second
  have same : first.normalize.rows = second.normalize.rows := rfl
  exact ⟨rfl, same, rfl, rfl, (first.rows_eq_iff_last second rfl).1.mp same⟩

end TaskMonitor
