import Mathlib.Data.Finset.Card
import Mathlib.Data.Finset.Dedup
import TaskMonitor.Report.Basic

/-! The rows of a report. Each task number that the device lists has one row, made from the last
task with that number, and the rows stand in the order of their numbers. -/

set_option autoImplicit false

namespace TaskMonitor

def last? (number : UInt32) (tasks : List TaskRecord) : Option TaskRecord :=
  (tasks.filter (·.number = number)).getLast?

theorem last?_concat (number : UInt32) (tasks : List TaskRecord) (task : TaskRecord) :
    last? number (tasks ++ [task]) =
      if task.number = number then some task else last? number tasks := by
  by_cases same : task.number = number <;> simp [last?, List.filter_append, same]

theorem last?_eq_none_iff {number : UInt32} {tasks : List TaskRecord} :
    last? number tasks = none ↔ ∀ task ∈ tasks, task.number ≠ number := by
  simp [last?]

/-- Tasks in the order of their numbers, no number twice. -/
def Ascending (tasks : List TaskRecord) : Prop :=
  tasks.Pairwise fun first second => first.number < second.number

theorem mem_insertTask {task other : TaskRecord} {tasks : List TaskRecord}
    (member : other ∈ insertTask task tasks) : other = task ∨ other ∈ tasks := by
  induction tasks with
  | nil => simpa [insertTask] using member
  | cons head rest ih =>
    unfold insertTask at member
    split at member
    · simpa using member
    · split at member
      · exact (List.mem_cons.mp member).imp_right (List.mem_cons_of_mem _)
      · rcases List.mem_cons.mp member with rfl | member
        · exact .inr List.mem_cons_self
        · exact (ih member).imp_right (List.mem_cons_of_mem _)

theorem Ascending.insertTask {tasks : List TaskRecord} (ascending : Ascending tasks)
    (task : TaskRecord) : Ascending (insertTask task tasks) := by
  induction tasks with
  | nil => exact List.pairwise_singleton _ _
  | cons head rest ih =>
    obtain ⟨least, later⟩ := List.pairwise_cons.mp ascending
    unfold TaskMonitor.insertTask
    -- The task goes before the head, into its place, or further on.
    split
    · next before =>
      refine List.pairwise_cons.mpr ⟨fun other member => ?_, ascending⟩
      rcases List.mem_cons.mp member with rfl | member
      · exact before
      · exact UInt32.lt_trans before (least other member)
    · next notBefore =>
      split
      · next same =>
        exact List.pairwise_cons.mpr ⟨fun other member => same ▸ least other member, later⟩
      · next apart =>
        refine List.pairwise_cons.mpr ⟨fun other member => ?_, ih later⟩
        rcases mem_insertTask member with rfl | member
        · exact UInt32.lt_of_le_of_ne (UInt32.not_lt.mp notBefore) (Ne.symm apart)
        · exact least other member

/-- A task takes the place of the one with its number and of no other. -/
theorem find?_insertTask (number : UInt32) (task : TaskRecord) (tasks : List TaskRecord) :
    (insertTask task tasks).find? (·.number = number) =
      if task.number = number then some task else tasks.find? (·.number = number) := by
  induction tasks with
  | nil => by_cases same : task.number = number <;> simp [insertTask, same]
  | cons head rest ih =>
    unfold insertTask
    -- In each of the three places the number is that of the task or another one.
    split
    · by_cases same : task.number = number <;> simp [same]
    · split
      · next replaced =>
        by_cases same : task.number = number
        · simp [same]
        · simp [same, ← replaced]
      · next notBefore apart =>
        by_cases same : head.number = number
        · have other : task.number ≠ number := fun taken => apart (taken.trans same.symm)
          simp [same, other]
        · simp [same, ih]

/-! ## All tasks -/

theorem latest_concat (tasks : List TaskRecord) (task : TaskRecord) :
    latest (tasks ++ [task]) = insertTask task (latest tasks) := by
  simp [latest]

theorem ascending_latest (tasks : List TaskRecord) : Ascending (latest tasks) := by
  induction tasks using List.reverseRecOn with
  | nil => exact .nil
  | append_singleton tasks task ih =>
    rw [latest_concat]
    exact ih.insertTask task

theorem find?_latest (number : UInt32) (tasks : List TaskRecord) :
    (latest tasks).find? (·.number = number) = last? number tasks := by
  induction tasks using List.reverseRecOn with
  | nil => rfl
  | append_singleton tasks task ih => rw [latest_concat, find?_insertTask, last?_concat, ih]

theorem Ascending.find?_eq {tasks : List TaskRecord} (ascending : Ascending tasks)
    {task : TaskRecord} (member : task ∈ tasks) :
    tasks.find? (·.number = task.number) = some task := by
  induction tasks with
  | nil => cases member
  | cons head rest ih =>
    obtain ⟨least, later⟩ := List.pairwise_cons.mp ascending
    rcases List.mem_cons.mp member with rfl | member
    · simp
    · have apart : head.number ≠ task.number := UInt32.ne_of_lt (least task member)
      simp [apart, ih later member]

theorem mem_latest_iff {task : TaskRecord} {tasks : List TaskRecord} :
    task ∈ latest tasks ↔ last? task.number tasks = some task := by
  constructor
  · intro member
    rw [← find?_latest, (ascending_latest tasks).find?_eq member]
  · intro last
    rw [← find?_latest] at last
    exact List.mem_of_find?_eq_some last

theorem mem_numbers_latest_iff {number : UInt32} {tasks : List TaskRecord} :
    number ∈ (latest tasks).map (·.number) ↔ number ∈ tasks.map (·.number) := by
  rw [← not_iff_not]
  have none : (latest tasks).find? (·.number = number) = none ↔ last? number tasks = none := by
    rw [find?_latest]
  simpa [last?_eq_none_iff] using none

theorem length_latest (tasks : List TaskRecord) :
    (latest tasks).length = (tasks.map (·.number)).toFinset.card := by
  have distinct : ((latest tasks).map (·.number)).Nodup :=
    List.pairwise_map.mpr ((ascending_latest tasks).imp UInt32.ne_of_lt)
  have same : ((latest tasks).map (·.number)).toFinset = (tasks.map (·.number)).toFinset := by
    ext number
    simp only [List.mem_toFinset, mem_numbers_latest_iff]
  rw [← same, List.toFinset_card_of_nodup distinct, List.length_map]

/-- A report has a row for each number in the snapshot and for no other, in ascending order, and
each row is that of the last task with its number. The entries without a row are counted. -/
theorem Snapshot.rows_of_last (snapshot : Snapshot) :
    let report := snapshot.normalize
    let numbers := (snapshot.tasks.map (·.number)).toFinset
    report.rows.Pairwise (fun first second => first.number < second.number) ∧
      (∀ number, (∃ row ∈ report.rows, row.number = number) ↔
        ∃ task ∈ snapshot.tasks, task.number = number) ∧
      (∀ row ∈ report.rows, ∃ task, last? row.number snapshot.tasks = some task ∧
        row =
          { number := task.number
            name := task.name
            state := task.state
            stateLabel := task.state.label
            core := task.core
            coreLabel := task.core.label
            priority := task.priority
            runTime := task.runTime
            share := .compute task.runTime snapshot.runTime
            stackRemaining := task.stackRemaining }) ∧
      numbers.card ≤ snapshot.tasks.length ∧
      report.dropped = snapshot.tasks.length - numbers.card ∧
      report.runTime = snapshot.runTime := by
  refine ⟨List.pairwise_map.mpr (ascending_latest snapshot.tasks), ?_, ?_, ?_, ?_, rfl⟩
  · intro number
    simpa [Snapshot.normalize, Row.ofTask] using
      @mem_numbers_latest_iff number snapshot.tasks
  · intro row member
    obtain ⟨task, kept, rfl⟩ := List.mem_map.mp member
    exact ⟨task, mem_latest_iff.mp kept, rfl⟩
  · exact (List.toFinset_card_le _).trans_eq (List.length_map _)
  · exact congrArg (snapshot.tasks.length - ·) (length_latest snapshot.tasks)

end TaskMonitor
