import Mathlib.Data.List.Basic
import TaskMonitor.Command.Execution

/-! What is printed over many fetches: whole reports, one for each snapshot before the first
failure, with an empty line between two of them. -/

set_option autoImplicit false

namespace TaskMonitor

variable {fetch : Nat → Except FetchError Snapshot}

/-- A source gives these snapshots, from fetch `index` on. -/
def Gives (fetch : Nat → Except FetchError Snapshot) (index : Nat) (snapshots : List Snapshot) :
    Prop :=
  ∀ place (inside : place < snapshots.length), fetch (index + place) = .ok snapshots[place]

theorem Gives.head {index : Nat} {snapshot : Snapshot} {later : List Snapshot}
    (gives : Gives fetch index (snapshot :: later)) : fetch index = .ok snapshot :=
  gives 0 (Nat.zero_lt_succ _)

theorem Gives.tail {index : Nat} {snapshot : Snapshot} {later : List Snapshot}
    (gives : Gives fetch index (snapshot :: later)) : Gives fetch (index + 1) later := by
  intro place inside
  rw [Nat.add_assoc, Nat.add_comm 1]
  exact gives (place + 1) (Nat.succ_lt_succ inside)

theorem gives_thenClosed (snapshots : List Snapshot) (rest : List (Except FetchError Snapshot)) :
    Gives (thenClosed (snapshots.map .ok ++ rest)) 0 snapshots := by
  intro place inside
  rw [thenClosed, Nat.zero_add, List.getElem?_append_left (by simpa using inside)]
  simp [inside]

theorem thenClosed_append (snapshots : List Snapshot)
    (rest : List (Except FetchError Snapshot)) :
    thenClosed (snapshots.map .ok ++ rest) snapshots.length = thenClosed rest 0 := by
  rw [thenClosed, List.getElem?_append_right (by simp), List.length_map, Nat.sub_self, thenClosed]

theorem exists_failure (outcomes : List (Except FetchError Snapshot)) :
    ∃ (snapshots : List Snapshot) (rest : List (Except FetchError Snapshot)) (failure : FetchError),
      outcomes = snapshots.map .ok ++ rest ∧ thenClosed rest 0 = .error failure := by
  induction outcomes with
  | nil => exact ⟨[], [], .closed, rfl, rfl⟩
  | cons outcome outcomes ih =>
    cases outcome with
    | error failure => exact ⟨[], .error failure :: outcomes, failure, rfl, rfl⟩
    | ok snapshot =>
      obtain ⟨snapshots, rest, failure, rfl, fails⟩ := ih
      exact ⟨snapshot :: snapshots, rest, failure, rfl, fails⟩

/-! ## Cycles -/

@[simp] theorem cycle_ok (format : Format) (index : Nat) (snapshot : Snapshot) :
    cycle format index (.ok snapshot) = .ok (separated (index = 0) (snapshot.write format)) := rfl

@[simp] theorem cycle_error (format : Format) (index : Nat) (failure : FetchError) :
    cycle format index (.error failure) = .error failure := rfl

theorem watchFrom_ok (format : Format) {index : Nat} {snapshot : Snapshot}
    (given : fetch index = .ok snapshot) (cycles : Nat) :
    let later := watchFrom format fetch (index + 1) cycles
    watchFrom format fetch index (cycles + 1) =
      { output := separated (index = 0) (snapshot.write format) ++ later.output
        fetched := later.fetched + 1
        failure := later.failure } := by
  simp only [watchFrom, given, cycle_ok]

theorem watchFrom_error (format : Format) {index : Nat} {failure : FetchError}
    (failed : fetch index = .error failure) (cycles : Nat) :
    watchFrom format fetch index (cycles + 1) = gaveUp failure := by
  simp only [watchFrom, failed, cycle_error]

/-- Reports with one line feed more before each. -/
def laterReports (format : Format) (snapshots : List Snapshot) : List Char :=
  snapshots.flatMap fun snapshot => '\n' :: snapshot.write format

/-- Reports with one line feed more between two. -/
def reports (format : Format) (snapshots : List Snapshot) : List Char :=
  ['\n'].intercalate (snapshots.map (·.write format))

theorem reports_more (format : Format) (first : Snapshot) {later : List Snapshot}
    (some : later ≠ []) :
    reports format (first :: later) = first.write format ++ '\n' :: reports format later := by
  cases later with
  | nil => exact absurd rfl some
  | cons second later => simp [reports, List.intercalate_cons_cons]

theorem reports_cons (format : Format) (first : Snapshot) (later : List Snapshot) :
    reports format (first :: later) = first.write format ++ laterReports format later := by
  induction later generalizing first with
  | nil => simp [reports, laterReports]
  | cons second later ih =>
    rw [reports_more format first (List.cons_ne_nil _ _), ih second]
    rfl

theorem Gives.watchFrom_later {index : Nat} {snapshots : List Snapshot}
    (gives : Gives fetch index snapshots) (format : Format) (started : index ≠ 0) (more : Nat) :
    let last := watchFrom format fetch (index + snapshots.length) more
    watchFrom format fetch index (snapshots.length + more) =
      { output := laterReports format snapshots ++ last.output
        fetched := snapshots.length + last.fetched
        failure := last.failure } := by
  -- On the snapshots: a cycle for each, of which none is the first.
  induction snapshots generalizing index with
  | nil => simp [laterReports]
  | cons snapshot later ih =>
    have next := ih gives.tail (Nat.succ_ne_zero index)
    have cycles : (snapshot :: later).length + more = later.length + more + 1 := by
      rw [List.length_cons, Nat.add_right_comm]
    have place : index + (snapshot :: later).length = index + 1 + later.length := by
      rw [List.length_cons, Nat.add_assoc, Nat.add_comm 1]
    rw [cycles, place, watchFrom_ok format gives.head, next]
    simp [laterReports, separated, started, Nat.add_right_comm]

theorem Gives.watch {snapshots : List Snapshot} (gives : Gives fetch 0 snapshots)
    (format : Format) (more : Nat) :
    let last := watchFrom format fetch snapshots.length more
    watch format fetch (snapshots.length + more) =
      { output := reports format snapshots ++ last.output
        fetched := snapshots.length + last.fetched
        failure := last.failure } := by
  cases snapshots with
  | nil => simp [TaskMonitor.watch, reports]
  | cons first later =>
    have next := gives.tail.watchFrom_later format Nat.one_ne_zero more
    have cycles : (first :: later).length + more = later.length + more + 1 := by
      rw [List.length_cons, Nat.add_right_comm]
    rw [TaskMonitor.watch, cycles, watchFrom_ok format gives.head, next, reports_cons]
    simp [separated, Nat.add_comm 1, Nat.add_right_comm]

/-! ## The command -/

/-- With a period that can be waited, the command prints what its cycles print. -/
theorem report_watch {format : Format} {period : Duration} (some : 0 < period.nanoseconds)
    (cycles : Nat) :
    Command.report format (.some period) cycles fetch =
      .ofPrinted (watch format fetch cycles) := by
  simp only [Command.report, Command.Schedule.ofPeriod, Nat.ne_of_gt some, ↓reduceIte]

theorem report_once (format : Format) (cycles : Nat) :
    Command.report format none cycles fetch = .ofPrinted (printOnce format (fetch 0)) := rfl

theorem ofPrinted_output (printed : Printed) :
    (Command.Ending.ofPrinted printed).output = printed.output := by
  unfold Command.Ending.ofPrinted
  split <;> rfl

theorem ofPrinted_failure (printed : Printed) :
    (Command.Ending.ofPrinted printed).failure =
      printed.failure.map fun _ => "Error: failed to fetch task snapshot" := by
  have told : Command.failureLine fetchFailure = "Error: failed to fetch task snapshot" := rfl
  cases failed : printed.failure <;> simp [Command.Ending.ofPrinted, Command.failed, failed, told]

/-- Reports are printed whole and in order up to the first failure, which ends the printing: no
fetch is made after it, and nothing is printed but the reports and a line feed between two. -/
theorem watch_until_failure (outcomes : List (Except FetchError Snapshot)) :
    ∃ (snapshots : List Snapshot) (rest : List (Except FetchError Snapshot)) (failure : FetchError),
      outcomes = snapshots.map .ok ++ rest ∧ thenClosed rest 0 = .error failure ∧
      (∀ format cycles, snapshots.length < cycles →
        let printed := watch format (thenClosed outcomes) cycles
        (∀ period : Duration, 0 < period.nanoseconds →
          Command.report format (some period) cycles (thenClosed outcomes) =
            .ofPrinted printed) ∧
          printed.fetched = snapshots.length + 1 ∧ printed.failure = some failure ∧
          (Command.Ending.ofPrinted printed).failure =
            some "Error: failed to fetch task snapshot" ∧
          printed.output = ['\n'].intercalate (snapshots.map (·.write format))) ∧
      ∀ format,
        let printed := printOnce format (thenClosed outcomes 0)
        (∀ cycles, Command.report format none cycles (thenClosed outcomes) =
            .ofPrinted printed) ∧
          printed.fetched = 1 ∧ printed.failure = (if snapshots = [] then some failure else none) ∧
          (Command.Ending.ofPrinted printed).failure =
            (if snapshots = [] then some "Error: failed to fetch task snapshot" else none) ∧
          printed.output = (snapshots.take 1).flatMap (·.write format) := by
  obtain ⟨snapshots, rest, failure, rfl, fails⟩ := exists_failure outcomes
  have gives := gives_thenClosed snapshots rest
  have stops := (thenClosed_append snapshots rest).trans fails
  refine ⟨snapshots, rest, failure, rfl, fails, fun format cycles uninterrupted => ?_,
    fun format => ?_⟩
  · refine ⟨fun period some => report_watch some cycles, ?_⟩
    obtain ⟨more, rfl⟩ := Nat.exists_eq_add_of_lt uninterrupted
    rw [Nat.add_assoc, gives.watch, watchFrom_error format stops]
    simp [ofPrinted_failure, reports, gaveUp]
  · refine ⟨report_once format, ?_⟩
    cases snapshots with
    | nil =>
      rw [List.map_nil, List.nil_append, fails]
      simp [ofPrinted_failure, printOnce, gaveUp]
    | cons first later =>
      rw [gives.head]
      simp [ofPrinted_failure, printOnce, separated]

/-- A snapshot with a task and one without, then the end of the connection. -/
theorem watch_until_failure_closed :
    let first : Snapshot :=
      { tasks := [⟨7, "idle", .running, .ofNumber 0, 3, 5, 64⟩], runTime := 10 }
    let second : Snapshot := { tasks := [], runTime := 0 }
    let fetch := thenClosed [.ok first, .ok second]
    (watch .table fetch 5).fetched = 3 ∧
      Command.report .table (some ⟨1⟩) 5 fetch =
        { status := 1
          output :=
            ["RTOS Tasks",
              "#  Name  State    CorePin  Prio  Run Time  Run %  Stack Rem.",
              "------------------------------------------------------------",
              "7  idle  running  0           3         5   50.0          64",
              "total run time: 10",
              "",
              "RTOS Tasks",
              "#  Name  State  CorePin  Prio  Run Time  Run %  Stack Rem.",
              "----------------------------------------------------------",
              "total run time: 0"].flatMap fun line => line.toList ++ ['\n']
          failure := some "Error: failed to fetch task snapshot" } := by
  intro first second fetch
  obtain ⟨snapshots, rest, failure, split, fails, watched, _⟩ :=
    watch_until_failure [.ok first, .ok second]
  have all : snapshots = [first, second] := by
    rcases snapshots with _ | ⟨one, _ | ⟨two, _ | _⟩⟩
    · cases split
      cases fails
    · cases split
      cases fails
    · cases split
      rfl
    · cases split
  subst all
  obtain ⟨command, fetched, failed, _, output⟩ := watched .table 5 (by decide)
  refine ⟨fetched, ?_⟩
  rw [command ⟨1⟩ (by decide), Command.Ending.ofPrinted, failed]
  simp only [output]
  decide +kernel

end TaskMonitor
