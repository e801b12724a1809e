import TaskMonitor.Proofs.Number.TotalOrder
import TaskMonitor.Proofs.Report.Latest

/-! The rows that a summary names. The busiest row is the last one of those with the greatest
share, and the row with the lowest stack the first one of those with the least. -/

set_option autoImplicit false

namespace TaskMonitor

open Number (Binary64)
open Number.Binary64 (TotalLE)

/-! ## Picking an element of a list -/

section
variable {α : Type} {beats : α → α → Prop} {pick? : List α → Option α}

/-- An element that none before it beats and that beats all after it. -/
def Chosen (beats : α → α → Prop) (list : List α) (x : α) : Prop :=
  ∃ before after, list = before ++ x :: after ∧ (∀ y ∈ before, ¬ beats y x) ∧
    ∀ y ∈ after, beats x y

/-- Picking from the end of a list on: an element takes the place of the one that it beats. -/
structure Picks (beats : α → α → Prop) (pick? : List α → Option α) : Prop where
  trans {x y z : α} : beats x y → beats y z → beats x z
  cotrans {x y z : α} : beats x z → beats x y ∨ beats y z
  nil : pick? [] = none
  alone {x : α} {rest : List α} : pick? rest = none → pick? (x :: rest) = some x
  first {x y : α} {rest : List α} : pick? rest = some y → beats x y → pick? (x :: rest) = some x
  later {x y : α} {rest : List α} : pick? rest = some y → ¬ beats x y → pick? (x :: rest) = some y

theorem Picks.eq_none_iff (picks : Picks beats pick?) {list : List α} :
    pick? list = none ↔ list = [] := by
  cases list with
  | nil => exact iff_of_true picks.nil rfl
  | cons x rest =>
    refine iff_of_false ?_ (List.cons_ne_nil x rest)
    cases found : pick? rest with
    | none => simp [picks.alone found]
    | some y =>
      by_cases wins : beats x y
      · simp [picks.first found wins]
      · simp [picks.later found wins]

theorem Picks.beats_all (picks : Picks beats pick?) {x y : α} {rest : List α}
    (chosen : Chosen beats rest y) (wins : beats x y) : ∀ z ∈ rest, beats x z := by
  obtain ⟨before, after, rfl, earlier, later⟩ := chosen
  intro z member
  rcases List.mem_append.mp member with member | member
  · exact (picks.cotrans wins).resolve_right (earlier z member)
  · rcases List.mem_cons.mp member with rfl | member
    · exact wins
    · exact picks.trans wins (later z member)

theorem Picks.chosen (picks : Picks beats pick?) {list : List α} {x : α}
    (found : pick? list = some x) : Chosen beats list x := by
  -- On the list: the head is alone, beats the choice among the others, or leaves it.
  induction list generalizing x with
  | nil => cases picks.nil.symm.trans found
  | cons head rest ih =>
    cases other : pick? rest with
    | none =>
      cases (picks.alone other).symm.trans found
      cases picks.eq_none_iff.mp other
      exact ⟨[], [], rfl, by simp, by simp⟩
    | some y =>
      by_cases wins : beats head y
      · cases (picks.first other wins).symm.trans found
        exact ⟨[], rest, rfl, by simp, picks.beats_all (ih other) wins⟩
      · cases (picks.later other wins).symm.trans found
        obtain ⟨before, after, rfl, earlier, later⟩ := ih other
        exact ⟨head :: before, after, rfl, List.forall_mem_cons.mpr ⟨wins, earlier⟩, later⟩

theorem Picks.found (picks : Picks beats pick?) {list : List α} {x : α}
    (chosen : Chosen beats list x) : pick? list = some x := by
  obtain ⟨before, after, rfl, earlier, later⟩ := chosen
  induction before with
  | nil =>
    cases other : pick? after with
    | none => exact picks.alone other
    | some y =>
      obtain ⟨_, _, rfl, _, _⟩ := picks.chosen other
      exact picks.first other (later y (by simp))
  | cons head before ih =>
    obtain ⟨loses, earlier⟩ := List.forall_mem_cons.mp earlier
    exact picks.later (ih earlier) loses

theorem Picks.eq_some_iff (picks : Picks beats pick?) {list : List α} {x : α} :
    pick? list = some x ↔ Chosen beats list x :=
  ⟨picks.chosen, picks.found⟩

theorem lastMax?_picks (key : α → Int) :
    Picks (fun x y => key y < key x) (lastMax? key) where
  trans first second := Int.lt_trans second first
  cotrans wins := by omega
  nil := rfl
  alone none := by simp only [lastMax?, none]
  first found wins := by simp only [lastMax?, found, if_pos wins]
  later found loses := by simp only [lastMax?, found, if_neg loses]

theorem firstMin?_picks (key : α → Int) :
    Picks (fun x y => key x ≤ key y) (firstMin? key) where
  trans first second := Int.le_trans first second
  cotrans wins := by omega
  nil := rfl
  alone none := by simp only [firstMin?, none]
  first found wins := by simp only [firstMin?, found, if_neg (Int.not_lt.mpr wins)]
  later found loses := by simp only [firstMin?, found, if_pos (Int.not_le.mp loses)]

end

/-! ## Rows -/

/-- A row with a share that none exceeds and no later one equals. -/
def Busiest (rows : List Row) (row : Row) : Prop :=
  ∃ share before after, rows = before ++ row :: after ∧ row.share = .percent share ∧
    (∀ other ∈ before, ∀ value, other.share = .percent value → TotalLE value share) ∧
    ∀ other ∈ after, ∀ value, other.share = .percent value → ¬ TotalLE share value

/-- A row with the least stack left, which no earlier one has. -/
def LowestStack (rows : List Row) (row : Row) : Prop :=
  ∃ before after, rows = before ++ row :: after ∧
    (∀ other ∈ before, row.stackRemaining < other.stackRemaining) ∧
    ∀ other ∈ after, row.stackRemaining ≤ other.stackRemaining

def Unshared (rows : List Row) : Prop := ∀ row ∈ rows, row.share = .notAvailable

theorem percent?_eq_some {share : CpuShare} {value : Binary64} :
    share.percent? = some value ↔ share = .percent value := by
  cases share <;> simp [CpuShare.percent?]

theorem percent?_eq_none {share : CpuShare} : share.percent? = none ↔ share = .notAvailable := by
  cases share <;> simp [CpuShare.percent?]

def shared (rows : List Row) : List (Row × Binary64) :=
  rows.filterMap fun row => row.share.percent?.map fun share => (row, share)

theorem mem_shared {rows : List Row} {row : Row} {value : Binary64} :
    (row, value) ∈ shared rows ↔ row ∈ rows ∧ row.share = .percent value := by
  simp only [shared, List.mem_filterMap, Option.map_eq_some_iff, percent?_eq_some]
  grind

/-- A row with a share is in its place among those that have one. -/
theorem shared_split_iff {rows : List Row} {row : Row} {share : Binary64}
    {front back : List (Row × Binary64)} :
    shared rows = front ++ (row, share) :: back ↔
      ∃ before after, rows = before ++ row :: after ∧ row.share = .percent share ∧
        shared before = front ∧ shared after = back := by
  constructor
  · intro split
    obtain ⟨early, late, rfl, rfl, rest⟩ := List.filterMap_eq_append_iff.mp split
    obtain ⟨without, same, after, rfl, none, found, rfl⟩ := List.filterMap_eq_cons_iff.mp rest
    simp only [Option.map_eq_some_iff, percent?_eq_some, Prod.mk.injEq] at found
    obtain ⟨_, found, rfl, rfl⟩ := found
    refine ⟨early ++ without, after, by simp, found, ?_, rfl⟩
    rw [shared, List.filterMap_append, List.filterMap_eq_nil_iff.mpr none, List.append_nil]
  · rintro ⟨before, after, rfl, found, rfl, rfl⟩
    simp [shared, found, CpuShare.percent?]

theorem chosen_shared_iff {rows : List Row} {row : Row} {share : Binary64} :
    Chosen (fun x y => y.2.orderKey < x.2.orderKey) (shared rows) (row, share) ↔
      ∃ before after, rows = before ++ row :: after ∧ row.share = .percent share ∧
        (∀ other ∈ before, ∀ value, other.share = .percent value → TotalLE value share) ∧
        ∀ other ∈ after, ∀ value, other.share = .percent value → ¬ TotalLE share value := by
  simp only [Chosen, shared_split_iff, ← Number.Binary64.orderKey_le_iff, Int.not_le, Int.not_lt]
  constructor
  · rintro ⟨_, _, ⟨before, after, rfl, found, rfl, rfl⟩, earlier, later⟩
    exact ⟨before, after, rfl, found,
      fun other member value has => earlier (other, value) (mem_shared.mpr ⟨member, has⟩),
      fun other member value has => later (other, value) (mem_shared.mpr ⟨member, has⟩)⟩
  · rintro ⟨before, after, rfl, found, earlier, later⟩
    refine ⟨_, _, ⟨before, after, rfl, found, rfl, rfl⟩, ?_, ?_⟩
    · rintro ⟨other, value⟩ member
      obtain ⟨member, has⟩ := mem_shared.mp member
      exact earlier other member value has
    · rintro ⟨other, value⟩ member
      obtain ⟨member, has⟩ := mem_shared.mp member
      exact later other member value has

namespace Report

theorem busiest_eq_some_iff {report : Report} {row : Row} :
    report.busiest = some row ↔ Busiest report.rows row := by
  have picks := lastMax?_picks fun entry : Row × Binary64 => entry.2.orderKey
  constructor
  · intro found
    obtain ⟨⟨_, share⟩, picked, rfl⟩ := Option.map_eq_some_iff.mp found
    exact ⟨share, chosen_shared_iff.mp (picks.chosen picked)⟩
  · rintro ⟨share, chosen⟩
    exact Option.map_eq_some_iff.mpr
      ⟨(row, share), picks.found (chosen_shared_iff.mpr chosen), rfl⟩

theorem busiest_eq_none_iff {report : Report} :
    report.busiest = none ↔ Unshared report.rows := by
  have picks := lastMax?_picks fun entry : Row × Binary64 => entry.2.orderKey
  rw [busiest, Option.map_eq_none_iff, picks.eq_none_iff, List.filterMap_eq_nil_iff]
  simp [Unshared, percent?_eq_none]

theorem lowestStack_eq_some_iff {report : Report} {row : Row} :
    report.lowestStack = some row ↔ LowestStack report.rows row := by
  rw [lowestStack, (firstMin?_picks _).eq_some_iff]
  simp [Chosen, LowestStack, UInt32.le_iff_toNat_le, UInt32.lt_iff_toNat_lt]

theorem lowestStack_eq_none_iff {report : Report} : report.lowestStack = none ↔ report.rows = [] :=
  (firstMin?_picks _).eq_none_iff

end Report

/-! ## Ties -/

def Numbered (rows : List Row) : Prop :=
  rows.Pairwise fun first second => first.number < second.number

theorem Snapshot.numbered_normalize (snapshot : Snapshot) : Numbered snapshot.normalize.rows :=
  List.pairwise_map.mpr (ascending_latest snapshot.tasks)

theorem Numbered.around {before after : List Row} {row : Row}
    (numbered : Numbered (before ++ row :: after)) :
    (∀ other ∈ before, other.number < row.number) ∧ ∀ other ∈ after, row.number < other.number := by
  obtain ⟨_, rest, across⟩ := List.pairwise_append.mp numbered
  exact ⟨fun other member => across other member row List.mem_cons_self,
    (List.pairwise_cons.mp rest).1⟩

theorem Busiest.highest {rows : List Row} {row : Row} (numbered : Numbered rows)
    (busiest : Busiest rows row) :
    ∀ other ∈ rows, other.share = row.share → other.number ≤ row.number := by
  obtain ⟨share, before, after, rfl, found, _, later⟩ := busiest
  intro other member same
  rcases List.mem_append.mp member with member | member
  · exact UInt32.le_of_lt (numbered.around.1 other member)
  · rcases List.mem_cons.mp member with rfl | member
    · exact UInt32.le_refl _
    · exact absurd (refl share) (later other member share (same.trans found))

theorem LowestStack.lowest {rows : List Row} {row : Row} (numbered : Numbered rows)
    (lowestStack : LowestStack rows row) :
    ∀ other ∈ rows, other.stackRemaining = row.stackRemaining → row.number ≤ other.number := by
  obtain ⟨before, after, rfl, earlier, _⟩ := lowestStack
  intro other member same
  rcases List.mem_append.mp member with member | member
  · exact absurd (same ▸ earlier other member) (UInt32.lt_irrefl _)
  · rcases List.mem_cons.mp member with rfl | member
    · exact UInt32.le_refl _
    · exact UInt32.le_of_lt (numbered.around.2 other member)

/-! ## The summary -/

def TellsBusiest (rows : List Row) (text : List Char) : Prop :=
  Unshared rows ∧ text = [] ∨ ∃ row, Busiest rows row ∧
    text = s!", busiest {row.name} (".toList ++ row.share.text ++ "%)".toList

def TellsLowestStack (rows : List Row) (text : List Char) : Prop :=
  rows = [] ∧ text = [] ∨ ∃ row, LowestStack rows row ∧
    text = s!", lowest stack {row.name} ({row.stackRemaining})".toList

def runningCount (rows : List Row) : Nat := (rows.filter (·.state = .running)).length

/-- The line that counts the rows and the running ones, and names the two that stand out. -/
def Summarizes (rows : List Row) (runTime : UInt64) (text : List Char) : Prop :=
  ∃ busiest lowestStack, TellsBusiest rows busiest ∧ TellsLowestStack rows lowestStack ∧
    text = s!"{rows.length} tasks ({runningCount rows} running), run time {runTime}".toList ++
      busiest ++ lowestStack

namespace Report

theorem running_eq (report : Report) : report.running = runningCount report.rows :=
  List.countP_eq_length_filter

theorem summarizes_summary (report : Report) :
    Summarizes report.rows report.runTime report.summary := by
  refine ⟨_, _, ?_, ?_, by rw [summary, running_eq]⟩
  · cases found : report.busiest with
    | none => exact .inl ⟨busiest_eq_none_iff.mp found, rfl⟩
    | some row => exact .inr ⟨row, busiest_eq_some_iff.mp found, rfl⟩
  · cases found : report.lowestStack with
    | none => exact .inl ⟨lowestStack_eq_none_iff.mp found, rfl⟩
    | some row => exact .inr ⟨row, lowestStack_eq_some_iff.mp found, rfl⟩

/-- The busiest row is the last one of those with the greatest share in the total order of doubles,
and the row with the lowest stack the first one of those with the least; there is none only if no
row has a share, or there are no rows. In a normalized report equal shares go to the highest task
number and equal stacks to the lowest. The summary names these rows and counts the running ones. -/
theorem extremes (report : Report) :
    (report.busiest = none ↔ Unshared report.rows) ∧
      (∀ row, report.busiest = some row ↔ Busiest report.rows row) ∧
      (report.lowestStack = none ↔ report.rows = []) ∧
      (∀ row, report.lowestStack = some row ↔ LowestStack report.rows row) ∧
      (∀ x y, TotalLE x y ↔ x.signedKey ≤ y.signedKey) ∧
      (∀ snapshot : Snapshot, report = snapshot.normalize →
        (∀ row, report.busiest = some row →
          ∀ other ∈ report.rows, other.share = row.share → other.number ≤ row.number) ∧
        ∀ row, report.lowestStack = some row → ∀ other ∈ report.rows,
          other.stackRemaining = row.stackRemaining → row.number ≤ other.number) ∧
      Summarizes report.rows report.runTime report.summary := by
  refine ⟨busiest_eq_none_iff, fun _ => busiest_eq_some_iff, lowestStack_eq_none_iff,
    fun _ => lowestStack_eq_some_iff, fun _ _ => Number.Binary64.totalLE_iff_signedKey, ?_,
    report.summarizes_summary⟩
  rintro snapshot rfl
  have numbered := snapshot.numbered_normalize
  exact ⟨fun row found => (busiest_eq_some_iff.mp found).highest numbered,
    fun row found => (lowestStack_eq_some_iff.mp found).lowest numbered⟩

/-- Two tasks with the same counters, the one with the higher number first. -/
def drawn : Snapshot :=
  { tasks :=
      [⟨3, "three", .running, .unpinned, 1, 50, 9⟩, ⟨1, "one", .running, .unpinned, 1, 50, 9⟩]
    runTime := 100 }

theorem extremes_drawn :
    (drawn.normalize.busiest.map (·.number) = some 3 ∧
      ∀ row, drawn.normalize.busiest = some row → Busiest drawn.normalize.rows row ∧
        ∀ other ∈ drawn.normalize.rows, other.share = row.share → other.number ≤ row.number) ∧
      (drawn.normalize.lowestStack.map (·.number) = some 1 ∧
        ∀ row, drawn.normalize.lowestStack = some row → LowestStack drawn.normalize.rows row ∧
          ∀ other ∈ drawn.normalize.rows,
            other.stackRemaining = row.stackRemaining → row.number ≤ other.number) ∧
      runningCount drawn.normalize.rows = 2 ∧
      Summarizes drawn.normalize.rows drawn.normalize.runTime drawn.normalize.summary := by
  obtain ⟨_, busiest, _, lowestStack, _, ties, summary⟩ := drawn.normalize.extremes
  obtain ⟨highest, lowest⟩ := ties drawn rfl
  exact ⟨⟨by decide +kernel, fun row found => ⟨(busiest row).mp found, highest row found⟩⟩,
    ⟨by decide +kernel, fun row found => ⟨(lowestStack row).mp found, lowest row found⟩⟩,
    by decide +kernel, summary⟩

end Report

end TaskMonitor
