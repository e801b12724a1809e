import TaskMonitor.Proofs.Json.Double
import TaskMonitor.Proofs.Json.Indented
import TaskMonitor.Proofs.Report.Table
import TaskMonitor.Report.Listing

/-! The table and the document of a report beside each other. A reader finds in the document what
the cells of the table show, and what is cut out of the printed lines at their places. -/

set_option autoImplicit false

namespace TaskMonitor

open Json (Accepts Indents Layout Slot Suits Tree IntegerForm ListForm OptionForm TextForm
  accepts_uint32 accepts_uint64 held_full indents_integer indents_text)

def CpuShare.Finite (share : CpuShare) : Prop := ∀ x ∈ share.percent?, x.Finite

namespace Listing

/-! ## Readers -/

/-- A row as its document has it. Of the share only counts whether there is one. -/
structure Entry where
  number : UInt32
  name : String
  state : String
  core : String
  priority : UInt32
  runTime : UInt64
  share : Option Unit
  stackRemaining : UInt32
  deriving DecidableEq, Repr

structure EntryParts where
  number : Option UInt32 := none
  name : Option String := none
  state : Option String := none
  core : Option String := none
  priority : Option UInt32 := none
  runTime : Option UInt64 := none
  share : Option (Option Unit) := none
  stackRemaining : Option UInt32 := none

def Entry.record : Json.Record EntryParts Entry where
  fields :=
    [⟨"number", fun parts => return { parts with number := ← Json.present Json.uint32 }⟩,
     ⟨"name", fun parts => return { parts with name := ← Json.present Json.text }⟩,
     ⟨"state_label", fun parts => return { parts with state := ← Json.present Json.text }⟩,
     ⟨"core_label", fun parts => return { parts with core := ← Json.present Json.text }⟩,
     ⟨"prio", fun parts => return { parts with priority := ← Json.present Json.uint32 }⟩,
     ⟨"rtc", fun parts => return { parts with runTime := ← Json.present Json.uint64 }⟩,
     ⟨"cpu_share",
      fun parts => return { parts with share := ← Json.present (Json.nullable Json.ignored) }⟩,
     ⟨"stack_remaining",
      fun parts => return { parts with stackRemaining := ← Json.present Json.uint32 }⟩]
  start := {}
  finish := fun parts => return {
    number := ← parts.number
    name := ← parts.name
    state := ← parts.state
    core := ← parts.core
    priority := ← parts.priority
    runTime := ← parts.runTime
    share := ← parts.share
    stackRemaining := ← parts.stackRemaining }

def Entry.reader : Json.Reader Entry := Entry.record.read

end Listing

/-- A report as its document has it. -/
structure Listing where
  rows : List Listing.Entry
  runTime : UInt64
  deriving DecidableEq, Repr

namespace Listing

structure Parts where
  rows : Option (List Entry) := none
  runTime : Option UInt64 := none

def record : Json.Record Parts Listing where
  fields :=
    [⟨"rows", fun parts => return { parts with rows := ← Json.present (Json.list Entry.reader) }⟩,
     ⟨"run_time", fun parts => return { parts with runTime := ← Json.present Json.uint64 }⟩]
  start := {}
  finish := fun parts => return ⟨← parts.rows, ← parts.runTime⟩

def reader : Json.Reader Listing := record.read

/-! ## Layouts -/

def Entry.slots (entry : Entry) : List Slot :=
  [⟨"number", IntegerForm entry.number.toNat, False⟩,
   ⟨"name", TextForm entry.name, False⟩,
   ⟨"state_label", TextForm entry.state, False⟩,
   ⟨"core_label", TextForm entry.core, False⟩,
   ⟨"prio", IntegerForm entry.priority.toNat, False⟩,
   ⟨"rtc", IntegerForm entry.runTime.toNat, False⟩,
   ⟨"cpu_share", OptionForm (fun _ tree => tree ≠ .null) entry.share, False⟩,
   ⟨"stack_remaining", IntegerForm entry.stackRemaining.toNat, False⟩]

def Entry.held (entry : Entry) (seen : List String) : EntryParts where
  number := Json.held seen "number" (some entry.number) none
  name := Json.held seen "name" (some entry.name) none
  state := Json.held seen "state_label" (some entry.state) none
  core := Json.held seen "core_label" (some entry.core) none
  priority := Json.held seen "prio" (some entry.priority) none
  runTime := Json.held seen "rtc" (some entry.runTime) none
  share := Json.held seen "cpu_share" (some entry.share) none
  stackRemaining := Json.held seen "stack_remaining" (some entry.stackRemaining) none

theorem accepts_share {share : Option Unit} {tree : Tree}
    (form : OptionForm (fun _ tree => tree ≠ .null) share tree) :
    Accepts (Json.nullable Json.ignored) tree share :=
  form.accepts fun given => ⟨given, Json.ignored_tree _⟩

theorem Entry.layout (entry : Entry) : Layout Entry.record entry.slots entry entry.held where
  start := rfl
  field := by
    refine .cons ⟨rfl, fun _ _ _ form => (accepts_uint32 form).present.put _ (by simp [held])⟩ ?_
    refine .cons ⟨rfl, fun _ _ _ form => form.accepts.present.put _ (by simp [held])⟩ ?_
    refine .cons ⟨rfl, fun _ _ _ form => form.accepts.present.put _ (by simp [held])⟩ ?_
    refine .cons ⟨rfl, fun _ _ _ form => form.accepts.present.put _ (by simp [held])⟩ ?_
    refine .cons ⟨rfl, fun _ _ _ form => (accepts_uint32 form).present.put _ (by simp [held])⟩ ?_
    refine .cons ⟨rfl, fun _ _ _ form => (accepts_uint64 form).present.put _ (by simp [held])⟩ ?_
    refine .cons ⟨rfl, fun _ _ _ form => (accepts_share form).present.put _ (by simp [held])⟩ ?_
    refine .cons ⟨rfl, fun _ _ _ form => (accepts_uint32 form).present.put _ (by simp [held])⟩ ?_
    exact .nil
  finish := by
    intro seen full
    simp only [slots, List.forall_mem_cons, false_or] at full
    obtain ⟨number, name, state, core, priority, runTime, share, stack, _⟩ := full
    simp only [held, held_full (.inr number), held_full (.inr name), held_full (.inr state),
      held_full (.inr core), held_full (.inr priority), held_full (.inr runTime),
      held_full (.inr share), held_full (.inr stack)]
    rfl

def slots (listing : Listing) : List Slot :=
  [⟨"rows", ListForm (fun entry => Tree.Fills entry.slots) listing.rows, False⟩,
   ⟨"run_time", IntegerForm listing.runTime.toNat, False⟩]

def held (listing : Listing) (seen : List String) : Parts where
  rows := Json.held seen "rows" (some listing.rows) none
  runTime := Json.held seen "run_time" (some listing.runTime) none

theorem layout (listing : Listing) : Layout record listing.slots listing listing.held where
  start := rfl
  field := by
    refine .cons ⟨rfl, fun _ _ _ form => ?_⟩ ?_
    · have rows := form.accepts fun {entry} _ fills => entry.layout.accepts fills
      exact rows.present.put _ (by simp [held])
    refine .cons ⟨rfl, fun _ _ _ form => (accepts_uint64 form).present.put _ (by simp [held])⟩ ?_
    exact .nil
  finish := by
    intro seen full
    simp only [slots, List.forall_mem_cons, false_or] at full
    obtain ⟨rows, runTime, _⟩ := full
    simp only [held, held_full (.inr rows), held_full (.inr runTime)]
    rfl

/-! ## Rows and their documents -/

def Entry.ofRow (row : Row) : Entry where
  number := row.number
  name := row.name
  state := row.stateLabel
  core := row.coreLabel
  priority := row.priority
  runTime := row.runTime
  share := row.share.percent?.map fun _ => ()
  stackRemaining := row.stackRemaining

def ofReport (report : Report) : Listing := ⟨report.rows.map Entry.ofRow, report.runTime⟩

theorem indents_share {depth : Nat} {share : CpuShare} (finite : share.Finite) :
    Indents depth share.document
      (OptionForm (fun _ tree => tree ≠ .null) (share.percent?.map fun _ => ())) := by
  cases share with
  | notAvailable => exact Json.indents_null
  | percent x =>
    obtain ⟨decimal, bytes⟩ := Json.real_finite (finite x rfl)
    exact ⟨.number decimal, nofun, bytes⟩

theorem indents_row {depth : Nat} {row : Row} (finite : row.share.Finite) :
    Indents depth row.document (Tree.Fills (Entry.ofRow row).slots) := by
  refine Json.indents_object ?_ (by simp) (by simp [Entry.slots])
  simp only [List.forall_mem_cons]
  refine ⟨?_, ?_, ?_, ?_, ?_, ?_, ?_, ?_, by simp⟩
  · exact (indents_integer _).suits (by simp [Entry.slots, Entry.ofRow])
  · exact (indents_text _).suits (by simp [Entry.slots, Entry.ofRow])
  · exact (indents_text _).suits (by simp [Entry.slots, Entry.ofRow])
  · exact (indents_text _).suits (by simp [Entry.slots, Entry.ofRow])
  · exact (indents_integer _).suits (by simp [Entry.slots, Entry.ofRow])
  · exact (indents_integer _).suits (by simp [Entry.slots, Entry.ofRow])
  · exact (indents_share finite).suits (by simp [Entry.slots, Entry.ofRow])
  · exact (indents_integer _).suits (by simp [Entry.slots, Entry.ofRow])

theorem indents_rows {depth : Nat} {rows : List Row}
    (finite : ∀ row ∈ rows, row.share.Finite) :
    Indents depth (.list (rows.map (·.document)))
      (ListForm (fun entry => Tree.Fills entry.slots) (rows.map Entry.ofRow)) := by
  have each : ∀ row ∈ rows,
      Indents (depth + 1) row.document (Tree.Fills (Entry.ofRow row).slots) :=
    fun row member => indents_row (finite row member)
  obtain ⟨tree, ⟨inner, elements, shape, pairs⟩, bytes⟩ := Json.indents_list each
  exact ⟨tree, ⟨inner, elements, shape, List.forall₂_map_left_iff.mpr pairs⟩, bytes⟩

/-- The count of dropped entries is not looked at. -/
theorem indents_report {depth : Nat} {report : Report}
    (finite : ∀ row ∈ report.rows, row.share.Finite) :
    Indents depth report.document (Tree.Fills (ofReport report).slots) := by
  refine Json.indents_object ?_ (by simp) (by simp [slots])
  simp only [List.forall_mem_cons]
  refine ⟨?_, ?_, ?_, by simp⟩
  · exact (indents_rows finite).suits (by simp [slots, ofReport])
  · exact (indents_integer _).suits (by simp [slots, ofReport])
  · exact (indents_integer _).suits (by simp [slots])

theorem read_json {report : Report}
    (finite : ∀ row ∈ report.rows, row.share.Finite) :
    Json.read reader (Utf8.encode report.json) = .ok (ofReport report) := by
  have indents : Indents 0 report.document _ := indents_report finite
  obtain ⟨tree, fills, bytes⟩ := indents
  have found := ((ofReport report).layout.accepts fills).read .none (.line 0)
  rw [bytes, ← Json.encode_newLine, ← Utf8.encode_append] at found
  exact found

/-! ## Cells -/

/-- The cells that an entry makes, each under its title. The share has its cell apart. -/
def Entry.cells (entry : Entry) : List (String × List Char) :=
  [("#", Number.digits entry.number.toNat),
   ("Name", entry.name.toList),
   ("State", entry.state.toList),
   ("CorePin", entry.core.toList),
   ("Prio", Number.digits entry.priority.toNat),
   ("Run Time", Number.digits entry.runTime.toNat),
   ("Stack Rem.", Number.digits entry.stackRemaining.toNat)]

structure Shows (entry : Entry) (row : Row) : Prop where
  cells : (Table.columns.filter (·.title ≠ "Run %")).map
    (fun column => (column.title, column.cell row)) = entry.cells
  share : ∀ column ∈ Table.columns, column.title = "Run %" →
    (entry.share = none ↔ column.cell row = "n/a".toList)

/-- A line of the table shows what an entry holds. At the place of each column stands the text of the
entry in the width of the column, and `n/a` if the entry has no share. -/
structure Printed (rows : List Row) (entry : Entry) (line : List Char) : Prop where
  cells : ∀ before column width after, Table.layout rows = before ++ (column, width) :: after →
    column.title ≠ "Run %" → ∃ text, (column.title, text) ∈ entry.cells ∧ text.length ≤ width ∧
      Table.slice line (Table.place before) width = Table.pad column.side width text
  share : ∀ before column width after, Table.layout rows = before ++ (column, width) :: after →
    column.title = "Run %" →
      (entry.share = none ↔
        Table.slice line (Table.place before) width = Table.pad column.side width "n/a".toList)

theorem point_mem_fixed {x : Number.Binary64} (finite : x.Finite) (places : Nat) :
    '.' ∈ Number.fixed places x := by
  obtain ⟨negative, significand, exponent, value⟩ := finite
  rw [Number.fixed, value]
  cases negative <;> simp [Number.withPoint]

/-- The digits of a share that is a number have a point among them, whatever its sign and size. -/
theorem share_cases {share : CpuShare} (finite : share.Finite) :
    share.percent? = none ∧ share.text = "n/a".toList ∨
      share.percent? ≠ none ∧ '.' ∈ share.text := by
  cases share with
  | notAvailable => exact .inl ⟨rfl, rfl⟩
  | percent x => exact .inr ⟨nofun, point_mem_fixed (finite x rfl) 1⟩

theorem shows_ofRow {row : Row} (finite : row.share.Finite) :
    Shows (Entry.ofRow row) row where
  cells := rfl
  share := by
    have share : row.share.percent? = none ↔ row.share.text = "n/a".toList := by
      rcases share_cases finite with ⟨none, text⟩ | ⟨some, point⟩
      · exact iff_of_true none text
      · refine iff_of_false some fun text => ?_
        rw [text] at point
        exact absurd point (by decide)
    simpa [Table.columns, Entry.ofRow] using share

theorem mem_columns {rows : List Row} {before after : List (Table.Column × Nat)}
    {column : Table.Column} {width : Nat}
    (split : Table.layout rows = before ++ (column, width) :: after) : column ∈ Table.columns := by
  have member : (column, width) ∈ Table.layout rows := by simp [split]
  obtain ⟨_, known, same⟩ := List.mem_map.mp member
  exact (Prod.mk.inj same).1 ▸ known

theorem cell_share {column : Table.Column} (known : column ∈ Table.columns)
    (title : column.title = "Run %") (row : Row) : column.cell row = row.share.text := by
  simp only [Table.columns, List.mem_cons, List.not_mem_nil, or_false] at known
  rcases known with rfl | rfl | rfl | rfl | rfl | rfl | rfl | rfl <;> first | rfl | simp at title

theorem printed_ofRow {rows : List Row} {row : Row} (present : row ∈ rows)
    (finite : row.share.Finite) :
    Printed rows (Entry.ofRow row) (Table.line (Table.layout rows) (·.cell row)) where
  cells := by
    intro before column width after split other
    have aligned := Table.aligned_line (Table.mem_cells present)
    obtain ⟨fits, shown⟩ := aligned.cells before (column, width) after split
    refine ⟨column.cell row, ?_, fits, shown⟩
    rw [← (shows_ofRow finite).cells]
    exact List.mem_map.mpr
      ⟨column, List.mem_filter.mpr ⟨mem_columns split, by simpa using other⟩, rfl⟩
  share := by
    intro before column width after split title
    have aligned := Table.aligned_line (Table.mem_cells present)
    obtain ⟨_, shown⟩ := aligned.cells before (column, width) after split
    have cell := cell_share (mem_columns split) title row
    rw [shown, Table.field, cell]
    have absent : (Entry.ofRow row).share = none ↔ row.share.percent? = none :=
      Option.map_eq_none_iff
    rw [absent]
    rcases share_cases finite with ⟨none, text⟩ | ⟨some, point⟩
    · exact iff_of_true none (by rw [text])
    · refine iff_of_false some fun same => ?_
      have inside := Table.subset_pad column.side width _ point
      rw [same] at inside
      exact (Table.mem_pad inside).elim (by decide) (by decide)

end Listing

/-- What is read back from the document of a report is what its table shows, row by row and in the
footer, and what is cut out of the lines of the rows. -/
theorem Report.json_shows_table (report : Report)
    (finite : ∀ row ∈ report.rows, row.share.Finite) :
    ∃ listing, Json.read Listing.reader (Utf8.encode report.json) = .ok listing ∧
      List.Forall₂ Listing.Shows listing.rows report.rows ∧
      (∀ index entry, listing.rows[index]? = some entry →
        Listing.Printed report.rows entry (Table.rowLine report index)) ∧
      let body := report.rows.map fun row => Table.line (Table.layout report.rows) (·.cell row)
      let footer := "total run time: ".toList ++ Number.digits listing.runTime.toNat
      ∃ title header rule, report.table =
        (title :: header :: rule :: body ++ [footer]).flatMap (· ++ ['\n']) := by
  refine ⟨.ofReport report, Listing.read_json finite, ?_, fun index entry found => ?_, _, _, _, rfl⟩
  · exact List.forall₂_map_left_iff.mpr
      (List.forall₂_same.mpr fun row member => Listing.shows_ofRow (finite row member))
  · simp only [Listing.ofReport, List.getElem?_map, Option.map_eq_some_iff] at found
    obtain ⟨row, found, rfl⟩ := found
    have present := List.mem_of_getElem? found
    rw [Table.rowLine_eq found]
    exact Listing.printed_ofRow present (finite row present)

/-- A name that needs escapes, a counter at its limit and a row without a share. -/
theorem Report.json_shows_table_escaped :
    let first : Row :=
      { number := 1, name := "a\"\\\n\x01é", state := .running, stateLabel := "running",
        core := .unpinned, coreLabel := "NO PIN", priority := 0xFFFFFFFF,
        runTime := 0xFFFFFFFFFFFFFFFF, share := .percent ⟨0x4024000000000000⟩,
        stackRemaining := 0 }
    let report : Report := ⟨[first, { first with number := 2, share := .notAvailable }], 7, 0⟩
    (∀ row ∈ report.rows, row.share.Finite) ∧
    ∃ listing, Json.read Listing.reader (Utf8.encode report.json) = .ok listing ∧
      List.Forall₂ Listing.Shows listing.rows report.rows ∧
      (∀ index entry, listing.rows[index]? = some entry →
        Listing.Printed report.rows entry (Table.rowLine report index)) ∧
      let body := report.rows.map fun row => Table.line (Table.layout report.rows) (·.cell row)
      let footer := "total run time: ".toList ++ Number.digits listing.runTime.toNat
      ∃ title header rule, report.table =
        (title :: header :: rule :: body ++ [footer]).flatMap (· ++ ['\n']) := by
  intro first report
  have finite : ∀ row ∈ report.rows, row.share.Finite := by
    refine List.forall_mem_cons.mpr ⟨?_, List.forall_mem_singleton.mpr nofun⟩
    rintro _ ⟨⟩
    exact ⟨_, _, _, rfl⟩
  exact ⟨finite, Report.json_shows_table report finite⟩

end TaskMonitor
