import Mathlib.Algebra.GroupWithZero.Nat
import Mathlib.Data.List.Basic
import Mathlib.Data.List.Induction
import Mathlib.Order.Bounds.Defs
import TaskMonitor.Proofs.Json.Pretty
import TaskMonitor.Report.Table

/-! The layout of the table. Every line is as long as the rule, and each cell stands whole at the
place of its column, whatever characters are in it. -/

set_option autoImplicit false

namespace TaskMonitor

namespace Text

theorem trimEnd_concat (text : List Char) {c : Char} (solid : ¬ isBlank c) :
    trimEnd (text ++ [c]) = text ++ [c] := by
  rw [trimEnd, List.reverse_concat, List.dropWhile_cons_of_neg solid, List.reverse_cons,
    List.reverse_reverse]

theorem digit_solid {c : Char} (digit : c.isDigit) : ¬ isBlank c := by
  have apart : ∀ point ∈ blankPoints, point < '0'.toNat ∨ '9'.toNat < point := by decide
  have range := Char.isDigit_iff_toNat.mp digit
  intro blank
  have outside := apart c.toNat (List.contains_iff_mem.mp blank)
  omega

end Text

namespace Table

/-! ## Widths -/

def Column.lengths (column : Column) (rows : List Row) : Set Nat :=
  {length | length = column.title.length ∨ ∃ row ∈ rows, length = (column.cell row).length}

theorem Column.width_concat (column : Column) (rows : List Row) (row : Row) :
    column.width (rows ++ [row]) = max (column.width rows) (column.cell row).length := by
  simp [width]

theorem Column.width_isGreatest (column : Column) (rows : List Row) :
    IsGreatest (column.lengths rows) (column.width rows) := by
  -- From the back, since the width of more rows is a maximum with that of the last.
  induction rows using List.reverseRecOn with
  | nil =>
    refine ⟨.inl rfl, ?_⟩
    rintro _ (rfl | ⟨_, member, _⟩)
    · exact Nat.le_refl _
    · cases member
  | append_singleton rows row ih =>
    obtain ⟨found, most⟩ := ih
    rw [width_concat]
    constructor
    · rcases Nat.le_total (column.cell row).length (column.width rows) with short | long
      · rw [Nat.max_eq_left short]
        refine found.imp_right ?_
        rintro ⟨other, member, same⟩
        exact ⟨other, List.mem_append_left _ member, same⟩
      · rw [Nat.max_eq_right long]
        exact .inr ⟨row, by simp, rfl⟩
    · rintro _ (rfl | ⟨other, member, rfl⟩)
      · exact Nat.le_trans (most (.inl rfl)) (Nat.le_max_left _ _)
      · rcases List.mem_append.mp member with earlier | same
        · exact Nat.le_trans (most (.inr ⟨other, earlier, rfl⟩)) (Nat.le_max_left _ _)
        · rw [List.mem_singleton.mp same]
          exact Nat.le_max_right _ _

/-! ## Cells in a line -/

/-- A cell in the width of its column. -/
def field (cell : Column → List Char) (entry : Column × Nat) : List Char :=
  pad entry.1.side entry.2 (cell entry.1)

/-- A line before the blanks at its end are dropped. -/
def untrimmed (layout : List (Column × Nat)) (cell : Column → List Char) : List Char :=
  gap.intercalate (layout.map (field cell))

/-- The place behind columns with a gap after each. -/
def place (before : List (Column × Nat)) : Nat :=
  (before.map fun entry => entry.2 + gap.length).sum

def slice (text : List Char) (place length : Nat) : List Char := (text.drop place).take length

def Fits (layout : List (Column × Nat)) (cell : Column → List Char) : Prop :=
  ∀ entry ∈ layout, (cell entry.1).length ≤ entry.2

theorem length_field {cell : Column → List Char} {entry : Column × Nat}
    (fits : (cell entry.1).length ≤ entry.2) : (field cell entry).length = entry.2 := by
  unfold field pad
  cases entry.1.side with
  | left => simp [Nat.add_sub_cancel' fits]
  | right => simp [Nat.sub_add_cancel fits]

theorem length_fields {layout : List (Column × Nat)} {cell : Column → List Char}
    (fits : Fits layout cell) :
    ((layout.map (field cell)).flatMap (· ++ gap)).length = place layout := by
  induction layout with
  | nil => rfl
  | cons entry layout ih =>
    obtain ⟨own, others⟩ := List.forall_mem_cons.mp fits
    rw [List.map_cons, List.flatMap_cons, List.length_append, List.length_append, length_field own,
      ih others]
    rfl

theorem intercalate_split (before : List (List Char)) (part : List Char)
    (after : List (List Char)) :
    gap.intercalate (before ++ part :: after) =
      before.flatMap (· ++ gap) ++ (part ++ after.flatMap (gap ++ ·)) := by
  induction before with
  | nil =>
    induction after generalizing part with
    | nil => simp
    | cons next after ih => simpa [List.intercalate_cons_cons] using ih next
  | cons first before ih =>
    obtain ⟨second, others, shape⟩ := List.exists_cons_of_ne_nil
      (show before ++ part :: after ≠ [] by simp)
    rw [shape] at ih
    simp [shape, List.intercalate_cons_cons, ih]

theorem untrimmed_split {before after : List (Column × Nat)} {entry : Column × Nat}
    {cell : Column → List Char} (fits : Fits (before ++ entry :: after) cell) :
    ∃ front, front.length = place before ∧ untrimmed (before ++ entry :: after) cell =
      front ++ (field cell entry ++ (after.map (field cell)).flatMap (gap ++ ·)) := by
  refine ⟨(before.map (field cell)).flatMap (· ++ gap), ?_, ?_⟩
  · exact length_fields fun other member => fits other (List.mem_append_left _ member)
  · rw [untrimmed, List.map_append, List.map_cons, intercalate_split]

theorem place_eq (before : List (Column × Nat)) :
    place before = (before.map Prod.snd).sum + gap.length * before.length := by
  induction before with
  | nil => rfl
  | cons entry before ih =>
    simp only [place] at ih ⊢
    simp only [List.map_cons, List.sum_cons, ih, List.length_cons, Nat.mul_succ]
    omega

theorem ruleLength_eq (layout : List (Column × Nat)) :
    ruleLength layout = (layout.map Prod.snd).sum + gap.length * (layout.length - 1) := by
  rw [List.sum_eq_foldr, List.foldr_map]
  rfl

/-- A line in which each cell stands whole in its own place, with a gap between two. -/
structure Aligned (layout : List (Column × Nat)) (cell : Column → List Char) (line : List Char) :
    Prop where
  length : line.length = ruleLength layout
  cells : ∀ before entry after, layout = before ++ entry :: after →
    (cell entry.1).length ≤ entry.2 ∧ slice line (place before) entry.2 = field cell entry
  gaps : ∀ before entry after, layout = before ++ entry :: after → after ≠ [] →
    slice line (place before + entry.2) gap.length = gap

theorem length_untrimmed {layout : List (Column × Nat)} {cell : Column → List Char}
    (fits : Fits layout cell) : (untrimmed layout cell).length = ruleLength layout := by
  cases layout using List.reverseRecOn with
  | nil => rfl
  | append_singleton before entry =>
    have own := fits entry (by simp)
    obtain ⟨front, length, split⟩ := untrimmed_split fits
    rw [split, ruleLength_eq]
    simp only [List.map_append, List.map_cons, List.map_nil, List.flatMap_nil, List.append_nil,
      List.length_append, length, length_field own, place_eq, List.sum_append, List.sum_cons,
      List.sum_nil, List.length_cons, List.length_nil, Nat.add_sub_cancel]
    omega

theorem aligned_untrimmed {layout : List (Column × Nat)} {cell : Column → List Char}
    (fits : Fits layout cell) : Aligned layout cell (untrimmed layout cell) where
  length := length_untrimmed fits
  cells := by
    rintro before entry after rfl
    have own := fits entry (by simp)
    obtain ⟨front, length, split⟩ := untrimmed_split fits
    refine ⟨own, ?_⟩
    rw [slice, split, ← length, List.drop_left, ← length_field own, List.take_left]
  gaps := by
    rintro before entry after rfl more
    have own := fits entry (by simp)
    obtain ⟨front, length, split⟩ := untrimmed_split fits
    obtain ⟨next, others, rfl⟩ := List.exists_cons_of_ne_nil more
    rw [slice, split, ← length, ← length_field own, ← List.drop_drop, List.drop_left,
      List.drop_left, List.map_cons, List.flatMap_cons, List.append_assoc, List.take_left]

/-! ## The end of a line -/

/-- Nothing is dropped at the end of a line if the last cell, set to the right, ends in a character
that is not blank. -/
theorem line_eq_untrimmed {layout : List (Column × Nat)} {entry : Column × Nat}
    {cell : Column → List Char} (last : layout.getLast? = some entry)
    (right : entry.1.side = .right) {front : List Char} {c : Char}
    (ends : cell entry.1 = front ++ [c]) (solid : ¬ Text.isBlank c) :
    line layout cell = untrimmed layout cell := by
  obtain ⟨before, rfl⟩ := List.getLast?_eq_some_iff.mp last
  let fill := List.replicate (entry.2 - (cell entry.1).length) ' '
  have whole : untrimmed (before ++ [entry]) cell =
      (before.map (field cell)).flatMap (· ++ gap) ++ (fill ++ front) ++ [c] := by
    have own : field cell entry = fill ++ front ++ [c] := by
      simp only [field, pad, right, ends, fill, List.append_assoc]
    rw [untrimmed, List.map_append, List.map_singleton, intercalate_split, own]
    simp
  change Text.trimEnd (untrimmed _ _) = _
  rw [whole, Text.trimEnd_concat _ solid]

theorem getLast?_layout (rows : List Row) : ∃ entry, (layout rows).getLast? = some entry ∧
    entry.1.side = .right ∧ entry.1.title = "Stack Rem." ∧
      ∀ row, entry.1.cell row = Number.digits row.stackRemaining.toNat :=
  ⟨_, rfl, rfl, rfl, fun _ => rfl⟩

theorem digits_ends (n : Nat) : ∃ front c, Number.digits n = front ++ [c] ∧ ¬ Text.isBlank c := by
  have some : Number.digits n ≠ [] := Nat.toDigits_ne_nil
  refine ⟨_, _, (List.dropLast_append_getLast some).symm, Text.digit_solid ?_⟩
  exact Nat.isDigit_of_mem_toDigits (by decide) (by decide) (List.getLast_mem some)

theorem line_titles (rows : List Row) :
    line (layout rows) (·.title.toList) = untrimmed (layout rows) (·.title.toList) := by
  obtain ⟨entry, last, right, title, _⟩ := getLast?_layout rows
  have ends : entry.1.title.toList = "Stack Rem".toList ++ ['.'] := by rw [title]; rfl
  exact line_eq_untrimmed last right ends (by decide)

theorem line_row (rows : List Row) (row : Row) :
    line (layout rows) (·.cell row) = untrimmed (layout rows) (·.cell row) := by
  obtain ⟨entry, last, right, _, cell⟩ := getLast?_layout rows
  obtain ⟨front, c, ends, solid⟩ := digits_ends row.stackRemaining.toNat
  exact line_eq_untrimmed last right ((cell row).trans ends) solid

/-! ## Lines -/

theorem mem_pad {side : Side} {width : Nat} {text : List Char} {c : Char}
    (member : c ∈ pad side width text) : c = ' ' ∨ c ∈ text := by
  cases side with
  | left => exact (List.mem_append.mp member).symm.imp_left List.eq_of_mem_replicate
  | right => exact (List.mem_append.mp member).imp_left List.eq_of_mem_replicate

theorem subset_pad (side : Side) (width : Nat) (text : List Char) : text ⊆ pad side width text := by
  cases side with
  | left => exact List.subset_append_left _ _
  | right => exact List.subset_append_right _ _

theorem mem_untrimmed {layout : List (Column × Nat)} {cell : Column → List Char} {c : Char}
    (member : c ∈ untrimmed layout cell) : c = ' ' ∨ ∃ entry ∈ layout, c ∈ cell entry.1 := by
  cases layout with
  | nil => cases member
  | cons entry layout =>
    have split := intercalate_split [] (field cell entry) (layout.map (field cell))
    rw [untrimmed, List.map_cons, ← List.nil_append (_ :: _), split, List.flatMap_nil,
      List.nil_append] at member
    rcases List.mem_append.mp member with own | later
    · exact (mem_pad own).imp_right fun inside => ⟨entry, List.mem_cons_self, inside⟩
    · obtain ⟨_, part, inside⟩ := List.mem_flatMap.mp later
      obtain ⟨other, among, rfl⟩ := List.mem_map.mp part
      rcases List.mem_append.mp inside with blank | inside
      · exact .inl (List.eq_of_mem_replicate (n := 2) blank)
      · exact (mem_pad inside).imp_right fun inside =>
          ⟨other, List.mem_cons_of_mem _ among, inside⟩

theorem splitOn_lines {lines : List (List Char)} (single : ∀ line ∈ lines, '\n' ∉ line) :
    (lines.flatMap (· ++ ['\n'])).splitOn '\n' = lines ++ [[]] := by
  induction lines with
  | nil => rfl
  | cons line lines ih =>
    obtain ⟨own, others⟩ := List.forall_mem_cons.mp single
    rw [List.flatMap_cons, List.append_assoc, List.singleton_append,
      List.splitOn_append_cons_self_of_not_mem own, ih others, List.cons_append]

def cells (rows : List Row) : List (Column → List Char) :=
  (·.title.toList) :: rows.map fun row => (·.cell row)

theorem mem_cells {rows : List Row} {row : Row} (present : row ∈ rows) :
    (·.cell row) ∈ cells rows :=
  List.mem_cons_of_mem _ (List.mem_map.mpr ⟨row, present, rfl⟩)

theorem fits_cells {rows : List Row} {cell : Column → List Char} (among : cell ∈ cells rows) :
    Fits (layout rows) cell := by
  intro entry member
  obtain ⟨column, _, rfl⟩ := List.mem_map.mp member
  apply (column.width_isGreatest rows).2
  rcases List.mem_cons.mp among with rfl | body
  · exact .inl column.title.length_toList
  · obtain ⟨row, present, rfl⟩ := List.mem_map.mp body
    exact .inr ⟨row, present, rfl⟩

theorem line_cells {rows : List Row} {cell : Column → List Char} (among : cell ∈ cells rows) :
    line (layout rows) cell = untrimmed (layout rows) cell := by
  rcases List.mem_cons.mp among with rfl | body
  · exact line_titles rows
  · obtain ⟨row, _, rfl⟩ := List.mem_map.mp body
    exact line_row rows row

theorem aligned_line {rows : List Row} {cell : Column → List Char} (among : cell ∈ cells rows) :
    Aligned (layout rows) cell (line (layout rows) cell) := by
  rw [line_cells among]
  exact aligned_untrimmed (fits_cells among)

theorem lineFeed_not_mem_line {rows : List Row} {cell : Column → List Char}
    (among : cell ∈ cells rows) (single : ∀ column ∈ columns, '\n' ∉ cell column) :
    '\n' ∉ line (layout rows) cell := by
  rw [line_cells among]
  intro member
  rcases mem_untrimmed member with blank | ⟨entry, present, inside⟩
  · cases blank
  · obtain ⟨column, known, rfl⟩ := List.mem_map.mp present
    exact single column known inside

theorem lineFeed_not_mem_lines {report : Report}
    (single : ∀ row ∈ report.rows, ∀ column ∈ columns, '\n' ∉ column.cell row) :
    ∀ line ∈ lines report, '\n' ∉ line := by
  have header : '\n' ∉ line (layout report.rows) (·.title.toList) :=
    lineFeed_not_mem_line List.mem_cons_self (by decide)
  have body : ∀ row ∈ report.rows, '\n' ∉ line (layout report.rows) (·.cell row) := by
    intro row present
    exact lineFeed_not_mem_line (mem_cells present) (single row present)
  have footer := Json.lineFeed_not_mem_digits report.runTime.toNat
  simp only [lines, List.mem_append, List.mem_cons, List.mem_map, List.not_mem_nil, or_false]
  rintro _ ((rfl | rfl | rfl | ⟨row, present, rfl⟩) | rfl)
  · decide
  · exact header
  · simp [List.mem_replicate]
  · exact body row present
  · simp [footer]

/-! ## Lines by their places -/

theorem slice_line {length index : Nat} {lines : List (List Char)} {line : List Char}
    (even : ∀ line ∈ lines, line.length = length) (found : lines[index]? = some line)
    (front rest : List Char) :
    slice (front ++ (lines.flatMap (· ++ ['\n']) ++ rest))
      (front.length + index * (length + 1)) length = line := by
  induction lines generalizing index front with
  | nil => cases found
  | cons first lines ih =>
    obtain ⟨own, others⟩ := List.forall_mem_cons.mp even
    rw [List.flatMap_cons, List.append_assoc, List.append_assoc]
    cases index with
    | zero =>
      cases found
      rw [Nat.zero_mul, Nat.add_zero, slice, List.drop_left, ← own, List.take_left]
    | succ index =>
      have later := ih others found (front ++ (first ++ ['\n']))
      have place : (front ++ (first ++ ['\n'])).length + index * (length + 1) =
          front.length + (index + 1) * (length + 1) := by
        rw [Nat.succ_mul, List.length_append, List.length_append, own, List.length_singleton]
        omega
      rw [place] at later
      simpa using later

/-- The line of a row, cut out of the table. The title, the header and the rule stand before the
first one, and all lines but the title and the footer are as long as the rule. -/
def rowLine (report : Report) (index : Nat) : List Char :=
  let length := ruleLength (layout report.rows)
  slice report.table ("RTOS Tasks".length + 1 + (index + 2) * (length + 1)) length

theorem rowLine_eq {report : Report} {index : Nat} {row : Row}
    (found : report.rows[index]? = some row) :
    rowLine report index = line (layout report.rows) (·.cell row) := by
  let inner := line (layout report.rows) (·.title.toList) ::
    List.replicate (ruleLength (layout report.rows)) '-' ::
    report.rows.map fun row => line (layout report.rows) (·.cell row)
  let footer := "total run time: ".toList ++ Number.digits report.runTime.toNat
  have whole : report.table =
      "RTOS Tasks\n".toList ++ (inner.flatMap (· ++ ['\n']) ++ (footer ++ ['\n'])) := by
    simp [Report.table, lines, inner, footer]
  have even : ∀ line ∈ inner, line.length = ruleLength (layout report.rows) := by
    refine List.forall_mem_cons.mpr ⟨(aligned_line List.mem_cons_self).length, ?_⟩
    refine List.forall_mem_cons.mpr ⟨List.length_replicate, ?_⟩
    rintro _ member
    obtain ⟨row, present, rfl⟩ := List.mem_map.mp member
    exact (aligned_line (mem_cells present)).length
  have among : inner[index + 2]? = some (line (layout report.rows) (·.cell row)) := by
    simp [inner, found]
  rw [rowLine, whole]
  exact slice_line even among _ _

/-- Each column is as wide as its widest cell. The header and the lines of the rows are as long as
the rule, with each cell whole in its own place and two blanks between two cells; no blanks are
dropped at their ends. Without line feeds in cells, the lines of the table are the title, the
header, the rule, one for each row in order, and the total run time. -/
theorem table_aligned (report : Report) :
    let layout := layout report.rows
    let lines :=
      "RTOS Tasks".toList :: line layout (·.title.toList) ::
        List.replicate ((layout.map Prod.snd).sum + 14) '-' ::
        report.rows.map (fun row => line layout (·.cell row)) ++
        ["total run time: ".toList ++ Number.digits report.runTime.toNat]
    layout.map Prod.fst = columns ∧
    (∀ entry ∈ layout, IsGreatest (entry.1.lengths report.rows) entry.2) ∧
    ruleLength layout = (layout.map Prod.snd).sum + 14 ∧
    (∀ cell ∈ cells report.rows,
      line layout cell = untrimmed layout cell ∧ Aligned layout cell (line layout cell)) ∧
    report.table = lines.flatMap (· ++ ['\n']) ∧
    ((∀ row ∈ report.rows, ∀ column ∈ columns, '\n' ∉ column.cell row) →
      report.table.splitOn '\n' = lines ++ [[]] ∧ lines.length = report.rows.length + 4) := by
  have rule : ruleLength (layout report.rows) = ((layout report.rows).map Prod.snd).sum + 14 :=
    ruleLength_eq _
  have whole : lines report =
      "RTOS Tasks".toList :: line (layout report.rows) (·.title.toList) ::
        List.replicate (((layout report.rows).map Prod.snd).sum + 14) '-' ::
        report.rows.map (fun row => line (layout report.rows) (·.cell row)) ++
        ["total run time: ".toList ++ Number.digits report.runTime.toNat] := by
    rw [← rule]
    rfl
  refine ⟨rfl, ?_, rule, ?_, ?_, ?_⟩
  · intro entry member
    obtain ⟨column, _, rfl⟩ := List.mem_map.mp member
    exact column.width_isGreatest report.rows
  · exact fun cell among => ⟨line_cells among, aligned_line among⟩
  · rw [← whole]
    rfl
  · intro single
    refine ⟨?_, by simp⟩
    rw [← whole]
    exact splitOn_lines (lineFeed_not_mem_lines single)

/-- A name of characters of several bytes with a blank in it, wider than the title of its column,
and an empty one. -/
theorem table_aligned_wide :
    let report : Report :=
      { rows :=
          [⟨7, "Δt ≤ µ🌡", .unknown 9, "unknown", .unpinned, "NO PIN", 3, 40, .notAvailable, 128⟩,
           ⟨12, "", .ready, "ready", .core 0, "0", 10, 9, .notAvailable, 5⟩]
        runTime := 0
        dropped := 0 }
    (∀ row ∈ report.rows, ∀ column ∈ columns, '\n' ∉ column.cell row) ∧
      report.table.splitOn '\n' =
        ["RTOS Tasks",
         " #  Name     State    CorePin  Prio  Run Time  Run %  Stack Rem.",
         "----------------------------------------------------------------",
         " 7  Δt ≤ µ🌡  unknown  NO PIN      3        40    n/a         128",
         "12           ready    0          10         9    n/a           5",
         "total run time: 0",
         ""].map (·.toList) := by
  intro report
  have single : ∀ row ∈ report.rows, ∀ column ∈ columns, '\n' ∉ column.cell row := by decide
  refine ⟨single, ?_⟩
  exact ((table_aligned report).2.2.2.2.2 single).1.trans (by decide +kernel)

end Table

end TaskMonitor
