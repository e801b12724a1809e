import TaskMonitor.Toml.Quoted

/-! Every text is read back from the form in which it is written. What stands between the
delimiters of a form is described by a grammar, which the writer keeps to and the reader undoes. -/

set_option autoImplicit false

namespace TaskMonitor.Toml

/-- A form with one of the two quotation marks; the double one goes with escapes. -/
structure Form.Valid (form : Form) : Prop where
  mark : form.mark = '"' ∨ form.mark = '\''
  escapes : form.escapes = decide (form.mark = '"')

/-- The letters of an escape after its backslash. They do not look like the end of a line. -/
structure Escape (letters : List Char) (c : Char) : Prop where
  meant : ∀ rest, escape (letters ++ rest) = some (c, rest)
  solid : ∃ first more, letters = first :: more ∧
    isBlank first = false ∧ first ≠ '\n' ∧ first ≠ '\r'

/-- The most quotation marks in a row that stand for themselves. -/
def Form.most (form : Form) : Nat := if form.lines then 2 else 0

/-- The first list stands for the second one between the delimiters of a form, where so many
quotation marks stand right before it. -/
inductive Stands (form : Form) : Nat → List Char → List Char → Prop where
  | done {marks : Nat} : Stands form marks [] []
  | mark {marks : Nat} {written text : List Char} : marks < form.most →
      Stands form (marks + 1) written text →
      Stands form marks (form.mark :: written) (form.mark :: text)
  | plain {marks : Nat} {c : Char} {written text : List Char} : c ≠ form.mark → isPlain c →
      (form.escapes → c ≠ '\\') → Stands form 0 written text →
      Stands form marks (c :: written) (c :: text)
  | newLine {marks : Nat} {written text : List Char} : form.lines → Stands form 0 written text →
      Stands form marks ('\n' :: written) ('\n' :: text)
  | escape {marks : Nat} {c : Char} {letters written text : List Char} : form.escapes →
      Escape letters c → Stands form 0 written text →
      Stands form marks ('\\' :: letters ++ written) (c :: text)

/-! ## Writing -/

theorem hexDigit_value : ∀ n < 16, hexValue? (hexDigit n) = some n := by
  decide

theorem escape_code {c : Char} (small : c.toNat < 256) :
    Escape ['u', '0', '0', hexDigit (c.toNat / 16), hexDigit (c.toNat % 16)] c where
  meant := by
    intro rest
    have high := hexDigit_value (c.toNat / 16) (by omega)
    have low := hexDigit_value (c.toNat % 16) (by omega)
    have point : ((0 * 16 + 0) * 16 + 0) * 16 + c.toNat / 16 = c.toNat / 16 := by omega
    have zero : hexValue? '0' = some 0 := rfl
    have valid : c.toNat.isValidChar := c.valid
    have whole : c.toNat / 16 * 16 + c.toNat % 16 = c.toNat := by omega
    change scalarEscape 0 4
      ('0' :: '0' :: hexDigit (c.toNat / 16) :: hexDigit (c.toNat % 16) :: rest) = _
    simp [scalarEscape, zero, high, low, whole, valid]
  solid := ⟨'u', _, rfl, rfl, by decide, by decide⟩

theorem escape_letter {c letter : Char}
    (solid : isBlank letter = false ∧ letter ≠ '\n' ∧ letter ≠ '\r')
    (meant : ∀ rest, escape (letter :: rest) = some (c, rest)) : Escape [letter] c :=
  ⟨meant, letter, [], rfl, solid⟩

theorem escape_mark : Escape ['"'] '"' := escape_letter (by decide) fun _ => rfl

theorem eq_ofNat {c : Char} {n : Nat} (same : c.toNat = n) : c = Char.ofNat n := by
  rw [← same, Char.ofNat_toNat]

theorem escapeChar_cases (lines : Bool) (c : Char) :
    (escapeChar lines c = [c] ∧ isPlain c ∧ c ≠ '\\') ∨
    (lines ∧ c = '\n' ∧ escapeChar lines c = ['\n']) ∨
    ∃ letters, escapeChar lines c = '\\' :: letters ∧ Escape letters c := by
  unfold escapeChar
  split
  · next same =>
    rw [eq_ofNat same]
    exact .inr (.inr ⟨['b'], rfl, escape_letter (by decide) fun _ => rfl⟩)
  split
  · next same =>
    rw [eq_ofNat same]
    exact .inr (.inr ⟨['t'], rfl, escape_letter (by decide) fun _ => rfl⟩)
  split
  · next same =>
    subst same
    cases lines with
    | true => exact .inr (.inl ⟨rfl, rfl, rfl⟩)
    | false => exact .inr (.inr ⟨['n'], rfl, escape_letter (by decide) fun _ => rfl⟩)
  split
  · next same =>
    rw [eq_ofNat same]
    exact .inr (.inr ⟨['f'], rfl, escape_letter (by decide) fun _ => rfl⟩)
  split
  · next same =>
    rw [eq_ofNat same]
    exact .inr (.inr ⟨['r'], rfl, escape_letter (by decide) fun _ => rfl⟩)
  split
  · next same =>
    rw [same]
    exact .inr (.inr ⟨['\\'], rfl, escape_letter (by decide) fun _ => rfl⟩)
  · next noSlash =>
    split
    · next plain => exact .inl ⟨rfl, plain, noSlash⟩
    · next other =>
      have small : c.toNat < 256 := by
        simp only [isPlain, decide_eq_true_eq] at other
        omega
      exact .inr (.inr ⟨_, rfl, escape_code small⟩)

theorem escaped_stands {form : Form} (basic : form.mark = '"') (escapes : form.escapes)
    (marks : Nat) (text : List Char) : Stands form marks (escaped form.lines marks text) text := by
  -- On the text, with the marks in a row so far: one too many is escaped, and ends the row.
  induction text generalizing marks with
  | nil => exact .done
  | cons c rest ih =>
    rw [escaped]
    split
    · next same =>
      by_cases room : marks < form.most
      · have next := Stands.mark room (ih (marks + 1))
        rw [same, if_pos (show marks < if form.lines then 2 else 0 from room)]
        rwa [basic] at next
      · rw [same, if_neg (show ¬ marks < if form.lines then 2 else 0 from room)]
        exact .escape escapes escape_mark (ih 0)
    · next other =>
      rw [← basic] at other
      obtain ⟨written, plain, noSlash⟩ | ⟨lines, rfl, written⟩ | ⟨letters, written, meant⟩ :=
        escapeChar_cases form.lines c
      · rw [written]
        exact .plain other plain (fun _ => noSlash) (ih 0)
      · rw [written]
        exact .newLine lines (ih 0)
      · rw [written]
        exact .escape escapes meant (ih 0)

theorem le_longestRun (c : Char) (current : Nat) (text : List Char) :
    current ≤ longestRun c current text := by
  induction text generalizing current with
  | nil => exact Nat.le_refl _
  | cons d rest ih =>
    rw [longestRun]
    split
    · exact Nat.le_trans (Nat.le_succ _) (ih (current + 1))
    · exact Nat.le_max_left _ _

/-- A text stands for itself in a form without escapes that it fits. -/
theorem literal_stands {form : Form} (literal : form.escapes = false) (marks : Nat)
    {text : List Char} (clear : ∀ c ∈ text, needsEscape c = false)
    (oneLine : form.lines = false → '\n' ∉ text)
    (few : longestRun form.mark marks text ≤ form.most) :
    Stands form marks text text := by
  -- On the text, with the marks in a row so far, which the longest run counts in.
  induction text generalizing marks with
  | nil => exact .done
  | cons c rest ih =>
    have later := fun marks => ih marks (fun d member => clear d (List.mem_cons_of_mem _ member))
      (fun single among => oneLine single (List.mem_cons_of_mem _ among))
    rw [longestRun] at few
    split at few
    · next same =>
      have room : marks < form.most := Nat.le_trans (le_longestRun _ _ _) few
      rw [same]
      exact .mark room (later (marks + 1) few)
    · next other =>
      have rest := later 0 (Nat.le_trans (Nat.le_max_right _ _) few)
      by_cases newLine : c = '\n'
      · subst newLine
        cases lines : form.lines with
        | true => exact .newLine lines rest
        | false => exact absurd List.mem_cons_self (oneLine lines)
      · have plain : isPlain c := by
          have clear := clear c List.mem_cons_self
          simpa [needsEscape, newLine] using clear
        exact .plain other plain (by simp [literal]) rest

/-- What the chosen form puts between its delimiters. -/
theorem choose_stands (text : List Char) : (Form.choose text).Valid ∧
    Stands (Form.choose text) 0 (if (Form.choose text).escapes then
      escaped (Form.choose text).lines 0 text else text) text := by
  have basic : ∀ lines : Bool, (⟨'"', true, lines⟩ : Form).Valid ∧
      Stands ⟨'"', true, lines⟩ 0 (escaped lines 0 text) text := by
    intro lines
    exact ⟨⟨.inl rfl, rfl⟩, escaped_stands rfl rfl 0 text⟩
  have literal : ∀ lines : Bool, (⟨'\'', false, lines⟩ : Form).fits text →
      (⟨'\'', false, lines⟩ : Form).Valid ∧ Stands ⟨'\'', false, lines⟩ 0 text text := by
    intro lines fits
    simp only [Form.fits, Bool.and_eq_true, decide_eq_true_eq] at fits
    obtain ⟨⟨⟨clear, oneLine⟩, _⟩, few⟩ := fits
    refine ⟨⟨.inr rfl, rfl⟩, literal_stands rfl 0 ?_ ?_ few⟩
    · simpa using clear
    · rintro rfl
      simpa using oneLine
  unfold Form.choose
  split
  · next form found =>
    have fits := List.find?_some found
    have among := List.mem_of_find?_eq_some found
    simp only [List.mem_cons, List.not_mem_nil, or_false] at among
    rcases among with rfl | rfl | rfl | rfl
    · exact basic false
    · exact literal false fits
    · exact basic true
    · exact literal true fits
  · split
    · exact basic true
    · exact basic false

/-! ## Reading -/

theorem Form.Valid.mark_solid {form : Form} (valid : form.Valid) :
    form.mark ≠ '\\' ∧ form.mark ≠ '\n' ∧ form.mark ≠ '\r' := by
  rcases valid.mark with same | same <;> rw [same] <;> decide

theorem isPlain_solid {c : Char} (plain : isPlain c) : c ≠ '\n' ∧ c ≠ '\r' := by
  constructor
  · rintro rfl
    simp [isPlain] at plain
  · rintro rfl
    simp [isPlain] at plain

theorem lineEnd?_other {c : Char} (noFeed : c ≠ '\n') (noReturn : c ≠ '\r') (rest : List Char) :
    lineEnd? (c :: rest) = none := by
  rw [lineEnd?]
  · intro rest same
    exact noFeed (List.cons.inj same).1
  · intro rest same
    exact noReturn (List.cons.inj same).1

theorem continuation?_escape {letters : List Char} {c : Char} (meant : Escape letters c)
    (rest : List Char) : continuation? (letters ++ rest) = none := by
  obtain ⟨first, more, rfl, solid, noFeed, noReturn⟩ := meant.solid
  rw [continuation?, List.cons_append, List.dropWhile_cons_of_neg (by simp [solid]),
    lineEnd?_other noFeed noReturn]
  rfl

section Steps

variable {form : Form} {c : Char} {letters : List Char}

theorem lineOnto_plain (other : c ≠ form.mark) (noSlash : form.escapes → c ≠ '\\')
    (plain : isPlain c) (seen rest : List Char) :
    lineOnto form seen (c :: rest) = lineOnto form (c :: seen) rest := by
  rw [lineOnto, if_neg other, if_neg (by simpa using noSlash), if_pos plain]

theorem lineOnto_escape (valid : form.Valid) (escapes : form.escapes) (meant : Escape letters c)
    (seen rest : List Char) :
    lineOnto form seen ('\\' :: (letters ++ rest)) = lineOnto form (c :: seen) rest := by
  rw [lineOnto, if_neg valid.mark_solid.1.symm, if_pos (by simp [escapes])]
  split
  · next same =>
    cases (meant.meant _).symm.trans same
    rfl
  · next same => cases (meant.meant _).symm.trans same

theorem linesOnto_plain (other : c ≠ form.mark) (noSlash : form.escapes → c ≠ '\\')
    (plain : isPlain c) (seen rest : List Char) :
    linesOnto form seen (c :: rest) = linesOnto form (c :: seen) rest := by
  rw [linesOnto, if_neg other, if_neg (by simpa using noSlash), if_pos plain]

theorem linesOnto_newLine (valid : form.Valid) (seen rest : List Char) :
    linesOnto form seen ('\n' :: rest) = linesOnto form ('\n' :: seen) rest := by
  rw [linesOnto, if_neg valid.mark_solid.2.1.symm, if_neg (by simp), if_neg (by decide)]
  split
  · next same =>
    cases same
    rfl
  · next same => cases same

theorem linesOnto_escape (valid : form.Valid) (escapes : form.escapes) (meant : Escape letters c)
    (seen rest : List Char) :
    linesOnto form seen ('\\' :: (letters ++ rest)) = linesOnto form (c :: seen) rest := by
  rw [linesOnto, if_neg valid.mark_solid.1.symm, if_pos (by simp [escapes])]
  split
  · next same => cases (continuation?_escape meant _).symm.trans same
  · split
    · next same =>
      cases (meant.meant _).symm.trans same
      rfl
    · next same => cases (meant.meant _).symm.trans same

theorem linesOnto_marks {marks : Nat} (few : marks ≤ 2) (other : c ≠ form.mark)
    (seen rest : List Char) :
    linesOnto form seen (List.replicate marks form.mark ++ c :: rest) =
      linesOnto form (List.replicate marks form.mark ++ seen) (c :: rest) := by
  cases marks with
  | zero => rfl
  | succ marks =>
    have run : (List.replicate marks form.mark ++ c :: rest).takeWhile (· = form.mark) =
        List.replicate marks form.mark := by
      simp [other]
    have left : (List.replicate marks form.mark ++ c :: rest).dropWhile (· = form.mark) =
        c :: rest := by
      simp [other]
    have short : (List.replicate marks form.mark).length < 2 := by
      rw [List.length_replicate]
      omega
    rw [List.replicate_succ, List.cons_append, linesOnto, if_pos rfl]
    simp only [run, left, short, ↓reduceIte]
    rw [List.append_cons, ← List.replicate_succ']
    rfl

/-- Up to two quotation marks before the three that close belong to the text. -/
theorem linesOnto_close {marks : Nat} (few : marks ≤ 2) {rest : List Char}
    (stop : rest.head? ≠ some form.mark) (seen : List Char) :
    linesOnto form seen (List.replicate (marks + 3) form.mark ++ rest) =
      some (seen.reverse ++ List.replicate marks form.mark, rest) := by
  have run : (List.replicate (marks + 2) form.mark ++ rest).takeWhile (· = form.mark) =
      List.replicate (marks + 2) form.mark := by
    cases rest with
    | nil => simp
    | cons c rest =>
      have other : c ≠ form.mark := by simpa using stop
      simp [other]
  have long : ¬ marks + 2 < 2 := by omega
  have extra : min marks 2 = marks := Nat.min_eq_left few
  rw [List.replicate_succ, List.cons_append, linesOnto, if_pos rfl]
  simp only [run, List.length_replicate, long, ↓reduceIte, Nat.add_sub_cancel, extra,
    List.reverse_append, List.reverse_replicate]
  rw [List.drop_left' List.length_replicate]

end Steps

theorem lineOnto_stands {form : Form} (valid : form.Valid) (single : form.lines = false)
    {marks : Nat} {written text : List Char} (stands : Stands form marks written text)
    (seen rest : List Char) :
    lineOnto form seen (written ++ form.mark :: rest) = some (seen.reverse ++ text, rest) := by
  induction stands generalizing seen with
  | done => rw [List.nil_append, lineOnto, if_pos rfl, List.append_nil]
  | mark room => simp [Form.most, single] at room
  | plain other plain noSlash _ ih =>
    rw [List.cons_append, lineOnto_plain other noSlash plain, ih, List.reverse_cons,
      List.append_assoc, List.singleton_append]
  | newLine lines => simp [single] at lines
  | escape escapes meant _ ih =>
    rw [List.cons_append, List.cons_append, List.append_assoc,
      lineOnto_escape valid escapes meant, ih, List.reverse_cons, List.append_assoc,
      List.singleton_append]

theorem linesOnto_stands {form : Form} (valid : form.Valid) (multi : form.lines)
    {marks : Nat} {written text : List Char} (stands : Stands form marks written text)
    (few : marks ≤ 2) {rest : List Char} (stop : rest.head? ≠ some form.mark) (seen : List Char) :
    linesOnto form seen (List.replicate marks form.mark ++ (written ++
      (List.replicate 3 form.mark ++ rest))) =
        some (seen.reverse ++ List.replicate marks form.mark ++ text, rest) := by
  -- Quotation marks pile up until something else shows whether they close the text.
  induction stands generalizing seen with
  | done =>
    rw [List.nil_append, ← List.append_assoc, List.replicate_append_replicate,
      linesOnto_close few stop, List.append_nil]
  | @mark marks written text room _ ih =>
    have more : marks + 1 ≤ 2 := by
      simp only [Form.most, multi, ↓reduceIte] at room
      omega
    have later := ih more seen
    rw [List.replicate_succ', List.append_assoc] at later
    simpa using later
  | @plain marks c written text other plain noSlash _ ih =>
    have later := ih (Nat.zero_le 2) (c :: (List.replicate marks form.mark ++ seen))
    rw [List.cons_append, linesOnto_marks few other, linesOnto_plain other noSlash plain]
    simpa using later
  | @newLine marks written text lines _ ih =>
    have later := ih (Nat.zero_le 2) ('\n' :: (List.replicate marks form.mark ++ seen))
    rw [List.cons_append, linesOnto_marks few valid.mark_solid.2.1.symm, linesOnto_newLine valid]
    simpa using later
  | @escape marks c letters written text escapes meant _ ih =>
    have later := ih (Nat.zero_le 2) (c :: (List.replicate marks form.mark ++ seen))
    rw [List.cons_append, List.cons_append, List.append_assoc,
      linesOnto_marks few valid.mark_solid.1.symm, linesOnto_escape valid escapes meant]
    simpa using later

theorem string_opens_line {mark : Char} {text : List Char}
    (open' : ∀ rest, text ≠ mark :: mark :: rest) :
    string mark (mark :: text) = lineOnto ⟨mark, decide (mark = '"'), false⟩ [] text := by
  match text with
  | [] => simp [string]
  | [_] => simp [string]
  | b :: c :: rest =>
    have apart : ¬ (b = mark ∧ c = mark) := by
      rintro ⟨rfl, rfl⟩
      exact open' rest rfl
    rw [string]
    simp only [true_and, apart, ↓reduceIte]

theorem string_opens_lines (mark : Char) (text : List Char) :
    string mark (mark :: mark :: mark :: text) =
      linesOnto ⟨mark, decide (mark = '"'), true⟩ [] ((lineEnd? text).getD text) := by
  rw [string]
  simp only [and_self, ↓reduceIte]

/-- On one line no quotation mark stands for itself, so a text does not open the form over
lines. -/
theorem Stands.one_line {form : Form} (valid : form.Valid) (single : form.lines = false)
    {written text : List Char} (stands : Stands form 0 written text) {rest : List Char}
    (stop : rest.head? ≠ some form.mark) (more : List Char) :
    written ++ form.mark :: rest ≠ form.mark :: form.mark :: more := by
  intro same
  cases stands with
  | done =>
    rw [List.nil_append] at same
    rw [(List.cons.inj same).2] at stop
    exact stop rfl
  | mark room => simp [Form.most, single] at room
  | plain other => exact other (List.cons.inj same).1
  | newLine lines => simp [single] at lines
  | escape => exact valid.mark_solid.1 (List.cons.inj same).1.symm

theorem Stands.lineEnd? {form : Form} (valid : form.Valid) {marks : Nat} {written text : List Char}
    (stands : Stands form marks written text) (oneLine : '\n' ∉ text) (rest : List Char) :
    lineEnd? (written ++ form.mark :: rest) = none := by
  obtain ⟨_, noFeed, noReturn⟩ := valid.mark_solid
  cases stands with
  | done => exact lineEnd?_other noFeed noReturn _
  | mark => exact lineEnd?_other noFeed noReturn _
  | plain _ plain => exact lineEnd?_other (isPlain_solid plain).1 (isPlain_solid plain).2 _
  | newLine => exact absurd List.mem_cons_self oneLine
  | escape => exact lineEnd?_other (by decide) (by decide) _

theorem Form.Valid.eq_of_mark {form : Form} (valid : form.Valid) {lines : Bool}
    (same : form.lines = lines) : (⟨form.mark, decide (form.mark = '"'), lines⟩ : Form) = form := by
  rw [← valid.escapes, ← same]

theorem string_one_line {form : Form} (valid : form.Valid) (single : form.lines = false)
    {written text : List Char} (stands : Stands form 0 written text) {rest : List Char}
    (stop : rest.head? ≠ some form.mark) :
    string form.mark (form.mark :: (written ++ form.mark :: rest)) = some (text, rest) := by
  rw [string_opens_line (stands.one_line valid single stop), valid.eq_of_mark single,
    lineOnto_stands valid single stands]
  rfl

/-- The line feed that is put before a text with line feeds is dropped again. -/
theorem string_over_lines {form : Form} (valid : form.Valid) (multi : form.lines)
    {written text : List Char} (stands : Stands form 0 written text) {rest : List Char}
    (stop : rest.head? ≠ some form.mark) :
    string form.mark (form.mark :: form.mark :: form.mark ::
      ((if text.contains '\n' then ['\n'] else []) ++
        (written ++ (List.replicate 3 form.mark ++ rest)))) = some (text, rest) := by
  have inner := linesOnto_stands valid multi stands (Nat.zero_le 2) stop []
  rw [string_opens_lines, valid.eq_of_mark multi]
  split
  · exact inner
  · next oneLine =>
    have none := stands.lineEnd? valid (by simpa using oneLine)
      (List.replicate 2 form.mark ++ rest)
    rw [List.nil_append, List.replicate_succ, List.cons_append, none]
    exact inner

/-- The written form of a text is read back up to its end, if no quotation mark comes after it. -/
theorem string_quote (text : String) {rest : List Char}
    (stop : rest.head? ≠ some (Form.choose text.toList).mark) :
    string (Form.choose text.toList).mark (quote text ++ rest) = some (text.toList, rest) := by
  obtain ⟨valid, stands⟩ := choose_stands text.toList
  rw [quote, Form.write]
  generalize Form.choose text.toList = form at stands valid stop
  cases lines : form.lines with
  | false => simpa [lines] using string_one_line valid lines stands stop
  | true => simpa [lines, List.replicate_succ] using string_over_lines valid lines stands stop

/-- Both quotation marks are in the text, and one of them stands right before those that close. -/
example : quote "it's \"so\"" = "\"\"\"it's \"so\"\"\"\"".toList := by decide

end TaskMonitor.Toml
