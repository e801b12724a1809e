import TaskMonitor.Proofs.Json.Nested
import TaskMonitor.Proofs.Json.Step

/-! Written documents that break off. A reader meets the end of the text, or it has found a value
just there, which happens to numbers only. Inside brackets it then still wants the closing one. -/

set_option autoImplicit false

namespace TaskMonitor.Json

open Utf8 (encode_nil encode_cons encode_append)

variable {σ α β : Type}

/-- The start of a text that breaks off before its end. -/
def Part (part whole : Bytes) : Prop := part <+: whole ∧ part ≠ whole

/-- The reader meets the end of each text that is part of these bytes. -/
def Wants (reader : Reader α) (bytes : Bytes) : Prop :=
  ∀ part, Part part bytes → reader part = .error .endOfText

/-- The reader meets the end of a text, or has found a value there. -/
def Ends (reader : Reader α) (part : Bytes) : Prop :=
  reader part = .error .endOfText ∨ ∃ value, reader part = .ok (value, [])

/-- A document that breaks off is taken for another value at most at its very end. -/
def Cut (reader : Reader α) (document : Document) : Prop :=
  ∀ part, Part part (Utf8.encode document.compact) → Ends reader part

/-- A document that breaks off is not taken for any value. -/
def Closed (reader : Reader α) (document : Document) : Prop :=
  Wants reader (Utf8.encode document.compact)

/-! ## Parts of bytes -/

theorem not_part_nil (part : Bytes) : ¬ Part part [] := by
  rintro ⟨start, short⟩
  exact short (List.prefix_nil.mp start)

theorem part_cons {part bytes : Bytes} {byte : Byte} (cut : Part part (byte :: bytes)) :
    part = [] ∨ ∃ more, part = byte :: more ∧ Part more bytes := by
  obtain ⟨start, short⟩ := cut
  rcases List.prefix_cons_iff.mp start with rfl | ⟨more, rfl, inner⟩
  · exact .inl rfl
  · exact .inr ⟨more, rfl, inner, fun same => short (by rw [same])⟩

theorem part_cons_cons {part bytes : Bytes} {byte : Byte} (cut : Part part bytes) :
    Part (byte :: part) (byte :: bytes) := by
  obtain ⟨start, short⟩ := cut
  exact ⟨List.cons_prefix_cons.mpr ⟨rfl, start⟩, fun same => short (List.tail_eq_of_cons_eq same)⟩

theorem part_append {part front back : Bytes} (cut : Part part (front ++ back)) :
    Part part front ∨ ∃ more, part = front ++ more ∧ Part more back := by
  induction front generalizing part with
  | nil => exact .inr ⟨part, rfl, cut⟩
  | cons byte front ih =>
    rcases part_cons cut with rfl | ⟨more, rfl, inner⟩
    · exact .inl ⟨List.nil_prefix, nofun⟩
    · rcases ih inner with ⟨start, short⟩ | ⟨rest, rfl, later⟩
      · refine .inl ⟨List.cons_prefix_cons.mpr ⟨rfl, start⟩, fun same => short ?_⟩
        exact List.tail_eq_of_cons_eq same
      · exact .inr ⟨rest, rfl, later⟩

theorem Part.length_lt {part whole : Bytes} (cut : Part part whole) :
    part.length < whole.length := by
  obtain ⟨start, short⟩ := cut
  exact Nat.lt_of_le_of_ne start.length_le fun same => short (start.eq_of_length same)

theorem Stops.part {part whole : Bytes} (stops : Stops whole) (cut : Part part whole) :
    Stops part := by
  intro byte head
  cases part with
  | nil => cases head
  | cons first part =>
    cases head
    obtain ⟨rest, rfl⟩ := cut.1
    exact stops byte rfl

/-! ## Readers in a row -/

theorem Wants.bind {reader : Reader α} {next : α → Reader β} {front back : Bytes} {value : α}
    (takes : ∀ rest, reader (front ++ rest) = .ok (value, rest)) (wants : Wants reader front)
    (later : Wants (next value) back) : Wants (reader >>= next) (front ++ back) := by
  intro part cut
  rcases part_append cut with inner | ⟨more, rfl, inner⟩
  · exact bind_error (wants part inner) next
  · rw [bind_ok (takes more)]
    exact later more inner

theorem wants_peek {next : Byte → Reader α} {byte : Byte} {bytes : Bytes} (solid : ¬ isBlank byte)
    (later : ∀ part, Part part bytes → next byte (byte :: part) = .error .endOfText) :
    Wants (peek >>= next) (byte :: bytes) := by
  intro part cut
  rcases part_cons cut with rfl | ⟨more, rfl, inner⟩
  · rfl
  · rw [bind_ok (peek_cons solid more)]
    exact later more inner

theorem wants_expect (byte : Byte) : Wants (expect byte) [byte] := by
  intro part cut
  rcases part_cons cut with rfl | ⟨more, _, cut⟩
  · rfl
  · exact absurd cut (not_part_nil more)

theorem wants_literal (word : Bytes) : Wants (literal word) word := by
  induction word with
  | nil =>
    intro part cut
    exact absurd cut (not_part_nil part)
  | cons letter word ih =>
    intro part cut
    rcases part_cons cut with rfl | ⟨more, rfl, inner⟩
    · rfl
    · rw [literal, if_pos rfl]
      exact ih more inner

theorem Wants.map {reader : Reader α} {bytes : Bytes} (wants : Wants reader bytes)
    (next : α → Reader β) : Wants (reader >>= next) bytes :=
  fun part cut => bind_error (wants part cut) next

theorem Closed.cut {reader : Reader α} {document : Document} (closed : Closed reader document) :
    Cut reader document :=
  fun part cut => .inl (closed part cut)

theorem Cut.map {reader : Reader α} {document : Document} (cut : Cut reader document)
    (make : α → β) : Cut (reader >>= fun value => pure (make value)) document := by
  intro part short
  rcases cut part short with ends | ⟨value, found⟩
  · exact .inl (bind_error ends _)
  · exact .inr ⟨make value, by rw [bind_ok found]; rfl⟩

theorem Cut.present {reader : Reader α} {document : Document} (cut : Cut reader document) :
    Cut (present reader) document :=
  cut.map some

theorem Closed.read {reader : Reader α} {document : Document} (closed : Closed reader document)
    {part : Bytes} (start : part <+: Utf8.encode document.compact)
    (short : part ≠ Utf8.encode document.compact) :
    Json.read reader part = .error .endOfText := by
  rw [Json.read, closed part ⟨start, short⟩]
  rfl

/-! ## Integers -/

theorem part_digits {n : Nat} {part : Bytes} (cut : Part part (Utf8.encode (Number.digits n)))
    (some : part ≠ []) :
    ∃ m, 0 < m ∧ m ≤ n ∧ part = Utf8.encode (Number.digits m) := by
  induction n using Nat.strongRecOn with
  | ind n ih =>
    obtain ⟨byte, last, _⟩ := digitChar_byte (n % 10) (by omega)
    by_cases small : n < 10
    · rw [Nat.mod_eq_of_lt small] at last
      rw [Number.digits, Nat.toDigits_of_lt_base small, encode_cons, encode_nil, last] at cut
      rcases part_cons cut with none | ⟨more, _, cut⟩
      · exact absurd none some
      · exact absurd cut (not_part_nil more)
    · have shape : Utf8.encode (Number.digits n) =
          Utf8.encode (Number.digits (n / 10)) ++ [byte] := by
        rw [Number.digits, Nat.toDigits_of_base_le (by decide) (by omega), encode_append,
          encode_cons, encode_nil, last]
        rfl
      rw [shape] at cut
      rcases part_append cut with inner | ⟨more, rfl, inner⟩
      · obtain ⟨m, positive, below, same⟩ := ih (n / 10) (by omega) inner
        exact ⟨m, positive, by omega, same⟩
      -- All but the last digit are there.
      · refine ⟨n / 10, by omega, by omega, ?_⟩
        rcases part_cons inner with rfl | ⟨more, _, none⟩
        · rw [List.append_nil]
        · exact absurd none (not_part_nil more)

theorem part_signedDigits {n : Int} {part : Bytes}
    (cut : Part part (Utf8.encode (Number.signedDigits n))) :
    part = [] ∨ part = [Token.minus] ∨
      ∃ m, (n ≤ m ∧ m ≤ 0 ∨ 0 ≤ m ∧ m ≤ n) ∧ part = Utf8.encode (Number.signedDigits m) := by
  unfold Number.signedDigits at cut
  split at cut
  · next negative =>
    rw [encode_cons] at cut
    rcases part_append cut with inner | ⟨more, rfl, inner⟩
    · rcases part_cons inner with none | ⟨more, _, never⟩
      · exact .inl none
      · exact absurd never (not_part_nil more)
    · by_cases none : more = []
      · exact .inr (.inl (by rw [none]; rfl))
      · obtain ⟨m, positive, below, rfl⟩ := part_digits inner none
        refine .inr (.inr ⟨-m, .inl (by omega), ?_⟩)
        rw [Number.signedDigits, if_pos (by omega), Int.natAbs_neg, Int.natAbs_natCast, encode_cons]
  · by_cases none : part = []
    · exact .inl none
    · obtain ⟨m, positive, below, rfl⟩ := part_digits cut none
      refine .inr (.inr ⟨m, .inr (by omega), ?_⟩)
      rw [Number.signedDigits, if_neg (by omega), Int.natAbs_natCast]

theorem cut_integer {least most n : Int} (range : InRange n) (low : least ≤ n) (high : n ≤ most)
    (least' : least ≤ 0) (most' : 0 ≤ most) : Cut (integer least most) (.integer n) := by
  intro part cut
  rcases part_signedDigits cut with rfl | rfl | ⟨m, between, rfl⟩
  · exact .inl rfl
  · exact .inl rfl
  · obtain ⟨above, below⟩ := range
    have minimum : Int64.minValue.toInt ≤ 0 := by decide
    have maximum : 0 < (UInt64.size : Int) := by decide
    have within : InRange m := ⟨by omega, by omega⟩
    have found := reads_integer within (show least ≤ m by omega) (show m ≤ most by omega) [] stops_nil
    rw [List.append_nil] at found
    exact .inr ⟨m, found⟩

theorem cut_uint32 (n : UInt32) : Cut uint32 (.integer n.toNat) := by
  have most : (n.toNat : Int) ≤ (UInt32.size : Int) - 1 := by
    have below := n.toNat_lt_size
    omega
  have range : InRange n.toNat := inRange_of_le (by omega) (Int.le_trans most (by decide))
  exact (cut_integer range (Int.natCast_nonneg _) most (by decide) (by decide)).map _

theorem cut_uint64 (n : UInt64) : Cut uint64 (.integer n.toNat) := by
  have most : (n.toNat : Int) ≤ (UInt64.size : Int) - 1 := by
    have below := n.toNat_lt_size
    omega
  have range : InRange n.toNat := inRange_of_le (by omega) most
  exact (cut_integer range (Int.natCast_nonneg _) most (by decide) (by decide)).map _

theorem cut_int32 (n : Int32) : Cut int32 (.integer n.toInt) := by
  have low := n.minValue_le_toInt
  have high := n.toInt_le
  have range := inRange_of_le (Int.le_trans (by decide) low) (Int.le_trans high (by decide))
  exact (cut_integer range low high (by decide) (by decide)).map _

/-! ## Words and texts -/

theorem wants_word (word : Bytes) {letters : Bytes} {first : Byte} {next : Byte → Reader α}
    {later : Unit → Reader α} (shape : word = first :: letters) (solid : ¬ isBlank first)
    (picks : next first = literal word >>= later) : Wants (peek >>= next) word := by
  rw [shape]
  refine wants_peek solid fun part inner => ?_
  rw [picks]
  apply (wants_literal word).map
  rw [shape]
  exact part_cons_cons inner

theorem closed_bool (value : Bool) : Closed bool (.bool value) := by
  cases value with
  | true => exact wants_word yes rfl (by decide) (if_pos rfl)
  | false => exact wants_word no rfl (by decide) ((if_neg (by decide)).trans (if_pos rfl))

theorem closed_null (reader : Reader α) : Closed (nullable reader) .null :=
  wants_word null rfl (by decide) (if_pos rfl)

theorem Cut.nullable {reader : Reader α} {document : Document} (opens : Opens document)
    (cut : Cut reader document) : Cut (nullable reader) document := by
  intro part short
  obtain ⟨byte, more, bytes, solid, some, _⟩ := opens
  rw [bytes] at short
  rcases part_cons short with rfl | ⟨rest, rfl, _⟩
  · exact .inl rfl
  · rw [← bytes] at short
    rw [Json.nullable, Ends, bind_ok (peek_cons solid _), if_neg some]
    exact cut.map Option.some _ short

theorem cut_ofOption {reader : Reader α} {write : α → Document}
    (opens : ∀ value, Opens (write value)) (cut : ∀ value, Cut reader (write value))
    (value : Option α) : Cut (nullable reader) (.ofOption write value) := by
  cases value with
  | none => exact (closed_null reader).cut
  | some value => exact (cut value).nullable (opens value)

theorem quotedOnto_plain_open {bytes : Bytes} (plain : ∀ byte ∈ bytes, Plain byte) (seen : Bytes) :
    quotedOnto seen bytes = .error .endOfText := by
  have found := quotedOnto_plain plain seen []
  rw [List.append_nil] at found
  rw [found, quotedOnto]

theorem codeUnit_short {text : Bytes} (short : text.length < 4) :
    codeUnit text = .error .endOfText := by
  unfold codeUnit
  split
  · simp only [List.length_cons] at short
    omega
  · rfl

/-- An escape breaks off before its mark, or in the four digits of a code unit. -/
theorem escape_control_part {c : Char} (small : c.toNat < 0x20) {part : Bytes}
    (cut : Part part (Utf8.encode ['u', '0', '0', hexDigit (c.toNat / 16), hexDigit (c.toNat % 16)])) :
    escape part = .error .endOfText := by
  obtain ⟨highByte, _⟩ := hexDigit_byte (c.toNat / 16) (by omega)
  obtain ⟨lowByte, _⟩ := hexDigit_byte (c.toNat % 16) (by omega)
  simp only [encode_cons, encode_nil, highByte, lowByte] at cut
  rcases part_cons cut with rfl | ⟨digits, rfl, inner⟩
  · rfl
  · have unit : codeUnit digits = .error .endOfText := codeUnit_short inner.length_lt
    change unicodeEscape digits = _
    simp only [unicodeEscape, unit, bind, Except.bind]

theorem escape_named_part {mark : Char} (small : mark.toNat < 0x80) {part : Bytes}
    (cut : Part part (Utf8.encode [mark])) : escape part = .error .endOfText := by
  rw [encode_cons, encode_nil, Utf8.encodeChar_one small] at cut
  rcases part_cons cut with rfl | ⟨more, _, never⟩
  · rfl
  · exact absurd never (not_part_nil more)

theorem quotedOnto_escape_part {mark : List Char} {part : Bytes}
    (cut : Part part (Utf8.encode ('\\' :: mark)))
    (opened : ∀ inner, Part inner (Utf8.encode mark) → escape inner = .error .endOfText)
    (seen : Bytes) : quotedOnto seen part = .error .endOfText := by
  rcases part_cons cut with rfl | ⟨inner, rfl, later⟩
  · rw [quotedOnto]
  · exact quotedOnto_error (opened inner later) seen

/-- The written form of a character that breaks off leaves a text without its closing quote. -/
theorem quotedOnto_escapeChar_part {c : Char} {part : Bytes}
    (cut : Part part (Utf8.encode (escapeChar c))) (seen : Bytes) :
    quotedOnto seen part = .error .endOfText := by
  unfold escapeChar at cut
  -- The seven characters with a name of their own.
  iterate 7
    split at cut
    · exact quotedOnto_escape_part cut (fun _ => escape_named_part (by decide)) seen
  split at cut
  · next small => exact quotedOnto_escape_part cut (fun _ => escape_control_part small) seen
  · next noQuote noSlash _ _ _ _ _ high =>
    rw [encode_cons, encode_nil, List.append_nil] at cut
    apply quotedOnto_plain_open
    intro byte member
    exact plain_encodeChar noQuote noSlash high byte (cut.1.subset member)

theorem quotedOnto_escaped_part (text : List Char) {part : Bytes}
    (cut : Part part (Utf8.encode (text.flatMap escapeChar) ++ [Token.quote])) (seen : Bytes) :
    quotedOnto seen part = .error .endOfText := by
  induction text generalizing part seen with
  | nil =>
    rcases part_cons cut with rfl | ⟨more, _, never⟩
    · rw [quotedOnto]
    · exact absurd never (not_part_nil more)
  | cons c text ih =>
    rw [List.flatMap_cons, encode_append, List.append_assoc] at cut
    rcases part_append cut with inner | ⟨more, rfl, inner⟩
    · exact quotedOnto_escapeChar_part inner seen
    · rw [quotedOnto_escapeChar]
      exact ih inner _

theorem wants_quoted (value : String) :
    Wants quoted (Utf8.encode (value.toList.flatMap escapeChar) ++ [Token.quote]) := by
  intro part cut
  simp only [quoted, quotedOnto_escaped_part value.toList cut [], bind, Except.bind]

theorem wants_text (value : String) : Wants text (Utf8.encode (quote value)) := by
  have shape := encode_quote value []
  rw [List.append_nil] at shape
  rw [shape]
  refine wants_peek (by decide) fun part inner => ?_
  rw [if_pos rfl, bind_ok rfl]
  exact wants_quoted value part inner

theorem closed_text (value : String) : Closed text (.text value) := wants_text value

/-! ## Lists -/

theorem goesOn_part {byte close : Byte} (solid : ¬ isBlank byte) (other : byte ≠ close)
    (noComma : Token.comma ≠ close) (first : Bool) {part more : Bytes}
    (cut : Part part (Utf8.encode (comma first) ++ byte :: more)) :
    goesOn close first part = .error .endOfText ∨
      ∃ inner, Part inner more ∧ part = Utf8.encode (comma first) ++ byte :: inner ∧
        goesOn close first part = .ok (true, byte :: inner) := by
  have round : ∀ inner, goesOn close first (Utf8.encode (comma first) ++ byte :: inner) =
      .ok (true, byte :: inner) := by
    intro inner
    obtain ⟨next, peeked, apart⟩ := peek_comma byte close solid other noComma first inner
    rw [goesOn, bind_ok peeked, if_neg apart, bind_ok (separator_comma solid other _ _)]
    rfl
  -- The cut lies in the comma, right after it, or beyond the byte.
  rcases part_append cut with inner | ⟨rest, rfl, inner⟩
  · cases first with
    | true => exact absurd inner (not_part_nil part)
    | false =>
      rcases part_cons inner with rfl | ⟨none, _, never⟩
      · exact .inl rfl
      · exact absurd never (not_part_nil none)
  · rcases part_cons inner with rfl | ⟨more, rfl, later⟩
    · rw [List.append_nil]
      cases first with
      | true => exact .inl rfl
      | false =>
        refine .inl ?_
        change goesOn close false [Token.comma] = _
        rw [goesOn, bind_ok (peek_cons (by decide) _), if_neg noComma, separator,
          if_neg Bool.false_ne_true]
        rfl
    · exact .inr ⟨more, later, rfl, round more⟩

theorem value_part {reader : Reader α} {document : Document} {value : α}
    (reads : Reads reader document value) (short : Cut reader document) {back part : Bytes}
    (stops : Stops back) (cut : Part part (Utf8.encode document.compact ++ back)) :
    Ends reader part ∨
      ∃ behind, Part behind back ∧ part = Utf8.encode document.compact ++ behind ∧
        reader part = .ok (value, behind) := by
  rcases part_append cut with inner | ⟨behind, rfl, inner⟩
  · exact .inl (short part inner)
  · exact .inr ⟨behind, inner, rfl, reads behind (stops.part inner)⟩

theorem elementsOnto_nil (element : Reader α) {fuel : Nat} (enough : 0 < fuel) (seen : List α) :
    elementsOnto element fuel seen [] = .error .endOfText := by
  obtain ⟨fuel, rfl⟩ := Nat.exists_eq_succ_of_ne_zero (Nat.ne_of_gt enough)
  rfl

theorem elementsOnto_part {element : Reader α} {write : α → Document} {values : List α}
    (each : ∀ value ∈ values, Opens (write value) ∧ Reads element (write value) value ∧
      Cut element (write value)) {fuel : Nat} (seen : List α) {part : Bytes}
    (cut : Part part (Utf8.encode (compactElements seen.isEmpty (values.map write)) ++
      [Token.closeList])) (enough : part.length < fuel) :
    elementsOnto element fuel seen part = .error .endOfText := by
  -- On the values: the text breaks off before the next one, in it, or after it.
  induction values generalizing fuel seen part with
  | nil =>
    rcases part_cons cut with rfl | ⟨none, _, never⟩
    · exact elementsOnto_nil element enough seen
    · exact absurd never (not_part_nil none)
  | cons value values ih =>
    obtain ⟨fuel, rfl⟩ := Nat.exists_eq_succ_of_ne_zero (Nat.ne_of_gt (Nat.zero_lt_of_lt enough))
    obtain ⟨⟨byte, more, bytes, solid, _, open'⟩, reads, short⟩ := each value List.mem_cons_self
    rw [List.map_cons, compactElements, ← comma, encode_append, encode_append, List.append_assoc,
      List.append_assoc, bytes, List.cons_append] at cut
    rw [elementsOnto_succ]
    rcases goesOn_part solid open' (by decide) seen.isEmpty cut with ends | ⟨inner, rest, rfl, round⟩
    · exact bind_error ends _
    have rest : Part (byte :: inner) _ := part_cons_cons rest
    rw [← List.cons_append, ← bytes] at rest
    simp only [List.length_append, List.length_cons] at enough
    rw [bind_ok round, if_pos rfl]
    rcases value_part reads short (stops_elements (values.map write) []) rest with
      (ends | ⟨other, found⟩) | ⟨behind, rest, same, found⟩
    · exact bind_error ends _
    · rw [bind_ok found]
      exact elementsOnto_nil element (by omega) _
    · have length := congrArg List.length same
      simp only [bytes, List.length_append, List.length_cons] at length
      rw [bind_ok found]
      exact ih (fun other member => each other (List.mem_cons_of_mem _ member)) (value :: seen) rest
        (by omega)

theorem closed_list {element : Reader α} {write : α → Document} {values : List α}
    (each : ∀ value ∈ values, Opens (write value) ∧ Reads element (write value) value ∧
      Cut element (write value)) : Closed (list element) (.list (values.map write)) := by
  have shape : Utf8.encode (Document.list (values.map write)).compact =
      Token.openList ::
        (Utf8.encode (compactElements true (values.map write)) ++ [Token.closeList]) := by
    rw [Document.compact, encode_append, encode_cons]
    rfl
  rw [Closed, shape]
  refine wants_peek (by decide) fun part cut => ?_
  rw [if_pos rfl, bind_ok rfl]
  exact elementsOnto_part each [] cut (Nat.lt_succ_self _)

/-! ## Records -/

/-- The value of each member of an object can be cut, whatever the field is added to. -/
inductive CutFields : List (Field σ) → List (String × Document) → Prop where
  | done {fields : List (Field σ)} : CutFields fields []
  | field {field : Field σ} {fields : List (Field σ)} {document : Document}
      {members : List (String × Document)} :
      (∀ values, Cut (field.read values) document) → CutFields fields members →
      CutFields (field :: fields) ((field.key, document) :: members)

theorem nextKey_part {first : Bool} {key : String} {part more : Bytes}
    (cut : Part part (Utf8.encode (comma first) ++ (Utf8.encode (quote key) ++ more))) :
    Record.nextKey first part = .error .endOfText ∨
      ∃ inner, Part inner more ∧
        part = Utf8.encode (comma first) ++ (Utf8.encode (quote key) ++ inner) ∧
        Record.nextKey first part = .ok (some key, inner) := by
  rw [encode_quote] at cut
  have solid : ¬ isBlank Token.quote := by decide
  have other : Token.quote ≠ Token.closeObject := by decide
  rcases goesOn_part solid other (by decide) first cut with ends | ⟨inner, rest, rfl, round⟩
  · exact .inl (bind_error ends _)
  rw [Record.nextKey, bind_ok round, if_pos rfl, bind_ok (expect_cons (by decide) _)]
  have shape : Utf8.encode (key.toList.flatMap escapeChar) ++ Token.quote :: more =
      (Utf8.encode (key.toList.flatMap escapeChar) ++ [Token.quote]) ++ more := by simp
  rw [shape] at rest
  rcases part_append rest with broken | ⟨behind, rfl, later⟩
  · exact .inl (bind_error (wants_quoted key _ broken) _)
  · rw [List.append_assoc, List.singleton_append, bind_ok (quoted_quote key behind),
      ← encode_quote]
    exact .inr ⟨behind, later, rfl, rfl⟩

theorem members_nil (fields : List (Field σ)) {fuel : Nat} (enough : 0 < fuel) (first : Bool)
    (seen : List String) (values : σ) :
    Record.members fields fuel first seen values [] = .error .endOfText := by
  obtain ⟨fuel, rfl⟩ := Nat.exists_eq_succ_of_ne_zero (Nat.ne_of_gt enough)
  rfl

theorem members_part (front : List (Field σ)) {fields : List (Field σ)} {values final : σ}
    {members : List (String × Document)} (fills : Fills fields values members final)
    (cuts : CutFields fields members) (distinct : ((front ++ fields).map (·.key)).Nodup)
    (seen : List String) (before : ∀ key ∈ seen, key ∈ front.map (·.key)) {fuel : Nat} (first : Bool)
    {part : Bytes} (cut : Part part (Utf8.encode (compactMembers first members) ++
      [Token.closeObject])) (enough : part.length < fuel) :
    Record.members (front ++ fields) fuel first seen values part = .error .endOfText := by
  -- Fields that are read move from `fields` to `front`, and only their keys have been seen.
  induction fills generalizing front seen fuel first part with
  | done =>
    rcases part_cons cut with rfl | ⟨none, _, never⟩
    · exact members_nil _ enough first seen _
    · exact absurd never (not_part_nil none)
  | @field field fields values next final document members reads _ ih =>
    obtain ⟨fuel, rfl⟩ := Nat.exists_eq_succ_of_ne_zero (Nat.ne_of_gt (Nat.zero_lt_of_lt enough))
    obtain ⟨apart, known⟩ := find?_distinct distinct
    have fresh : field.key ∉ seen := fun among => apart (before _ among)
    have split : front ++ field :: fields = front ++ [field] ++ fields := by simp
    cases cuts with
    | field short cuts =>
    have whole : Utf8.encode (compactMembers first ((field.key, document) :: members)) ++
        [Token.closeObject] = Utf8.encode (comma first) ++ (Utf8.encode (quote field.key) ++
          Token.colon :: (Utf8.encode document.compact ++
            (Utf8.encode (compactMembers false members) ++ [Token.closeObject]))) := by
      rw [compactMembers, ← comma]
      simp only [encode_append, encode_cons, List.append_assoc]
      rfl
    rw [whole] at cut
    rw [Record.members_succ]
    rcases nextKey_part cut with ends | ⟨inner, rest, rfl, round⟩
    · exact bind_error ends _
    simp only [List.length_append, encode_quote, List.length_cons] at enough
    rw [bind_ok round]
    simp only [Record.member, known, fresh, ↓reduceIte, bind_assoc, pure_bind]
    rcases part_cons rest with rfl | ⟨inner, rfl, rest'⟩
    · rfl
    rw [bind_ok (expect_cons (by decide) inner)]
    rcases value_part reads (short values) (stops_members members []) rest' with
      (ends | ⟨other, found⟩) | ⟨behind, later, same, found⟩
    · exact bind_error ends _
    · rw [bind_ok found]
      exact members_nil _ (by omega) _ _ _
    · have length := congrArg List.length same
      simp only [List.length_append] at length
      rw [bind_ok found, split]
      refine ih (front ++ [field]) cuts (split ▸ distinct) (field.key :: seen) ?_ false later
        (by simp only [List.length_cons] at enough; omega)
      intro key member
      rw [List.map_append, List.mem_append]
      rcases List.mem_cons.mp member with rfl | among
      · exact .inr List.mem_cons_self
      · exact .inl (before key among)

theorem closed_record (record : Record σ α) {members : List (String × Document)} (final : σ)
    (distinct : (record.fields.map (·.key)).Nodup)
    (fills : Fills record.fields record.start members final)
    (cuts : CutFields record.fields members) : Closed record.read (.object members) := by
  have shape : Utf8.encode (Document.object members).compact =
      Token.openObject ::
        (Utf8.encode (compactMembers true members) ++ [Token.closeObject]) := by
    rw [Document.compact, encode_append, encode_cons]
    rfl
  apply Wants.map
  rw [shape]
  refine wants_peek (by decide) fun part cut => ?_
  rw [if_pos rfl, bind_ok rfl]
  refine members_part [] fills cuts distinct [] ?_ true cut (Nat.lt_succ_self _)
  intro key among
  cases among

/-! ## Variants -/

theorem closed_bare {named : String → Option (Variant α)} (name : String) :
    Closed (variant named) (.text name) := by
  have shape := encode_quote name []
  rw [List.append_nil] at shape
  change Wants _ (Utf8.encode (quote name))
  rw [shape]
  refine wants_peek (by decide) fun part inner => ?_
  rw [if_neg (by decide), if_pos rfl]
  refine (wants_text name).map _ _ ?_
  rw [shape]
  exact part_cons_cons inner

theorem closed_variant {named : String → Option (Variant α)} {name : String} {entry : Variant α}
    {document : Document} {value : α} (known : named name = some entry)
    (reads : Reads entry.content document value) (short : Cut entry.content document) :
    Closed (variant named) (.object [(name, document)]) := by
  have shape : Utf8.encode (Document.object [(name, document)]).compact =
      Token.openObject :: (Utf8.encode (quote name) ++ ([Token.colon] ++
        (Utf8.encode document.compact ++ [Token.closeObject]))) := by
    rw [Document.compact, compactMembers, compactMembers]
    simp only [↓reduceIte, List.nil_append, encode_append, encode_cons, encode_nil,
      List.append_assoc, List.append_nil]
    rfl
  rw [Closed, shape]
  refine wants_peek (by decide) fun part cut => ?_
  rw [if_pos rfl, bind_ok rfl]
  refine Wants.bind (text_quote name) (wants_text name) ?_ part cut
  simp only [known]
  refine Wants.bind (expect_cons (by decide)) (wants_expect _) ?_
  intro part cut
  rcases value_part reads short (stops_cons (.inr (.inr rfl)) []) cut with
    (ends | ⟨other, found⟩) | ⟨behind, rest, rfl, found⟩
  · exact bind_error ends _
  · rw [bind_ok found]
    rfl
  · rw [bind_ok found]
    exact (wants_expect _).map _ _ rest

end TaskMonitor.Json
