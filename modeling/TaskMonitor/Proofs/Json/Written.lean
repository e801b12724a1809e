import TaskMonitor.Json.Document
import TaskMonitor.Json.Typed
import TaskMonitor.Proofs.Json.Numeral
import TaskMonitor.Proofs.Json.Quoted

/-! Readers and the documents they are made for. A reader that takes a document takes its
written form off the front of a text and leaves the rest. -/

set_option autoImplicit false

namespace TaskMonitor.Json

open Utf8 (encode_nil encode_cons encode_append)

variable {σ α β : Type}

/-- A reader gives a value for a written document, whatever follows the document. -/
def Reads (reader : Reader α) (document : Document) (value : α) : Prop :=
  ∀ rest, Stops rest → reader (Utf8.encode document.compact ++ rest) = .ok (value, rest)

/-- The first bytes of values other than `null`. -/
def Opening (byte : Byte) : Prop := ¬ isBlank byte ∧ byte ≠ 0x6E ∧ byte ≠ Token.closeList

def Opens (document : Document) : Prop :=
  ∃ byte more, Utf8.encode document.compact = byte :: more ∧ Opening byte

theorem peek_cons {byte : Byte} (solid : ¬ isBlank byte) (rest : Bytes) :
    peek (byte :: rest) = .ok (byte, byte :: rest) := by
  rw [peek, skipBlanks, List.dropWhile_cons_of_neg solid]

theorem expect_cons {byte : Byte} (solid : ¬ isBlank byte) (rest : Bytes) :
    expect byte (byte :: rest) = .ok ((), rest) := by
  rw [expect, bind_ok (peek_cons solid rest), if_pos rfl]
  rfl

theorem literal_append (word rest : Bytes) : literal word (word ++ rest) = .ok ((), rest) := by
  induction word with
  | nil => rfl
  | cons letter word ih => rw [List.cons_append, literal, if_pos rfl, ih]

theorem Reads.read {reader : Reader α} {document : Document} {value : α}
    (reads : Reads reader document value) :
    Json.read reader (Utf8.encode document.compact) = .ok value := by
  have found := reads [] stops_nil
  rw [List.append_nil] at found
  rw [Json.read, found]
  rfl

theorem Reads.map {reader : Reader α} {document : Document} {value : α}
    (reads : Reads reader document value) (make : α → β) :
    Reads (reader >>= fun value => pure (make value)) document (make value) := by
  intro rest stops
  rw [bind_ok (reads rest stops)]
  rfl

theorem Reads.present {reader : Reader α} {document : Document} {value : α}
    (reads : Reads reader document value) : Reads (present reader) document (some value) :=
  reads.map some

/-! ## Integers -/

theorem opening_numeral {byte : Byte} (starts : byte = Token.minus ∨ isDigit byte) :
    Opening byte := by
  rcases starts with rfl | digit
  · exact ⟨by decide, by decide, by decide⟩
  · simp only [isDigit, decide_eq_true_eq, UInt8.le_iff_toNat_le, UInt8.reduceToNat] at digit
    simp only [Opening, isBlank, Token.closeList, decide_eq_true_eq, ne_eq, ← UInt8.toNat_inj,
      UInt8.reduceToNat]
    omega

theorem numeral_head (n : Int) : ∃ byte more,
    Utf8.encode (Number.signedDigits n) = byte :: more ∧ (byte = Token.minus ∨ isDigit byte) := by
  obtain ⟨first, more, spelled⟩ := spelled_digits n.natAbs
  unfold Number.signedDigits
  split
  · exact ⟨_, _, encode_cons _ _, .inl rfl⟩
  · exact ⟨first, more, spelled.bytes, .inr (spelled.each first List.mem_cons_self)⟩

theorem opens_integer (n : Int) : Opens (.integer n) := by
  obtain ⟨byte, more, bytes, starts⟩ := numeral_head n
  exact ⟨byte, more, bytes, opening_numeral starts⟩

theorem reads_integer {least most n : Int} (range : InRange n) (low : least ≤ n)
    (high : n ≤ most) : Reads (integer least most) (.integer n) n := by
  intro rest stops
  obtain ⟨byte, more, bytes, starts⟩ := numeral_head n
  have found := numeral_signedDigits range stops
  change integer least most (Utf8.encode (Number.signedDigits n) ++ rest) = _
  rw [bytes, List.cons_append] at found ⊢
  rw [integer, bind_ok (peek_cons (opening_numeral starts).1 _), if_pos starts, bind_ok found]
  change (if least ≤ n ∧ n ≤ most then pure n else throw .mismatch : Reader Int) rest = _
  rw [if_pos ⟨low, high⟩]
  rfl

theorem inRange_of_le {n : Int} (low : -0x8000000000000000 ≤ n) (high : n ≤ 0xFFFFFFFFFFFFFFFF) :
    InRange n :=
  ⟨low, Int.lt_of_le_of_lt high (by decide)⟩

theorem reads_uint32 (n : UInt32) : Reads uint32 (.integer n.toNat) n := by
  have most : (n.toNat : Int) ≤ (UInt32.size : Int) - 1 := by
    have below := n.toNat_lt_size
    omega
  have range : InRange n.toNat := inRange_of_le (by omega) (Int.le_trans most (by decide))
  have reads := (reads_integer range (Int.natCast_nonneg _) most).map fun n => UInt32.ofNat n.toNat
  rwa [Int.toNat_natCast, UInt32.ofNat_toNat] at reads

theorem reads_uint64 (n : UInt64) : Reads uint64 (.integer n.toNat) n := by
  have most : (n.toNat : Int) ≤ (UInt64.size : Int) - 1 := by
    have below := n.toNat_lt_size
    omega
  have range : InRange n.toNat := inRange_of_le (by omega) most
  have reads := (reads_integer range (Int.natCast_nonneg _) most).map fun n => UInt64.ofNat n.toNat
  rwa [Int.toNat_natCast, UInt64.ofNat_toNat] at reads

theorem reads_int32 (n : Int32) : Reads int32 (.integer n.toInt) n := by
  have low := n.minValue_le_toInt
  have high := n.toInt_le
  have range := inRange_of_le (Int.le_trans (by decide) low) (Int.le_trans high (by decide))
  have reads := (reads_integer range low high).map Int32.ofInt
  rwa [Int32.ofInt_toInt] at reads

/-! ## Words and texts -/

theorem reads_bool (value : Bool) : Reads bool (.bool value) value := by
  intro rest _
  cases value with
  | true =>
    change bool (yes ++ rest) = _
    have first : peek (yes ++ rest) = .ok (0x74, yes ++ rest) := peek_cons (by decide) _
    rw [bool, bind_ok first, if_pos rfl, bind_ok (literal_append yes rest)]
    rfl
  | false =>
    change bool (no ++ rest) = _
    have first : peek (no ++ rest) = .ok (0x66, no ++ rest) := peek_cons (by decide) _
    rw [bool, bind_ok first, if_neg (by decide), if_pos rfl, bind_ok (literal_append no rest)]
    rfl

theorem reads_null (reader : Reader α) : Reads (nullable reader) .null none := by
  intro rest _
  change nullable reader (null ++ rest) = _
  have first : peek (null ++ rest) = .ok (0x6E, null ++ rest) := peek_cons (by decide) _
  rw [nullable, bind_ok first, if_pos rfl, bind_ok (literal_append null rest)]
  rfl

theorem Reads.nullable {reader : Reader α} {document : Document} {value : α}
    (opens : Opens document) (reads : Reads reader document value) :
    Reads (nullable reader) document (some value) := by
  intro rest stops
  obtain ⟨byte, more, bytes, solid, someValue, _⟩ := opens
  have found := reads rest stops
  rw [bytes, List.cons_append] at found ⊢
  rw [Json.nullable, bind_ok (peek_cons solid _), if_neg someValue, bind_ok found]
  rfl

theorem reads_ofOption {reader : Reader α} {write : α → Document}
    (opens : ∀ value, Opens (write value)) (reads : ∀ value, Reads reader (write value) value)
    (value : Option α) : Reads (nullable reader) (.ofOption write value) value := by
  cases value with
  | none => exact reads_null reader
  | some value => exact (reads value).nullable (opens value)

theorem reads_uint32? (value : Option UInt32) :
    Reads (nullable uint32) (.ofOption (fun n => .integer n.toNat) value) value := by
  apply reads_ofOption
  · intro n
    exact opens_integer n.toNat
  · exact reads_uint32

theorem reads_uint64? (value : Option UInt64) :
    Reads (nullable uint64) (.ofOption (fun n => .integer n.toNat) value) value := by
  apply reads_ofOption
  · intro n
    exact opens_integer n.toNat
  · exact reads_uint64

theorem reads_int32? (value : Option Int32) :
    Reads (nullable int32) (.ofOption (fun n => .integer n.toInt) value) value := by
  apply reads_ofOption
  · intro n
    exact opens_integer n.toInt
  · exact reads_int32

theorem opens_text (value : String) : Opens (.text value) :=
  ⟨Token.quote, _, rfl, by decide, by decide, by decide⟩

theorem encode_quote (value : String) (rest : Bytes) :
    Utf8.encode (quote value) ++ rest = Token.quote ::
      (Utf8.encode (value.toList.flatMap escapeChar) ++ Token.quote :: rest) := by
  rw [quote, encode_append, encode_cons, List.append_assoc, List.append_assoc]
  rfl

theorem text_quote (value : String) (rest : Bytes) :
    text (Utf8.encode (quote value) ++ rest) = .ok (value, rest) := by
  rw [encode_quote, text, bind_ok (peek_cons (by decide) _), if_pos rfl]
  exact quoted_quote value rest

theorem reads_text (value : String) : Reads text (.text value) value :=
  fun rest _ => text_quote value rest

theorem reads_text? (value : Option String) :
    Reads (nullable text) (.ofOption .text value) value :=
  reads_ofOption opens_text reads_text value

end TaskMonitor.Json
