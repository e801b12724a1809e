import Mathlib.Data.List.TakeDrop
import TaskMonitor.Json.Numeral
import TaskMonitor.Number.Digits
import TaskMonitor.Proofs.Text.Utf8

/-! Integers in the 64-bit ranges are read back from their digits. -/

set_option autoImplicit false

namespace TaskMonitor.Json

open Utf8 (encode_nil encode_cons encode_append)

variable {α β : Type}

theorem bind_ok {reader : Reader α} {text rest : Bytes} {value : α}
    (found : reader text = .ok (value, rest)) (next : α → Reader β) :
    (reader >>= next) text = next value rest := by
  change Except.bind (reader text) _ = _
  rw [found]
  rfl

theorem digitChar_byte : ∀ digit < 10, ∃ byte,
    String.utf8EncodeChar (Nat.digitChar digit) = [byte] ∧ isDigit byte ∧
      digitValue byte = digit ∧ (byte = 0x30 → digit = 0) := by
  intro digit small
  refine ⟨UInt8.ofNat (0x30 + digit), ?_⟩
  revert digit
  decide

theorem Significand.read_append (start : Nat) (front : Bytes) (digit : Byte) :
    Significand.read start (front ++ [digit]) = (Significand.read start front).add digit := by
  rw [Significand.read, List.foldl_append]
  rfl

/-- The bytes of the digits of a number: they spell it, and a zero in front stands alone. -/
structure Spelled (n : Nat) (first : Byte) (more : Bytes) : Prop where
  bytes : Utf8.encode (Number.digits n) = first :: more
  each : ∀ byte ∈ first :: more, isDigit byte
  zero : first = 0x30 → n = 0 ∧ more = []
  value : n < UInt64.size →
    Significand.read (digitValue first) more = { value := n, used := more.length }

theorem spelled_digits (n : Nat) : ∃ first more, Spelled n first more := by
  -- On the number without its last digit, which is how digits are written and read.
  induction n using Nat.strongRecOn with
  | ind n ih =>
    obtain ⟨byte, last, digit, meant, zero⟩ := digitChar_byte (n % 10) (by omega)
    by_cases small : n < 10
    · rw [Nat.mod_eq_of_lt small] at last meant zero
      refine ⟨byte, [], ?_, ?_, fun same => ⟨zero same, rfl⟩, fun _ => ?_⟩
      · rw [Number.digits, Nat.toDigits_of_lt_base small, encode_cons, encode_nil, last]
        rfl
      · simpa using digit
      · rw [meant]
        rfl
    · obtain ⟨first, more, spelled⟩ := ih (n / 10) (by omega)
      refine ⟨first, more ++ [byte], ?_, ?_, fun same => ?_, fun fits => ?_⟩
      · rw [Number.digits, Nat.toDigits_of_base_le (by decide) (by omega), encode_append,
          ← Number.digits, spelled.bytes, encode_cons, encode_nil, last]
        rfl
      · rw [← List.cons_append]
        intro other member
        rcases List.mem_append.mp member with before | same
        · exact spelled.each other before
        · rw [List.mem_singleton.mp same]
          exact digit
      -- A zero in front would stand alone.
      · have none := (spelled.zero same).1
        omega
      · have whole : n / 10 * 10 + n % 10 = n := by omega
        rw [Significand.read_append, spelled.value (by omega), Significand.add, meant]
        simp only [whole, fits, and_self, ↓reduceIte, List.length_append, List.length_singleton]

/-- What may follow a written value: the end of the text, a comma, a closing bracket or a blank. -/
def Stops (rest : Bytes) : Prop :=
  ∀ byte ∈ rest.head?,
    byte = Token.comma ∨ byte = Token.closeList ∨ byte = Token.closeObject ∨ isBlank byte

theorem stops_nil : Stops [] := by
  intro byte member
  cases member

theorem stops_cons {byte : Byte}
    (stop : byte = Token.comma ∨ byte = Token.closeList ∨ byte = Token.closeObject)
    (rest : Bytes) : Stops (byte :: rest) := by
  intro head same
  cases same
  rcases stop with comma | list | object
  · exact .inl comma
  · exact .inr (.inl list)
  · exact .inr (.inr (.inl object))

theorem isBlank_iff {byte : Byte} :
    isBlank byte ↔ byte = 0x20 ∨ byte = 0x09 ∨ byte = 0x0A ∨ byte = 0x0D := by
  simp [isBlank]

theorem Stops.not_digit {byte : Byte} {rest : Bytes} (stops : Stops (byte :: rest)) :
    isDigit byte = false ∧ byte ≠ Token.point ∧ isExponentMark byte = false := by
  rcases stops byte rfl with rfl | rfl | rfl | blank
  · decide
  · decide
  · decide
  · rcases isBlank_iff.mp blank with rfl | rfl | rfl | rfl <;> decide

def NoDigit (rest : Bytes) : Prop := ∀ byte ∈ rest.head?, isDigit byte = false

theorem span_digits {digits rest : Bytes} (each : ∀ byte ∈ digits, isDigit byte)
    (ends : NoDigit rest) : (digits ++ rest).span isDigit = (digits, rest) := by
  have none : rest.takeWhile isDigit = [] ∧ rest.dropWhile isDigit = rest := by
    cases rest with
    | nil => exact ⟨rfl, rfl⟩
    | cons byte rest => simp [ends byte rfl]
  rw [List.span_eq_takeWhile_dropWhile, List.takeWhile_append_of_pos each,
    List.dropWhile_append_of_pos each, none.1, none.2, List.append_nil]

theorem Stops.noDigit {rest : Bytes} (stops : Stops rest) : NoDigit rest := by
  intro byte head
  cases rest with
  | nil => cases head
  | cons first rest =>
    cases head
    exact stops.not_digit.1

theorem digits_stops {digits rest : Bytes} (each : ∀ byte ∈ digits, isDigit byte)
    (stops : Stops rest) : Json.digits (digits ++ rest) = .ok (digits, rest) := by
  rw [Json.digits, span_digits each stops.noDigit]

theorem numeralTail_stops {negative : Bool} {whole : Significand} {rest : Bytes}
    (stops : Stops rest) :
    numeralTail negative whole rest = wholeNumeral negative whole rest := by
  rw [numeralTail, bind_ok rfl]
  cases rest with
  | nil => rfl
  | cons byte rest =>
    obtain ⟨_, noPoint, noMark⟩ := stops.not_digit
    simp only [List.head?_cons, noPoint, noMark, ↓reduceIte, Bool.false_eq_true]

theorem unsignedNumeral_spelled {n : Nat} {first : Byte} {more rest : Bytes}
    (spelled : Spelled n first more) (fits : n < UInt64.size) (stops : Stops rest)
    (negative : Bool) :
    unsignedNumeral negative (first :: more ++ rest) =
      wholeNumeral negative { value := n, used := more.length } rest := by
  rw [unsignedNumeral, List.cons_append, bind_ok rfl]
  by_cases zero : first = 0x30
  · obtain ⟨rfl, rfl⟩ := spelled.zero zero
    rw [if_pos zero, bind_ok rfl, List.nil_append]
    cases rest with
    | nil => exact numeralTail_stops stops
    | cons byte rest =>
      simp only [List.head?_cons, stops.not_digit.1, ↓reduceIte, Bool.false_eq_true]
      exact numeralTail_stops stops
  · have digit : isDigit first := spelled.each first List.mem_cons_self
    have each : ∀ byte ∈ more, isDigit byte := fun byte member =>
      spelled.each byte (List.mem_cons_of_mem _ member)
    rw [if_neg zero, if_pos digit, bind_ok (digits_stops each stops), spelled.value fits]
    exact numeralTail_stops stops

def InRange (n : Int) : Prop := Int64.minValue.toInt ≤ n ∧ n < UInt64.size

theorem numeral_signedDigits {n : Int} (range : InRange n) {rest : Bytes} (stops : Stops rest) :
    numeral (Utf8.encode (Number.signedDigits n) ++ rest) = .ok (.integer n, rest) := by
  have least : Int64.minValue.toInt = -0x8000000000000000 := rfl
  have most : UInt64.size = 0x10000000000000000 := rfl
  obtain ⟨low, high⟩ := range
  obtain ⟨first, more, spelled⟩ := spelled_digits n.natAbs
  have fits : n.natAbs < UInt64.size := by omega
  rw [Number.signedDigits, numeral]
  by_cases negative : n < 0
  · have value : (-(n.natAbs : Int)) = n := by omega
    have within : ¬ (n.natAbs = 0 ∨ Int64.minValue.toInt.natAbs < n.natAbs) := by omega
    rw [if_pos negative, encode_cons, spelled.bytes]
    change unsignedNumeral true (first :: more ++ rest) = _
    rw [unsignedNumeral_spelled spelled fits stops, wholeNumeral, if_neg (Nat.lt_irrefl 0),
      if_pos rfl, if_neg within, value]
    rfl
  · have value : (n.natAbs : Int) = n := by omega
    have unsigned : first ≠ Token.minus := by
      have digit : isDigit first := spelled.each first List.mem_cons_self
      rintro rfl
      exact absurd digit (by decide)
    rw [if_neg negative, spelled.bytes, bind_ok rfl, if_neg (by simpa using unsigned),
      unsignedNumeral_spelled spelled fits stops, wholeNumeral,
      if_neg (Nat.lt_irrefl 0), if_neg Bool.false_ne_true,
      value]
    rfl

end TaskMonitor.Json
