import Mathlib.Data.List.Induction
import TaskMonitor.Proofs.Json.Token

/-! Integers as JSON has them, of any number of digits. A reader for integers finds the exact value
of each in the 64-bit ranges, and no integer in any other number. -/

set_option autoImplicit false

namespace TaskMonitor.Json

/-! ## Values of digits -/

def Digits.spell (start : Nat) (digits : Bytes) : Nat :=
  digits.foldl (fun value digit => value * 10 + digitValue digit) start

def Digits.value (digits : Digits) : Nat := Digits.spell (digitValue digits.first) digits.more

theorem Digits.spell_append (start : Nat) (front : Bytes) (digit : Byte) :
    Digits.spell start (front ++ [digit]) = Digits.spell start front * 10 + digitValue digit := by
  simp only [Digits.spell, List.foldl_append, List.foldl_cons, List.foldl_nil]

theorem Digits.spell_cons (start : Nat) (digit : Byte) (more : Bytes) :
    Digits.spell start (digit :: more) = Digits.spell (start * 10 + digitValue digit) more := by
  simp only [Digits.spell, List.foldl_cons]

theorem Digits.le_spell (start : Nat) (digits : Bytes) : start ≤ Digits.spell start digits := by
  induction digits generalizing start with
  | nil => exact Nat.le_refl _
  | cons digit digits ih =>
    have later := ih (start * 10 + digitValue digit)
    rw [Digits.spell_cons]
    omega

/-- Digits are used as long as their number fits 64 bits, and left out from there on. -/
theorem Significand.read_spec {start : Nat} (fits : start < UInt64.size) (digits : Bytes) :
    (Digits.spell start digits < UInt64.size →
      Significand.read start digits =
        { value := Digits.spell start digits, used := digits.length }) ∧
      (UInt64.size ≤ Digits.spell start digits → 0 < (Significand.read start digits).unused) := by
  -- From the back, as a digit counts only if all before it do.
  induction digits using List.reverseRecOn with
  | nil => exact ⟨fun _ => rfl, fun large => absurd fits (Nat.not_lt.mpr large)⟩
  | append_singleton front digit ih =>
    rw [Significand.read_append, Digits.spell_append, List.length_append, List.length_singleton]
    by_cases small : Digits.spell start front < UInt64.size
    · rw [ih.1 small]
      constructor
      · intro fits
        simp only [Significand.add, fits, and_self, ↓reduceIte]
      · intro large
        simp only [Significand.add, Nat.not_lt.mpr large, and_false, ↓reduceIte]
        exact Nat.succ_pos _
    · have left := ih.2 (Nat.not_lt.mp small)
      constructor
      · intro fits
        omega
      · intro _
        simp only [Significand.add, Nat.ne_of_gt left, false_and, ↓reduceIte]
        exact Nat.succ_pos _

theorem digitValue_lt (byte : Byte) : digitValue byte < UInt64.size := by
  have small := byte.toNat_lt
  have size : UInt64.size = 0x10000000000000000 := rfl
  rw [digitValue, size]
  omega

theorem Digits.value_eq_zero (digits : Digits) (zero : digits.first = 0x30 → digits.more = []) :
    digits.value = 0 ↔ digits.first = 0x30 := by
  obtain ⟨first, more, each⟩ := digits
  constructor
  · intro none
    have least : digitValue first ≤ Digits.spell (digitValue first) more := Digits.le_spell _ _
    have digit : isDigit first := each first List.mem_cons_self
    simp only [isDigit, decide_eq_true_eq, UInt8.le_iff_toNat_le, UInt8.reduceToNat] at digit
    apply UInt8.toNat_inj.mp
    change first.toNat = 0x30
    change Digits.spell (digitValue first) more = 0 at none
    simp only [digitValue] at least none
    omega
  · intro same
    have first : first = 0x30 := same
    have more : more = [] := zero same
    subst first more
    rfl

/-! ## Integers among numbers -/

/-- An integer: a number without a fraction and an exponent, and not minus zero. -/
structure Decimal.Whole (decimal : Decimal) : Prop where
  fraction : decimal.fraction = none
  exponent : decimal.exponent = none
  zero : decimal.negative → decimal.whole.first ≠ 0x30

def Decimal.integer (decimal : Decimal) : Int :=
  if decimal.negative then -decimal.whole.value else decimal.whole.value

def NoInteger (reader : Reader Numeral) : Prop :=
  ∀ text value left, reader text ≠ .ok (.integer value, left)

theorem NoInteger.after {α : Type} (reader : Reader α) {next : α → Reader Numeral}
    (later : ∀ value, NoInteger (next value)) : NoInteger (reader >>= next) := by
  intro text value left found
  obtain ⟨first, _, _, found⟩ := bind_eq_ok.mp found
  exact later first _ _ _ found

theorem NoInteger.ite {condition : Prop} [Decidable condition] {first second : Reader Numeral}
    (left : NoInteger first) (right : NoInteger second) :
    NoInteger (if condition then first else second) := by
  split
  · exact left
  · exact right

theorem noInteger_throw (fault : Fault) : NoInteger (throw fault) := fun _ _ _ => throw_ne_ok

theorem noInteger_fault {α : Type} (fault : Fault) (next : α → Reader Numeral) :
    NoInteger (throw fault >>= next) := by
  intro text value left found
  obtain ⟨_, _, first, _⟩ := bind_eq_ok.mp found
  exact throw_ne_ok first

theorem noInteger_otherNumeral (value : Nat) (exponent : Int) :
    NoInteger (otherNumeral value exponent) := by
  refine .ite (noInteger_throw _) ?_
  intro text value left found
  cases (pure_eq_ok.mp found).1

theorem noInteger_exponentTail (value : Nat) (exponent : Int) :
    NoInteger (exponentTail value exponent) := by
  have power : ∀ mark : Option Byte, NoInteger (do
      let first ← take
      if isDigit first then
        let power := (first :: (← digits)).foldl (fun n digit => n * 10 + digitValue digit) 0
        otherNumeral value (if mark = some Token.minus then exponent - power else exponent + power)
      else throw .malformed) := fun mark =>
    .after _ fun first =>
      .ite (.after _ fun _ => noInteger_otherNumeral _ _) (noInteger_throw _)
  refine .after _ fun mark => ?_
  exact .ite (.after _ fun _ => power mark) (power mark)

theorem noInteger_fractionTail (value : Nat) (exponent : Int) :
    NoInteger (fractionTail value exponent) := by
  refine .after _ fun fraction => ?_
  refine .ite (.after _ fun _ => noInteger_fault _ _) (.after _ fun next => ?_)
  cases next with
  | none => exact noInteger_otherNumeral _ _
  | some byte =>
    exact .ite (.after _ fun _ => noInteger_exponentTail _ _) (noInteger_otherNumeral _ _)

theorem wholeNumeral_eq_ok_iff (negative : Bool) (digits : Digits)
    (zero : digits.first = 0x30 → digits.more = []) {text left : Bytes} {n : Int} :
    wholeNumeral negative (Significand.read (digitValue digits.first) digits.more) text =
        .ok (.integer n, left) ↔
      left = text ∧ (negative → digits.first ≠ 0x30) ∧
        (if negative then -(digits.value : Int) else digits.value) = n ∧ InRange n := by
  have least : Int64.minValue.toInt = -0x8000000000000000 := rfl
  have most : UInt64.size = 0x10000000000000000 := rfl
  have some : digits.first ≠ 0x30 ↔ digits.value ≠ 0 := not_congr (digits.value_eq_zero zero).symm
  obtain ⟨small, large⟩ := Significand.read_spec (digitValue_lt digits.first) digits.more
  rw [← Digits.value] at small large
  by_cases fits : digits.value < UInt64.size
  · rw [small fits, wholeNumeral, if_neg (Nat.lt_irrefl 0), InRange, some]
    cases negative with
    | true =>
      simp only [↓reduceIte, pure_eq_ok, forall_const]
      split
      · next outside =>
        constructor
        · rintro ⟨found, _⟩
          cases found
        · rintro ⟨_, some, rfl, low, _⟩
          omega
      · next inside =>
        simp only [Numeral.integer.injEq]
        constructor
        · rintro ⟨rfl, rfl⟩
          refine ⟨rfl, ?_⟩
          omega
        · rintro ⟨rfl, _, rfl, _⟩
          exact ⟨rfl, rfl⟩
    | false =>
      simp only [Bool.false_eq_true, ↓reduceIte, pure_eq_ok, Numeral.integer.injEq, false_implies,
        true_and]
      constructor
      · rintro ⟨rfl, rfl⟩
        refine ⟨rfl, rfl, ?_⟩
        omega
      · rintro ⟨rfl, rfl, _⟩
        exact ⟨rfl, rfl⟩
  · -- With a digit left out it is a double, so it is enough that it is out of range.
    rw [wholeNumeral, if_pos (large (Nat.not_lt.mp fits))]
    constructor
    · intro found
      exact absurd found (noInteger_otherNumeral _ _ _ _ _)
    · rintro ⟨_, _, same, low, high⟩
      cases negative <;> simp only [Bool.false_eq_true, ↓reduceIte] at same <;> omega

theorem numeralTail_eq_ok_iff (decimal : Decimal) {rest left : Bytes} (stops : Stops rest)
    {n : Int} :
    numeralTail decimal.negative
        (Significand.read (digitValue decimal.whole.first) decimal.whole.more)
        (decimal.tail ++ rest) = .ok (.integer n, left) ↔
      left = rest ∧ decimal.Whole ∧ decimal.integer = n ∧ InRange n := by
  obtain ⟨negative, whole, fraction, exponent, zero⟩ := decimal
  cases fraction with
  | some digits =>
    change numeralTail negative _ (Token.point :: _) = _ ↔ _
    rw [numeralTail, bind_ok rfl, List.head?_cons]
    simp only [↓reduceIte]
    refine iff_of_false (NoInteger.after _ (fun _ => noInteger_fractionTail _ _) _ _ _) ?_
    rintro ⟨_, ⟨fraction, _, _⟩, _⟩
    cases fraction
  | none =>
    cases exponent with
    | some exponent =>
      have noPoint := (head_exponent (some exponent) stops exponent.mark rfl).2
      change numeralTail negative _ (exponent.mark :: _) = _ ↔ _
      rw [numeralTail, bind_ok rfl, List.head?_cons]
      simp only [noPoint, exponent.marks, ↓reduceIte]
      refine iff_of_false (NoInteger.after _ (fun _ => noInteger_exponentTail _ _) _ _ _) ?_
      rintro ⟨_, ⟨_, exponent, _⟩, _⟩
      cases exponent
    | none =>
      change numeralTail negative _ rest = _ ↔ _
      rw [numeralTail_stops stops, wholeNumeral_eq_ok_iff negative whole zero]
      constructor
      · rintro ⟨same, signed, value, range⟩
        exact ⟨same, ⟨rfl, rfl, signed⟩, value, range⟩
      · rintro ⟨same, whole, value, range⟩
        exact ⟨same, whole.zero, value, range⟩

theorem unsignedNumeral_bytes (digits : Digits) (zero : digits.first = 0x30 → digits.more = [])
    {text : Bytes} (ends : NoDigit text) (negative : Bool) :
    unsignedNumeral negative (digits.bytes ++ text) =
      numeralTail negative (Significand.read (digitValue digits.first) digits.more) text := by
  obtain ⟨first, more, each⟩ := digits
  change unsignedNumeral negative (first :: (more ++ text)) = _
  rw [unsignedNumeral, bind_ok rfl]
  by_cases none : first = 0x30
  · have single : more = [] := zero none
    subst none single
    rw [if_pos rfl, bind_ok rfl]
    cases text with
    | nil => rfl
    | cons byte text =>
      have noDigit := ends byte rfl
      simp only [List.nil_append, List.head?_cons, noDigit, Bool.false_eq_true, ↓reduceIte]
      rfl
  · have digit : isDigit first := each first List.mem_cons_self
    have span := span_digits (fun byte member => each byte (List.mem_cons_of_mem _ member)) ends
    have read : Json.digits (more ++ text) = .ok (more, text) := by rw [Json.digits, span]
    rw [if_neg none, if_pos digit, bind_ok read]

/-- A number is read as an integer exactly if it is one in the 64-bit ranges, and as the exact one,
however many digits it has. -/
theorem numeral_eq_ok_iff (decimal : Decimal) {rest left : Bytes} (stops : Stops rest) {n : Int} :
    numeral (decimal.bytes ++ rest) = .ok (.integer n, left) ↔
      left = rest ∧ decimal.Whole ∧ decimal.integer = n ∧ InRange n := by
  have first := digit_not_sign (decimal.whole.each decimal.whole.first List.mem_cons_self)
  rw [not_or] at first
  have tail := unsignedNumeral_bytes decimal.whole decimal.zero (noDigit_tail decimal stops)
    decimal.negative
  rw [← numeralTail_eq_ok_iff decimal stops, ← tail]
  cases sign : decimal.negative with
  | true =>
    rw [Decimal.bytes, sign, if_pos rfl, List.append_assoc, List.append_assoc, numeral,
      bind_ok rfl]
    rfl
  | false =>
    have unsigned : some decimal.whole.first ≠ some Token.minus := by
      simpa using first.2
    rw [Decimal.bytes, sign, if_neg Bool.false_ne_true, List.append_assoc, List.append_assoc]
    change numeral (decimal.whole.first :: _) = _ ↔ _
    rw [numeral, bind_ok rfl, List.head?_cons, if_neg unsigned]
    rfl

end TaskMonitor.Json
