import Mathlib.Data.List.DropRight
import TaskMonitor.Proofs.Json.Compact

/-! Doubles as they are written. Their digits make a number of the grammar, in each of its forms. -/

set_option autoImplicit false

namespace TaskMonitor

def Number.Binary64.Finite (x : Number.Binary64) : Prop :=
  ∃ negative significand exponent, x.value = .finite negative significand exponent

namespace Json

open Number (Neighbourhood)
open Utf8 (encode_nil encode_cons encode_append)

/-! ## Digits -/

structure Leading (chars : List Char) : Prop where
  some : chars ≠ []
  each : ∀ c ∈ chars, c.isDigit
  head : chars.head? ≠ '0'

theorem leading_digits {n : Nat} (positive : 0 < n) : Leading (Number.digits n) := by
  obtain ⟨first, more, spelled⟩ := spelled_digits n
  have bytes := spelled.bytes
  refine ⟨?_, fun c => Nat.isDigit_of_mem_toDigits (by decide) (by decide), ?_⟩
  · intro none
    rw [none] at bytes
    cases bytes
  · intro head
    obtain ⟨rest, shape⟩ := List.head?_eq_some_iff.mp head
    rw [shape, encode_cons] at bytes
    have zero : first = 0x30 := (List.cons.inj bytes).1.symm
    exact Nat.ne_of_gt positive (spelled.zero zero).1

theorem Leading.trim {chars : List Char} (leading : Leading chars) :
    Leading (chars.rdropWhile (· = '0')) := by
  obtain ⟨some, each, head⟩ := leading
  obtain ⟨c, rest, rfl⟩ := List.exists_cons_of_ne_nil some
  have kept : (c :: rest).rdropWhile (· = '0') ≠ [] := by
    intro none
    have zero := List.rdropWhile_eq_nil_iff.mp none c List.mem_cons_self
    exact head (congrArg Option.some (of_decide_eq_true zero))
  have front := List.rdropWhile_prefix (· = '0') (l := c :: rest)
  refine ⟨kept, fun other member => each other (front.mem member), ?_⟩
  obtain ⟨first, more, shape⟩ := List.exists_cons_of_ne_nil kept
  rw [shape] at front ⊢
  rwa [List.head?_cons, (List.cons_prefix_cons.mp front).1]

/-! ## The shortest digits -/

theorem contains_pos {near : Neighbourhood} (positive : 0 < near.lower) {x : Nat}
    (contains : near.contains x) : 0 < x := by
  unfold Neighbourhood.contains at contains
  split at contains <;> simp only [decide_eq_true_eq] at contains <;> omega

theorem multiple?_pos {near : Neighbourhood} (positive : 0 < near.lower) {step multiple : Nat}
    (found : near.multiple? step = some multiple) : 0 < multiple := by
  have below : near.contains (near.value / step * step) → 0 < near.value / step := fun contains =>
    Nat.pos_of_mul_pos_right (contains_pos positive contains)
  unfold Neighbourhood.multiple? at found
  simp only at found
  split at found
  · cases found
  · next inside _ =>
    cases found
    exact below inside
  · cases found
    exact Nat.succ_pos _
  · next inside _ =>
    cases found
    split
    · exact below inside
    · exact Nat.succ_pos _

/-- The power as the unit has it, with places too many to multiply out. -/
theorem scale_pos (places : Nat) : 0 < Nat.pow 2 places := Nat.two_pow_pos places

theorem leading_search {near : Neighbourhood} (lower : 0 < near.lower)
    (value : Nat.pow 2 Number.binaryPlaces ≤ near.value) (length left : Nat) :
    Leading (near.search length left).digits := by
  induction left with
  | zero => exact leading_digits (Nat.div_pos value (scale_pos _))
  | succ left ih =>
    simp only [Neighbourhood.search]
    split
    · next found => exact leading_digits (multiple?_pos lower found)
    · exact ih

/-- The unit is smaller than every double, and so is the place of the last digit. -/
theorem near_of {significand : Nat} (positive : 0 < significand) (exponent : Int) :
    let near := Neighbourhood.of significand exponent
    0 < near.lower ∧ Nat.pow 2 Number.binaryPlaces ≤ near.value := by
  have small : Nat.pow 2 Number.binaryPlaces ≤ Nat.pow 10 Number.decimalPlaces := by
    decide +kernel
  have unit := scale_pos Number.binaryPlaces
  have scale := scale_pos (exponent - 2 + Number.binaryPlaces).toNat
  simp only [Neighbourhood.of]
  generalize Nat.pow 2 (exponent - 2 + Number.binaryPlaces).toNat = scale' at scale ⊢
  generalize Nat.pow 2 Number.binaryPlaces = unit' at small unit ⊢
  generalize Nat.pow 10 Number.decimalPlaces = places at small ⊢
  have quarter : 0 < scale' * places := Nat.mul_pos scale (Nat.lt_of_lt_of_le unit small)
  refine ⟨Nat.mul_pos ?_ quarter, ?_⟩
  · split <;> omega
  · calc unit'
      _ ≤ places := small
      _ ≤ scale' * places := Nat.le_mul_of_pos_left _ scale
      _ ≤ 4 * significand * (scale' * places) := Nat.le_mul_of_pos_left _ (by omega)

theorem leading_shortest {significand : Nat} (positive : 0 < significand) (exponent : Int) :
    Leading (Number.shortest significand exponent).digits :=
  have near := near_of positive exponent
  (leading_search near.1 near.2 _ _).trim

/-! ## Numbers -/

def digitByte (c : Char) : Byte := UInt8.ofNat c.toNat

theorem digitByte_spec {c : Char} (digit : c.isDigit) :
    String.utf8EncodeChar c = [digitByte c] ∧ isDigit (digitByte c) ∧
      (digitByte c = 0x30 → c = '0') := by
  obtain ⟨low, high⟩ := Char.isDigit_iff_toNat.mp digit
  have zero : '0'.toNat = 48 := rfl
  have nine : '9'.toNat = 57 := rfl
  have value : (digitByte c).toNat = c.toNat := Utf8.byte_toNat (by omega)
  refine ⟨Utf8.encodeChar_one (by omega), ?_, fun same => Char.toNat_inj.mp ?_⟩
  · simp only [isDigit, decide_eq_true_eq, UInt8.le_iff_toNat_le, value, UInt8.reduceToNat]
    omega
  · rw [← value, same]
    rfl

theorem exists_digits {chars : List Char} (some : chars ≠ []) (each : ∀ c ∈ chars, c.isDigit) :
    ∃ digits : Digits, digits.bytes = Utf8.encode chars ∧
      (digits.first = 0x30 → chars.head? = '0') := by
  have bytes : Utf8.encode chars = chars.map digitByte := by
    rw [List.map_eq_flatMap]
    exact List.flatMap_congr fun c member => (digitByte_spec (each c member)).1
  have digit : ∀ byte ∈ chars.map digitByte, isDigit byte := by
    intro byte member
    obtain ⟨c, among, rfl⟩ := List.mem_map.mp member
    exact (digitByte_spec (each c among)).2.1
  obtain ⟨c, rest, rfl⟩ := List.exists_cons_of_ne_nil some
  refine ⟨⟨digitByte c, rest.map digitByte, digit⟩, bytes.symm, fun zero => ?_⟩
  exact congrArg Option.some ((digitByte_spec (each c List.mem_cons_self)).2.2 zero)

def signBytes (negative : Bool) : Bytes := if negative then [Token.minus] else []

def Written (chars : List Char) : Prop :=
  ∀ negative, ∃ decimal : Decimal, decimal.bytes = signBytes negative ++ Utf8.encode chars

theorem written_parts {whole : List Char} (some : whole ≠ []) (each : ∀ c ∈ whole, c.isDigit)
    (zero : whole.head? = '0' → whole = ['0']) (fraction : Option Digits)
    (exponent : Option Exponent) {rest : List Char}
    (behind : Utf8.encode rest = fractionBytes fraction ++ exponentBytes exponent) :
    Written (whole ++ rest) := by
  intro negative
  obtain ⟨digits, bytes, first⟩ := exists_digits some each
  have single : digits.first = 0x30 → digits.more = [] := by
    intro same
    rw [zero (first same)] at bytes
    exact (List.cons.inj bytes).2
  refine ⟨⟨negative, digits, fraction, exponent, single⟩, ?_⟩
  rw [encode_append, behind]
  exact congrArg (fun front => signBytes negative ++ (front ++ _)) bytes

theorem written_point {whole fraction : List Char} (before : ∀ c ∈ whole, c.isDigit)
    (head : whole.head? ≠ '0') (behind : ∀ c ∈ fraction, c.isDigit) :
    Written ((if whole = [] then ['0'] else whole) ++
      '.' :: if fraction = [] then ['0'] else fraction) := by
  have zero : ∀ c ∈ ['0'], c.isDigit := List.forall_mem_singleton.mpr rfl
  have filled : ∀ chars : List Char, (∀ c ∈ chars, c.isDigit) →
      (if chars = [] then ['0'] else chars) ≠ [] ∧
        ∀ c ∈ if chars = [] then ['0'] else chars, c.isDigit := by
    intro chars each
    split
    · exact ⟨List.cons_ne_nil _ _, zero⟩
    · next some => exact ⟨some, each⟩
  obtain ⟨digits, bytes, _⟩ := exists_digits (filled fraction behind).1 (filled fraction behind).2
  refine written_parts (filled whole before).1 (filled whole before).2 ?_ (some digits) none ?_
  · split
    · exact fun _ => rfl
    · exact fun same => absurd same head
  · rw [encode_cons, ← bytes, exponentBytes, List.append_nil]
    rfl

theorem digit_replicate (count : Nat) : ∀ c ∈ List.replicate count '0', c.isDigit := by
  intro c member
  rw [List.eq_of_mem_replicate member]
  rfl

theorem written_pointed {digits : List Char} (leading : Leading digits) (point : Int) :
    Written (pointed digits point) := by
  obtain ⟨some, each, head⟩ := leading
  refine written_point ?_ ?_ ?_
  · exact List.forall_mem_append.mpr
      ⟨fun c member => each c (List.mem_of_mem_take member), digit_replicate _⟩
  · -- There are digits before the point only where the first of them is in its place.
    obtain ⟨first, more, rfl⟩ := List.exists_cons_of_ne_nil some
    cases point.toNat with
    | zero => simp
    | succ before => simpa using head
  · exact List.forall_mem_append.mpr
      ⟨digit_replicate _, fun c member => each c (List.mem_of_mem_drop member)⟩

theorem exists_fraction {more : List Char} (each : ∀ c ∈ more, c.isDigit) :
    ∃ fraction, fractionBytes fraction =
      Utf8.encode (if more = [] then [] else '.' :: more) := by
  by_cases none : more = []
  · exact ⟨Option.none, by rw [if_pos none]; rfl⟩
  · obtain ⟨digits, bytes, _⟩ := exists_digits none each
    exact ⟨some digits, by rw [if_neg none, encode_cons, ← bytes]; rfl⟩

theorem exists_exponent (power : Int) : ∃ exponent, exponentBytes (some exponent) =
    Utf8.encode ('e' :: (if power < 0 then '-' else '+') :: Number.digits power.natAbs) := by
  obtain ⟨first, more, spelled⟩ := spelled_digits power.natAbs
  let sign : Byte := if power < 0 then Token.minus else Token.plus
  have signs : ∀ byte ∈ some sign, byte = Token.plus ∨ byte = Token.minus := by
    rintro _ ⟨⟩
    exact (ite_eq_or_eq _ _ _).symm
  refine ⟨⟨0x65, some sign, ⟨first, more, spelled.each⟩, rfl, signs⟩, ?_⟩
  rw [encode_cons, encode_cons, spelled.bytes]
  simp only [sign]
  split <;> rfl

theorem written_scientific {digits : List Char} (leading : Leading digits) (power : Int) :
    Written (scientific digits power) := by
  obtain ⟨some, each, head⟩ := leading
  obtain ⟨first, more, rfl⟩ := List.exists_cons_of_ne_nil some
  obtain ⟨own, others⟩ := List.forall_mem_cons.mp each
  obtain ⟨fraction, digits⟩ := exists_fraction others
  obtain ⟨exponent, powers⟩ := exists_exponent power
  rw [scientific, List.append_assoc]
  refine written_parts (List.cons_ne_nil _ _) (List.forall_mem_singleton.mpr own) ?_ fraction
    (Option.some exponent) ?_
  · exact fun zero => absurd zero head
  · rw [encode_append, digits, powers]
    rfl

theorem written_magnitude (significand : Nat) (exponent : Int) :
    Written (magnitude significand exponent) := by
  unfold magnitude
  split
  · have none : ∀ c ∈ ([] : List Char), c.isDigit := nofun
    exact written_point none (by simp) none
  · next some =>
    have leading := leading_shortest (Nat.pos_of_ne_zero some) exponent
    generalize Number.shortest significand exponent = decimal at leading ⊢
    obtain ⟨digits, point⟩ := decimal
    dsimp only
    split
    · exact written_pointed leading point
    · exact written_scientific leading _

theorem real_finite {x : Number.Binary64} (finite : x.Finite) :
    ∃ decimal : Decimal, decimal.bytes = Utf8.encode (real x) := by
  obtain ⟨negative, significand, exponent, value⟩ := finite
  obtain ⟨decimal, bytes⟩ := written_magnitude significand exponent negative
  refine ⟨decimal, ?_⟩
  rw [bytes, real, value]
  cases negative <;> rfl

end Json

end TaskMonitor
