import Mathlib.Order.Defs.Unbundled
import TaskMonitor.Number.Binary64

/-! The total order of doubles. Negative ones come before the others, and magnitudes are compared
as bits, so that an infinity stands beyond the finite ones and not-a-number beyond both, and minus
zero comes right before zero. -/

set_option autoImplicit false

namespace TaskMonitor.Number.Binary64

def negative (x : Binary64) : Bool := decide (signBit ≤ x.bits.toNat)

def magnitude (x : Binary64) : Nat := x.bits.toNat % signBit

/-- A double is the other one or comes before it. -/
def TotalLE (x y : Binary64) : Prop :=
  match x.negative, y.negative with
  | false, false => x.magnitude ≤ y.magnitude
  | false, true => False
  | true, false => True
  | true, true => y.magnitude ≤ x.magnitude

theorem bits_lt (x : Binary64) : x.bits.toNat < 2 * signBit := x.bits.toNat_lt

theorem orderKey_eq (x : Binary64) :
    x.orderKey = if x.negative then -1 - (x.magnitude : Int) else x.magnitude := by
  have range := x.bits_lt
  simp only [orderKey, negative, magnitude, decide_eq_true_eq]
  by_cases below : x.bits.toNat < signBit
  · rw [if_pos below, if_neg (Nat.not_le.mpr below), Nat.mod_eq_of_lt below]
  · have rest : x.bits.toNat % signBit = x.bits.toNat - signBit := by
      rw [Nat.mod_eq_sub_mod (Nat.not_lt.mp below), Nat.mod_eq_of_lt (by omega)]
    rw [if_neg below, if_pos (Nat.not_lt.mp below), rest]
    omega

theorem orderKey_le_iff {x y : Binary64} : x.orderKey ≤ y.orderKey ↔ TotalLE x y := by
  rw [orderKey_eq, orderKey_eq, TotalLE]
  cases x.negative <;> cases y.negative <;> simp <;> omega

instance (x y : Binary64) : Decidable (TotalLE x y) := decidable_of_iff _ orderKey_le_iff

instance totalLE_linear : IsLinearOrder Binary64 TotalLE where
  refl x := orderKey_le_iff.mp (Int.le_refl x.orderKey)
  trans _ _ _ first second :=
    orderKey_le_iff.mp (Int.le_trans (orderKey_le_iff.mpr first) (orderKey_le_iff.mpr second))
  antisymm _ _ first second :=
    orderKey_injective (Int.le_antisymm (orderKey_le_iff.mpr first) (orderKey_le_iff.mpr second))
  total x y := (Int.le_total x.orderKey y.orderKey).imp orderKey_le_iff.mp orderKey_le_iff.mp

example : ¬ TotalLE zero zero.negate ∧ TotalLE infinity notANumber := by decide

/-! ## In words -/

/-- The bits as a signed word, all but the sign turned over if the sign is set. -/
def signedKey (x : Binary64) : Int64 :=
  let word := x.bits.toInt64
  word ^^^ ((word >>> 63).toUInt64 >>> 1).toInt64

theorem of_negative {x : Binary64} (sign : x.negative = true) : signBit ≤ x.bits.toNat :=
  of_decide_eq_true sign

theorem of_not_negative {x : Binary64} (sign : x.negative = false) : x.bits.toNat < signBit :=
  Nat.not_le.mp (of_decide_eq_false sign)

theorem magnitude_lt (x : Binary64) : x.magnitude < signBit := Nat.mod_lt _ (by decide)

theorem spread_sign (x : Binary64) :
    x.bits.toBitVec.sshiftRight 63 = if x.negative then ~~~0#64 else 0#64 := by
  have range := x.bits_lt
  have msb : x.bits.toBitVec.msb = x.negative := BitVec.msb_eq_decide _
  cases sign : x.negative with
  | false =>
    have below : x.bits.toNat < 2 ^ 63 := of_not_negative sign
    have gone : x.bits.toBitVec >>> 63 = 0#64 := by
      apply BitVec.eq_of_toNat_eq
      simpa [BitVec.toNat_ushiftRight, Nat.shiftRight_eq_div_pow] using below
    rw [BitVec.sshiftRight_eq_of_msb_false (msb.trans sign), gone]
    rfl
  | true =>
    have above : 2 ^ 63 ≤ x.bits.toNat := of_negative sign
    have gone : ~~~x.bits.toBitVec >>> 63 = 0#64 := by
      apply BitVec.eq_of_toNat_eq
      simp only [BitVec.toNat_ushiftRight, Nat.shiftRight_eq_div_pow, BitVec.toNat_not,
        UInt64.toNat_toBitVec, BitVec.toNat_ofNat]
      omega
    rw [BitVec.sshiftRight_eq_of_msb_true (msb.trans sign), gone]
    rfl

theorem xor_sign {x : Binary64} (sign : x.negative = true) :
    (x.bits.toBitVec ^^^ BitVec.intMin 64).toNat = x.magnitude := by
  have above : 2 ^ 63 ≤ x.bits.toNat := of_negative sign
  have range : x.bits.toNat < 2 ^ 64 := x.bits_lt
  have high : (x.bits.toNat ^^^ 2 ^ 63) / 2 ^ 63 = 0 := by
    have one : x.bits.toNat / 2 ^ 63 = 1 := by omega
    rw [Nat.xor_div_two_pow, one]
    rfl
  have low : (x.bits.toNat ^^^ 2 ^ 63) % 2 ^ 63 = x.magnitude := by
    rw [Nat.xor_mod_two_pow, Nat.mod_self, Nat.xor_zero]
    rfl
  have whole := Nat.div_add_mod (x.bits.toNat ^^^ 2 ^ 63) (2 ^ 63)
  rw [high, low, Nat.mul_zero, Nat.zero_add] at whole
  exact whole.symm

/-- The total order is that of these words. -/
theorem toInt_signedKey (x : Binary64) : x.signedKey.toInt = x.orderKey := by
  have small : x.magnitude < 2 ^ 63 := x.magnitude_lt
  have word : x.signedKey.toBitVec =
      x.bits.toBitVec ^^^ (x.bits.toBitVec.sshiftRight 63 >>> 1) := rfl
  rw [orderKey_eq, ← Int64.toInt_toBitVec, word, spread_sign]
  cases sign : x.negative with
  | false =>
    have below : x.bits.toNat < 2 ^ 63 := of_not_negative sign
    have whole : x.magnitude = x.bits.toNat := Nat.mod_eq_of_lt below
    have mask : (0#64) >>> 1 = 0#64 := by decide
    simp only [Bool.false_eq_true, ↓reduceIte]
    rw [mask, BitVec.xor_zero, BitVec.toInt_eq_toNat_cond, UInt64.toNat_toBitVec, whole, if_pos]
    omega
  | true =>
    have mask : (~~~0#64) >>> 1 = ~~~BitVec.intMin 64 := by decide
    simp only [↓reduceIte]
    rw [mask, ← BitVec.not_xor_right, BitVec.toInt_eq_toNat_cond, BitVec.toNat_not, xor_sign sign,
      if_neg]
    all_goals omega

theorem totalLE_iff_signedKey {x y : Binary64} : TotalLE x y ↔ x.signedKey ≤ y.signedKey := by
  rw [← orderKey_le_iff, Int64.le_iff_toInt_le, toInt_signedKey, toInt_signedKey]

end TaskMonitor.Number.Binary64
