/-! Double-precision numbers as bit patterns, their exact values, and their total order. -/

set_option autoImplicit false

namespace TaskMonitor.Number

structure Binary64 where
  bits : UInt64
  deriving DecidableEq, Repr

namespace Binary64

/-- What a bit pattern stands for, with finite magnitudes as `significand * 2 ^ exponent`. -/
inductive Value where
  | nan
  | infinite (negative : Bool)
  | finite (negative : Bool) (significand : Nat) (exponent : Int)
  deriving DecidableEq, Repr

def hiddenBit : Nat := 0x10000000000000

def signBit : Nat := 0x8000000000000000

def leastExponent : Int := -1074

def value (x : Binary64) : Value :=
  let fraction : Nat := x.bits.toNat % hiddenBit
  let biased : Nat := x.bits.toNat / hiddenBit % 2048
  let negative := decide (signBit ≤ x.bits.toNat)
  if biased = 2047 then
    if fraction = 0 then .infinite negative else .nan
  else if biased = 0 then .finite negative fraction leastExponent
  else .finite negative (hiddenBit + fraction) ((biased : Int) - 1075)

def ofFloat (x : Float) : Binary64 := ⟨x.toBits⟩

def infinity : Binary64 := ⟨0x7FF0000000000000⟩

def notANumber : Binary64 := ⟨0x7FF8000000000000⟩

def zero : Binary64 := ⟨0⟩

def negate (x : Binary64) : Binary64 := ⟨x.bits ^^^ 0x8000000000000000⟩

/-- The place of a bit pattern in the total order: negative patterns downwards from minus
one, the others upwards from zero. -/
def orderKey (x : Binary64) : Int :=
  if x.bits.toNat < signBit then x.bits.toNat else (signBit : Int) - 1 - x.bits.toNat

theorem orderKey_injective {x y : Binary64} (same : x.orderKey = y.orderKey) : x = y := by
  cases x with | mk a =>
    cases y with | mk b =>
      congr
      apply UInt64.toNat_inj.mp
      change (if a.toNat < signBit then (a.toNat : Int) else (signBit : Int) - 1 - a.toNat) =
        if b.toNat < signBit then (b.toNat : Int) else (signBit : Int) - 1 - b.toNat at same
      by_cases left : a.toNat < signBit
      · by_cases right : b.toNat < signBit
        · rw [if_pos left, if_pos right] at same
          exact Int.ofNat.inj same
        · rw [if_pos left, if_neg right] at same
          omega
      · by_cases right : b.toNat < signBit
        · rw [if_neg left, if_pos right] at same
          omega
        · rw [if_neg left, if_neg right] at same
          omega

end Binary64

end TaskMonitor.Number
