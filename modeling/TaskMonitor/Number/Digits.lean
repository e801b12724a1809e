/-! Decimal digits of whole numbers. -/

set_option autoImplicit false

namespace TaskMonitor.Number

def digits (n : Nat) : List Char := Nat.toDigits 10 n

def signedDigits (n : Int) : List Char :=
  if n < 0 then '-' :: digits n.natAbs else digits n.natAbs

def digitValue (c : Char) : Nat := c.toNat - '0'.toNat

/-- The number that digit characters spell after the digits of `start`. -/
def readDigits (start : Nat) (text : List Char) : Nat :=
  text.foldl (fun value c => 10 * value + digitValue c) start

def spanDigits (text : List Char) : List Char × List Char := text.span Char.isDigit

end TaskMonitor.Number
