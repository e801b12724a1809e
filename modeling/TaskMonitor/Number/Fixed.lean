import TaskMonitor.Number.Binary64
import TaskMonitor.Number.Digits
import TaskMonitor.Number.Rounding

/-! Doubles with a fixed number of decimal places, rounded from their exact value. -/

set_option autoImplicit false

namespace TaskMonitor.Number

/-- A magnitude in units of `10 ^ -places`, rounded to the nearest one. -/
def scaled (places significand : Nat) (exponent : Int) : Nat :=
  roundDiv (significand * Nat.pow 10 places * Nat.pow 2 exponent.toNat)
    (Nat.pow 2 (-exponent).toNat)

def withPoint (places units : Nat) : List Char :=
  let fraction := digits (units % Nat.pow 10 places)
  digits (units / Nat.pow 10 places) ++ '.' :: List.replicate (places - fraction.length) '0' ++ fraction

/-- A zero keeps its sign, also one that comes from rounding. -/
def fixed (places : Nat) (x : Binary64) : List Char :=
  match x.value with
  | .nan => "NaN".toList
  | .infinite negative => if negative then "-inf".toList else "inf".toList
  | .finite negative significand exponent =>
    let magnitude := withPoint places (scaled places significand exponent)
    if negative then '-' :: magnitude else magnitude

end TaskMonitor.Number
