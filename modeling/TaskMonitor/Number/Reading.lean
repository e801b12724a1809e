import TaskMonitor.Number.Binary64
import TaskMonitor.Number.Digits
import TaskMonitor.Number.Rounding

/-! Decimal text read as the nearest double. -/

set_option autoImplicit false

namespace TaskMonitor.Number

/-- The double nearest to so many times the least double, a quotient; of two the one with an even
significand. Its last place counts `2 ^ places` least doubles. A significand that is rounded up
to the next power of two carries over to the exponent. -/
def Binary64.ofUnits (num den : Nat) : Binary64 :=
  let places := Nat.log2 (num / den) - 52
  let bits := places * hiddenBit + roundDiv num (den * Nat.pow 2 places)
  if bits < infinity.bits.toNat then ⟨bits.toUInt64⟩ else infinity

/-- The double nearest to `mantissa * 10 ^ exponent`. Decimals of more than 400 places before
the point are beyond every double and those below `10 ^ -400` are nearer to zero than to any. -/
def nearest (mantissa : Nat) (exponent : Int) : Binary64 :=
  let magnitude := (digits mantissa).length + exponent
  if mantissa = 0 ∨ magnitude < -400 then .zero
  else if 400 < magnitude then .infinity
  else
    .ofUnits (mantissa * Nat.pow 10 exponent.toNat * Nat.pow 2 (-Binary64.leastExponent).toNat)
      (Nat.pow 10 (-exponent).toNat)

def spanSign : List Char → Bool × List Char
  | '-' :: rest => (true, rest)
  | '+' :: rest => (false, rest)
  | text => (false, text)

def exponent? : List Char → Option Int
  | [] => some 0
  | mark :: rest =>
    if mark = 'e' ∨ mark = 'E' then
      let (negative, rest) := spanSign rest
      match spanDigits rest with
      | (_ :: _, []) => some (if negative then -(readDigits 0 rest : Int) else readDigits 0 rest)
      | _ => none
    else none

def spanFraction : List Char → List Char × List Char
  | '.' :: rest => spanDigits rest
  | text => ([], text)

def unsigned? (text : List Char) : Option Binary64 :=
  let (whole, rest) := spanDigits text
  let (fraction, rest) := spanFraction rest
  if whole = [] ∧ fraction = [] then none
  else (exponent? rest).map fun exponent =>
    nearest (readDigits 0 (whole ++ fraction)) (exponent - fraction.length)

/-- Infinities and not-a-number are spelt in any case. -/
def named? (text : List Char) : Option Binary64 :=
  let word := text.map Char.toLower
  if word = "inf".toList ∨ word = "infinity".toList then some .infinity
  else if word = "nan".toList then some .notANumber
  else none

def readBinary64? (text : List Char) : Option Binary64 :=
  let (negative, rest) := spanSign text
  ((unsigned? rest).or (named? rest)).map fun x => if negative then x.negate else x

end TaskMonitor.Number
