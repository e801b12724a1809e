import TaskMonitor.Number.Binary64
import TaskMonitor.Number.Digits

/-! The shortest decimal that reads back as a given double. Magnitudes are counted in a unit
so small that every double, every midpoint between two doubles and every decimal of at most
seventeen digits in their range is a whole number of it. -/

set_option autoImplicit false

namespace TaskMonitor.Number

/-- The unit holds `10 ^ decimalPlaces * 2 ^ binaryPlaces` times in one. -/
def decimalPlaces : Nat := 340

def binaryPlaces : Nat := 1076

/-- The magnitudes that are nearer to one double than to any other. Its ends, which lie halfway
between doubles, belong to it if the significand is even. -/
structure Neighbourhood where
  lower : Nat
  value : Nat
  upper : Nat
  closed : Bool
  deriving DecidableEq, Repr

def Neighbourhood.of (significand : Nat) (exponent : Int) : Neighbourhood :=
  let quarter := Nat.pow 2 (exponent - 2 + binaryPlaces).toNat * Nat.pow 10 decimalPlaces
  let narrow := significand = Binary64.hiddenBit ∧ exponent ≠ Binary64.leastExponent
  { lower := (4 * significand - if narrow then 1 else 2) * quarter
    value := 4 * significand * quarter
    upper := (4 * significand + 2) * quarter
    closed := significand % 2 = 0 }

def Neighbourhood.contains (near : Neighbourhood) (x : Nat) : Bool :=
  if near.closed then near.lower ≤ x ∧ x ≤ near.upper else near.lower < x ∧ x < near.upper

/-- The multiple of `step` inside the neighbourhood that is nearest to the value, if one is. -/
def Neighbourhood.multiple? (near : Neighbourhood) (step : Nat) : Option Nat :=
  let below := near.value / step
  let down := near.value - below * step
  let up := (below + 1) * step - near.value
  match near.contains (below * step), near.contains ((below + 1) * step) with
  | false, false => none
  | true, false => some below
  | false, true => some (below + 1)
  | true, true => some (if down < up ∨ (down = up ∧ below % 2 = 0) then below else below + 1)

/-- A decimal: `0.d₁d₂… * 10 ^ point`, that is, `point` digits stand before the point. -/
structure Decimal where
  digits : List Char
  point : Int
  deriving DecidableEq, Repr

/-- Search the grids of one digit, of two digits, and so on. -/
def Neighbourhood.search (near : Neighbourhood) (length : Nat) : Nat → Decimal
  | 0 => ⟨digits (near.value / Nat.pow 2 binaryPlaces), (length : Int) - decimalPlaces⟩
  | left + 1 =>
    let count := 17 - left
    let step := Nat.pow 10 (length - count) * Nat.pow 2 binaryPlaces
    match near.multiple? step with
    | some multiple =>
      let found := digits multiple
      ⟨found, (found.length : Int) + (length - count : Nat) - decimalPlaces⟩
    | none => near.search length left

/-- The fewest digits that read back as the double; of those the nearest to it. -/
def shortest (significand : Nat) (exponent : Int) : Decimal :=
  let near := Neighbourhood.of significand exponent
  let found := near.search (digits (near.value / Nat.pow 2 binaryPlaces)).length 17
  { found with digits := (found.digits.reverse.dropWhile (· = '0')).reverse }

end TaskMonitor.Number
