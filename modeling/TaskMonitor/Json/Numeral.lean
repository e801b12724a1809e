import TaskMonitor.Json.Reader

/-! Numbers in JSON. Where an integer is wanted a numeral is read in full; in a value that is
passed over only its shape counts. -/

set_option autoImplicit false

namespace TaskMonitor.Json

/-- What a numeral stands for: an integer in the 64-bit ranges, or another number. Minus zero
and everything with a fraction or an exponent is another number. -/
inductive Numeral where
  | integer (value : Int)
  | other
  deriving DecidableEq, Repr

def isDigit (byte : Byte) : Bool := 0x30 ≤ byte ∧ byte ≤ 0x39

def digitValue (byte : Byte) : Nat := byte.toNat - 0x30

def isExponentMark (byte : Byte) : Bool := byte = 0x65 ∨ byte = 0x45

def digits : Reader Bytes := fun text => .ok (text.span isDigit)

def look : Reader (Option Byte) := fun text => .ok (text.head?, text)

/-- The leading digits of a number, as many as fit 64 bits together, and how many were used
and left out. -/
structure Significand where
  value : Nat
  used : Nat := 0
  unused : Nat := 0
  deriving DecidableEq, Repr

def Significand.add (significand : Significand) (digit : Byte) : Significand :=
  let value := significand.value * 10 + digitValue digit
  if significand.unused = 0 ∧ value < UInt64.size then
    { significand with value, used := significand.used + 1 }
  else { significand with unused := significand.unused + 1 }

/-- Digits after those of `start`. -/
def Significand.read (start : Nat) (digits : Bytes) : Significand :=
  digits.foldl Significand.add { value := start }

/-- Whether a number is too large for a double. A positive power of ten is applied as the
double nearest to it. -/
def tooLarge (value : Nat) (exponent : Int) : Bool :=
  if value = 0 ∨ exponent ≤ 0 then false
  else if 308 < exponent then true
  else (value.toUInt64.toFloat * Float.ofScientific 1 false exponent.toNat).isInf

def otherNumeral (value : Nat) (exponent : Int) : Reader Numeral :=
  if tooLarge value exponent then throw .malformed else return .other

def exponentTail (value : Nat) (exponent : Int) : Reader Numeral := do
  let mark ← look
  if mark = some Token.plus ∨ mark = some Token.minus then drop
  let first ← take
  if isDigit first then
    let power := (first :: (← digits)).foldl (fun n digit => n * 10 + digitValue digit) 0
    otherNumeral value (if mark = some Token.minus then exponent - power else exponent + power)
  else throw .malformed

def fractionTail (value : Nat) (exponent : Int) : Reader Numeral := do
  let fraction ← digits
  if fraction = [] then
    let _ ← take
    throw .malformed
  let significand := Significand.read value fraction
  let exponent := exponent - significand.used
  match ← look with
  | some byte =>
    if isExponentMark byte then
      drop
      exponentTail significand.value exponent
    else otherNumeral significand.value exponent
  | none => otherNumeral significand.value exponent

def wholeNumeral (negative : Bool) (whole : Significand) : Reader Numeral :=
  if 0 < whole.unused then otherNumeral whole.value whole.unused
  else if negative then
    return if whole.value = 0 ∨ Int64.minValue.toInt.natAbs < whole.value then .other else .integer (-whole.value)
  else return .integer whole.value

def numeralTail (negative : Bool) (whole : Significand) : Reader Numeral := do
  match ← look with
  | some byte =>
    if byte = Token.point then
      drop
      fractionTail whole.value whole.unused
    else if isExponentMark byte then
      drop
      exponentTail whole.value whole.unused
    else wholeNumeral negative whole
  | none => wholeNumeral negative whole

def unsignedNumeral (negative : Bool) : Reader Numeral := do
  let first ← take
  if first = 0x30 then
    match ← look with
    | some byte =>
      if isDigit byte then throw .malformed else numeralTail negative { value := 0 }
    | none => numeralTail negative { value := 0 }
  else if isDigit first then
    numeralTail negative (Significand.read (digitValue first) (← digits))
  else throw .malformed

def numeral : Reader Numeral := do
  if (← look) = some Token.minus then
    drop
    unsignedNumeral true
  else unsignedNumeral false

/-- Pass over the exponent after its mark; a missing digit is no matter of the text's end. -/
def passExponent (text : Bytes) : Except Fault Bytes :=
  let rest := match text with
    | sign :: rest => if sign = Token.plus ∨ sign = Token.minus then rest else text
    | [] => []
  match rest.span isDigit with
  | (_ :: _, rest) => .ok rest
  | ([], _) => .error .malformed

def passExponent? : Bytes → Except Fault Bytes
  | [] => .ok []
  | byte :: rest => if isExponentMark byte then passExponent rest else .ok (byte :: rest)

def passTail : Bytes → Except Fault Bytes
  | [] => .ok []
  | byte :: rest =>
    if byte = Token.point then
      match rest.span isDigit with
      | (_ :: _, rest) => passExponent? rest
      | ([], _) => .error .malformed
    else passExponent? (byte :: rest)

def passNumeral (text : Bytes) : Except Fault Bytes :=
  let rest := match text with
    | sign :: rest => if sign = Token.minus then rest else text
    | [] => []
  match rest.span isDigit with
  | ([], _) => .error .malformed
  | (first :: more, rest) =>
    if first = 0x30 ∧ more ≠ [] then .error .malformed else passTail rest

end TaskMonitor.Json
