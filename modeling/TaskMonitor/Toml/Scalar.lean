import TaskMonitor.Number.Reading
import TaskMonitor.Toml.Node
import TaskMonitor.Toml.Quoted

/-! Numbers, truth values, dates and times in TOML. A scalar that is read partly leaves text
that nothing in a document may start with, so no reader has to look ahead. -/

set_option autoImplicit false

namespace TaskMonitor.Toml

def satisfy (property : Char → Bool) : Reader Char
  | [] => none
  | c :: rest => if property c then some (c, rest) else none

def word (letters : List Char) : Reader Unit := fun text =>
  if letters.isPrefixOf text then some ((), text.drop letters.length) else none

def optional {α : Type} (reader : Reader α) : Reader (Option α) := fun text =>
  match reader text with
  | some (value, rest) => some (some value, rest)
  | none => some (none, text)

def isHexDigit (c : Char) : Bool := (hexValue? c).isSome

/-- Digits after a first one. An underscore may stand between two digits, and is dropped. -/
def moreDigits (isDigit : Char → Bool) : List Char → List Char × List Char
  | '_' :: c :: rest =>
    if isDigit c then
      let (digits, left) := moreDigits isDigit rest
      (c :: digits, left)
    else ([], '_' :: c :: rest)
  | c :: rest =>
    if isDigit c then
      let (digits, left) := moreDigits isDigit rest
      (c :: digits, left)
    else ([], c :: rest)
  | [] => ([], [])

def digitRun (isDigit : Char → Bool) : Reader (List Char) := do
  let first ← satisfy isDigit
  let rest ← fun text => some (moreDigits isDigit text)
  return first :: rest

def sign : Reader (List Char) := fun text =>
  match text with
  | '-' :: rest => some (['-'], rest)
  | '+' :: rest => some ([], rest)
  | _ => some ([], text)

/-- The digits of a decimal integer, which does not start with a zero if there are more. -/
def wholeDigits : Reader (List Char) := fun text =>
  match text with
  | '0' :: rest => some (['0'], rest)
  | _ => digitRun Char.isDigit text

def exponent : Reader (List Char) := do
  let _ ← satisfy fun c => c = 'e' ∨ c = 'E'
  let sign ← sign
  return 'e' :: sign ++ (← digitRun Char.isDigit)

def fraction : Reader (List Char) := do
  let _ ← satisfy (· = '.')
  return '.' :: (← digitRun Char.isDigit)

/-- A number with a fraction, an exponent or both. It has to be below the largest double. -/
def decimalReal : Reader Node := do
  let sign ← sign
  let whole ← wholeDigits
  let fraction ← optional fraction
  let power ← optional exponent
  if fraction.isNone && power.isNone then failure
  match Number.readBinary64? (sign ++ whole ++ fraction.getD [] ++ power.getD []) with
  | none => failure
  | some value => if value = .infinity then failure else return .real value

def namedReal : Reader Node := do
  let sign ← sign
  let value ← (do word "inf".toList; return Number.Binary64.infinity) <|>
    (do word "nan".toList; return .notANumber)
  return .real (if sign = [] then value else value.negate)

def bounded (value : Int) : Reader Node :=
  if -(mostInteger : Int) - 1 ≤ value ∧ value ≤ mostInteger then return .integer value else failure

def decimalInteger : Reader Node := do
  let sign ← sign
  let value := Number.readDigits 0 (← wholeDigits)
  bounded (if sign = [] then value else -value)

def readBase (base : Nat) (digits : List Char) : Nat :=
  digits.foldl (fun value c => base * value + (hexValue? c).getD 0) 0

def basedInteger : Reader Node :=
  (do word "0x".toList; bounded (readBase 16 (← digitRun isHexDigit))) <|>
  (do word "0o".toList; bounded (readBase 8 (← digitRun fun c => '0' ≤ c ∧ c ≤ '7'))) <|>
  (do word "0b".toList; bounded (readBase 2 (← digitRun fun c => c = '0' ∨ c = '1')))

def integer : Reader Node := fun text =>
  match text with
  | '0' :: mark :: _ =>
    if mark = 'x' ∨ mark = 'o' ∨ mark = 'b' then basedInteger text else decimalInteger text
  | _ => decimalInteger text

def numberOf (count least most : Nat) : Reader Nat := fun text =>
  let digits := text.take count
  let value := Number.readDigits 0 digits
  if digits.length = count ∧ digits.all Char.isDigit ∧ least ≤ value ∧ value ≤ most then
    some (value, text.drop count)
  else none

def daysIn (year month : Nat) : Nat :=
  if month = 2 then
    if year % 4 = 0 ∧ (year % 100 ≠ 0 ∨ year % 400 = 0) then 29 else 28
  else if month ∈ [4, 6, 9, 11] then 30
  else 31

def date : Reader Unit := do
  let year ← numberOf 4 0 9999
  let _ ← satisfy (· = '-')
  let month ← numberOf 2 1 12
  let _ ← satisfy (· = '-')
  let day ← numberOf 2 1 31
  if daysIn year month < day then failure

/-- A second may be a leap second. -/
def time : Reader Unit := do
  let _ ← numberOf 2 0 23
  let _ ← satisfy (· = ':')
  let _ ← numberOf 2 0 59
  let _ ← satisfy (· = ':')
  let _ ← numberOf 2 0 60
  let _ ← optional do
    let _ ← satisfy (· = '.')
    let _ ← satisfy Char.isDigit
    fun text => some ((), text.dropWhile Char.isDigit)

def offset : Reader Unit :=
  (do let _ ← satisfy fun c => c = 'Z' ∨ c = 'z') <|> do
    let _ ← satisfy fun c => c = '+' ∨ c = '-'
    let _ ← numberOf 2 0 23
    let _ ← satisfy (· = ':')
    let _ ← numberOf 2 0 59

def moment : Reader Node := fun text => do
  let ((), rest) ← (date *> (do
    let _ ← optional do
      let _ ← satisfy fun c => c = 'T' ∨ c = 't' ∨ c = ' '
      time
      let _ ← optional offset) <|> time) text
  return (.moment (text.take (text.length - rest.length)), rest)

def bool : Reader Node :=
  (do word "true".toList; return .bool true) <|> (do word "false".toList; return .bool false)

def scalar : Reader Node := fun text =>
  match text with
  | [] => none
  | c :: _ =>
    if c = '"' ∨ c = '\'' then (string c text).map fun (chars, rest) => (.text (.ofList chars), rest)
    else (bool <|> moment <|> decimalReal <|> namedReal <|> integer) text

end TaskMonitor.Toml
