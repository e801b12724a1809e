import TaskMonitor.Json.Quoted
import TaskMonitor.Number.Shortest

/-! JSON documents and their two written forms, one without blanks and one with a line for
each member and element. -/

set_option autoImplicit false

namespace TaskMonitor.Json

inductive Document where
  | null
  | bool (value : Bool)
  | integer (value : Int)
  | real (value : Number.Binary64)
  | text (value : String)
  | list (elements : List Document)
  | object (members : List (String × Document))

/-- Doubles whose first digit stands for a power of ten from the least to the most of these are
written without an exponent. -/
structure Positional where
  least : Int
  most : Int

def positional : Positional := ⟨-5, 15⟩

def pointed (digits : List Char) (point : Int) : List Char :=
  let whole := digits.take point.toNat ++ List.replicate (point.toNat - digits.length) '0'
  let fraction := List.replicate (-point).toNat '0' ++ digits.drop point.toNat
  (if whole = [] then ['0'] else whole) ++ '.' :: if fraction = [] then ['0'] else fraction

def scientific (digits : List Char) (power : Int) : List Char :=
  let fraction := digits.drop 1
  digits.take 1 ++ (if fraction = [] then [] else '.' :: fraction) ++
    'e' :: (if power < 0 then '-' else '+') :: Number.digits power.natAbs

def magnitude (significand : Nat) (exponent : Int) : List Char :=
  if significand = 0 then "0.0".toList
  else
    let ⟨digits, point⟩ := Number.shortest significand exponent
    if positional.least ≤ point - 1 ∧ point - 1 ≤ positional.most then pointed digits point
    else scientific digits (point - 1)

/-- The shortest digits that read back. What is no number is `null`. -/
def real (x : Number.Binary64) : List Char :=
  match x.value with
  | .nan => "null".toList
  | .infinite _ => "null".toList
  | .finite negative significand exponent =>
    if negative then '-' :: magnitude significand exponent else magnitude significand exponent

def scalar : Document → List Char
  | .null => "null".toList
  | .bool value => if value then "true".toList else "false".toList
  | .integer value => Number.signedDigits value
  | .real value => real value
  | .text value => quote value
  | .list _ => []
  | .object _ => []

mutual

def Document.compact : Document → List Char
  | .list elements => '[' :: compactElements true elements ++ [']']
  | .object members => '\x7b' :: compactMembers true members ++ ['\x7d']
  | value => scalar value

def compactElements (first : Bool) : List Document → List Char
  | [] => []
  | element :: rest =>
    (if first then [] else [',']) ++ element.compact ++ compactElements false rest

def compactMembers (first : Bool) : List (String × Document) → List Char
  | [] => []
  | (key, value) :: rest =>
    (if first then [] else [',']) ++ quote key ++ ':' :: value.compact ++ compactMembers false rest

end

def newLine (depth : Nat) : List Char := '\n' :: List.replicate (2 * depth) ' '

mutual

def Document.prettyAt (depth : Nat) : Document → List Char
  | .list [] => "[]".toList
  | .list elements =>
    '[' :: prettyElements (depth + 1) true elements ++ newLine depth ++ [']']
  | .object [] => ['\x7b', '\x7d']
  | .object members =>
    '\x7b' :: prettyMembers (depth + 1) true members ++ newLine depth ++ ['\x7d']
  | value => scalar value

def prettyElements (depth : Nat) (first : Bool) : List Document → List Char
  | [] => []
  | element :: rest =>
    (if first then [] else [',']) ++ newLine depth ++ element.prettyAt depth ++
      prettyElements depth false rest

def prettyMembers (depth : Nat) (first : Bool) : List (String × Document) → List Char
  | [] => []
  | (key, value) :: rest =>
    (if first then [] else [',']) ++ newLine depth ++ quote key ++ ':' :: ' ' ::
      value.prettyAt depth ++ prettyMembers depth false rest

end

def Document.pretty (document : Document) : List Char := document.prettyAt 0

def Document.ofOption {α : Type} (write : α → Document) : Option α → Document
  | none => .null
  | some value => write value

end TaskMonitor.Json
