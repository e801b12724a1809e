import TaskMonitor.Json.Ignored

/-! Readers for values of a given kind: integers, texts, lists, records and variants. -/

set_option autoImplicit false

namespace TaskMonitor.Json

/-- The fault of a value of another kind than wanted: a fault inside it comes first. -/
def otherKind {α : Type} : Reader α := do
  let first ← peek
  if first = 0x6E then literal null
  else if first = 0x74 then literal yes
  else if first = 0x66 then literal no
  else if first = Token.quote then
    drop
    let _ ← quoted
  else if first = Token.minus ∨ isDigit first then
    let _ ← numeral
  else if first ≠ Token.openList ∧ first ≠ Token.openObject then throw .malformed
  throw .mismatch

def integer (least most : Int) : Reader Int := do
  let first ← peek
  if first = Token.minus ∨ isDigit first then
    match ← numeral with
    | .integer value => if least ≤ value ∧ value ≤ most then return value else throw .mismatch
    | .other => throw .mismatch
  else otherKind

def uint16 : Reader UInt16 := return UInt16.ofNat (← integer 0 (UInt16.size - 1)).toNat

def uint32 : Reader UInt32 := return UInt32.ofNat (← integer 0 (UInt32.size - 1)).toNat

def uint64 : Reader UInt64 := return UInt64.ofNat (← integer 0 (UInt64.size - 1)).toNat

def int32 : Reader Int32 := return Int32.ofInt (← integer Int32.minValue.toInt Int32.maxValue.toInt)

def bool : Reader Bool := do
  let first ← peek
  if first = 0x74 then
    literal yes
    return true
  else if first = 0x66 then
    literal no
    return false
  else otherKind

def nothing : Reader Unit := do
  if (← peek) = 0x6E then literal null else otherKind

def text : Reader String := do
  if (← peek) = Token.quote then
    drop
    quoted
  else otherKind

def nullable {α : Type} (reader : Reader α) : Reader (Option α) := do
  if (← peek) = 0x6E then
    literal null
    return none
  else return some (← reader)

def present {α : Type} (reader : Reader α) : Reader (Option α) := return some (← reader)

/-- Before a further element or member: the comma, and then no closing bracket. -/
def separator (close : Byte) (first : Bool) : Reader Unit :=
  if first then return ()
  else do
    expect Token.comma
    if (← peek) = close then throw .malformed

def elementsOnto {α : Type} (element : Reader α) : Nat → List α → Reader (List α)
  | 0, _ => throw .malformed
  | fuel + 1, seen => do
    if (← peek) = Token.closeList then
      drop
      return seen.reverse
    else
      separator Token.closeList seen.isEmpty
      let value ← element
      elementsOnto element fuel (value :: seen)

def list {α : Type} (element : Reader α) : Reader (List α) := do
  if (← peek) = Token.openList then
    drop
    fun text => elementsOnto element (text.length + 1) [] text
  else otherKind

/-- A member of a record: its key, and how its value gets a place among those already read. -/
structure Field (σ : Type) where
  key : String
  read : σ → Reader σ

/-- A record is read from an object, or from a list of the values of its fields in order.
It is made from what was read at the end, if nothing needed is missing. -/
structure Record (σ α : Type) where
  fields : List (Field σ)
  start : σ
  finish : σ → Option α

namespace Record

variable {σ α : Type}

/-- The members up to the closing brace. A known key may come once; others are passed over. -/
def members (fields : List (Field σ)) : Nat → Bool → List String → σ → Reader σ
  | 0, _, _, _ => throw .malformed
  | fuel + 1, first, seen, values => do
    if (← peek) = Token.closeObject then
      drop
      return values
    else
      separator Token.closeObject first
      expect Token.quote
      let key ← quoted
      match fields.find? (·.key = key) with
      | some field =>
        if key ∈ seen then throw .mismatch
        expect Token.colon
        let values ← field.read values
        members fields fuel false (key :: seen) values
      | none =>
        expect Token.colon
        ignored
        members fields fuel false seen values

/-- The values of fields in order; the last ones may be left out. -/
def elements : Bool → List (Field σ) → σ → Reader σ
  | _, [], values => do
    expect Token.closeList
    return values
  | first, field :: fields, values => do
    if (← peek) = Token.closeList then
      drop
      return values
    else
      separator Token.closeList first
      let values ← field.read values
      elements false fields values

def body (record : Record σ α) : Reader σ := do
  let first ← peek
  if first = Token.openObject then
    drop
    fun text => members record.fields (text.length + 1) true [] record.start text
  else if first = Token.openList then
    drop
    elements true record.fields record.start
  else otherKind

def read (record : Record σ α) : Reader α := do
  match record.finish (← record.body) with
  | some value => return value
  | none => throw .mismatch

end Record

structure Variant (α : Type) where
  bare : Option α
  content : Reader α

/-- The name of a variant, or an object with the name as its only key and the content. -/
def variant {α : Type} (named : String → Option (Variant α)) : Reader α := do
  let first ← peek
  if first = Token.openObject then
    drop
    match named (← text) with
    | none => throw .mismatch
    | some variant =>
      expect Token.colon
      let value ← variant.content
      expect Token.closeObject
      return value
  else if first = Token.quote then
    match named (← text) with
    | some ⟨some value, _⟩ => return value
    | _ => throw .mismatch
  else throw .malformed

end TaskMonitor.Json
