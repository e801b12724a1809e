import TaskMonitor.Json.Numeral
import TaskMonitor.Json.Quoted

/-! Passing over a value that has no use, at any depth. The open lists and objects are kept on
a stack of their own; strings and numbers only have to have the right shape. -/

set_option autoImplicit false

namespace TaskMonitor.Json

inductive Bracket where
  | list
  | object
  deriving DecidableEq, Repr

def Bracket.close : Bracket → Byte
  | .list => Token.closeList
  | .object => Token.closeObject

/-- Where the reading stands: before a value, after an opening bracket, or after a value. -/
inductive Place where
  | value
  | opened
  | done
  deriving DecidableEq, Repr

def passScalar (first : Byte) (rest : Bytes) : Except Fault Bytes :=
  let word (letters : Bytes) := (literal letters (first :: rest)).map Prod.snd
  if first = 0x6E then word null
  else if first = 0x74 then word yes
  else if first = 0x66 then word no
  else if first = Token.quote then passQuoted rest
  else if first = Token.minus ∨ isDigit first then passNumeral (first :: rest)
  else .error .malformed

def passKey (bracket : Bracket) (text : Bytes) : Except Fault Bytes :=
  match bracket with
  | .list => .ok text
  | .object => do
    let ((), rest) ← expect Token.quote text
    let rest ← passQuoted rest
    let ((), rest) ← expect Token.colon rest
    return rest

/-- Each step with less fuel uses up a byte, or comes from one that does. -/
def passFrom : Nat → Place → List Bracket → Bytes → Except Fault Bytes
  | 0, _, _, _ => .error .malformed
  | fuel + 1, .value, stack, text =>
    match skipBlanks text with
    | [] => .error .endOfText
    | byte :: rest =>
      if byte = Token.openList then passFrom fuel .opened (.list :: stack) rest
      else if byte = Token.openObject then passFrom fuel .opened (.object :: stack) rest
      else passScalar byte rest >>= passFrom fuel .done stack
  | _ + 1, .opened, [], _ => .error .malformed
  | fuel + 1, .opened, bracket :: stack, text =>
    match skipBlanks text with
    | [] => .error .endOfText
    | byte :: rest =>
      if byte = bracket.close then passFrom fuel .done stack rest
      else passKey bracket (byte :: rest) >>= passFrom fuel .value (bracket :: stack)
  | _ + 1, .done, [], text => .ok text
  | fuel + 1, .done, bracket :: stack, text =>
    match skipBlanks text with
    | [] => .error .endOfText
    | byte :: rest =>
      if byte = Token.comma then passKey bracket rest >>= passFrom fuel .value (bracket :: stack)
      else if byte = bracket.close then passFrom fuel .done stack rest
      else .error .malformed

def ignored : Reader Unit := fun text =>
  (passFrom (2 * text.length + 2) .value [] text).map fun rest => ((), rest)

end TaskMonitor.Json
