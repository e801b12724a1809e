import TaskMonitor.Text.Utf8

/-! Reading JSON from bytes, from left to right. The first fault met ends the reading, so the
order in which a reader looks at its text decides between faults. -/

set_option autoImplicit false

namespace TaskMonitor.Json

/-- Why a text is not read: it ends too early, it holds a value of a kind or range that has
no place there, or it is no JSON text. -/
inductive Fault where
  | endOfText
  | mismatch
  | malformed
  deriving DecidableEq, Repr

abbrev Reader := StateT Bytes (Except Fault)

namespace Token

def quote : Byte := 0x22
def comma : Byte := 0x2C
def minus : Byte := 0x2D
def plus : Byte := 0x2B
def point : Byte := 0x2E
def colon : Byte := 0x3A
def openList : Byte := 0x5B
def backslash : Byte := 0x5C
def closeList : Byte := 0x5D
def openObject : Byte := 0x7B
def closeObject : Byte := 0x7D

end Token

def isBlank (byte : Byte) : Bool := byte = 0x20 ∨ byte = 0x09 ∨ byte = 0x0A ∨ byte = 0x0D

def skipBlanks (text : Bytes) : Bytes := text.dropWhile isBlank

def peek : Reader Byte := fun text =>
  match skipBlanks text with
  | [] => .error .endOfText
  | byte :: rest => .ok (byte, byte :: rest)

def take : Reader Byte
  | [] => .error .endOfText
  | byte :: rest => .ok (byte, rest)

def drop : Reader Unit := fun text => .ok ((), text.tail)

def literal : Bytes → Reader Unit
  | [], text => .ok ((), text)
  | _ :: _, [] => .error .endOfText
  | letter :: word, byte :: rest =>
    if byte = letter then literal word rest else .error .malformed

def null : Bytes := Utf8.encode "null".toList
def yes : Bytes := Utf8.encode "true".toList
def no : Bytes := Utf8.encode "false".toList

def expect (wanted : Byte) : Reader Unit := do
  if (← peek) = wanted then drop else throw .malformed

def read {α : Type} (reader : Reader α) (text : Bytes) : Except Fault α := do
  let (value, rest) ← reader text
  if skipBlanks rest = [] then return value else throw .malformed

end TaskMonitor.Json
