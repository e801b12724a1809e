import TaskMonitor.Framing.Cobs

/-! Encoding in one pass over the payload. Each byte is put down as it comes, with a gap where
the code byte of its block belongs; the gap is filled in when the block ends. -/

set_option autoImplicit false

namespace TaskMonitor.Cobs

/-- The bytes put down, the place of the gap of the open block, and the code to fill it with. -/
structure Writer where
  out : Bytes := [0]
  gap : Nat := 0
  code : UInt8 := 1
  deriving DecidableEq, Repr

namespace Writer

def fill? (writer : Writer) : Option Bytes :=
  if writer.gap < writer.out.length then some (writer.out.set writer.gap writer.code) else none

def close? (writer : Writer) : Option Writer := do
  let out ← writer.fill?
  return { out := out ++ [0], gap := out.length, code := 1 }

/-- Put down a byte of the open block. The code may not count beyond what a byte holds. -/
def put? (writer : Writer) (byte : Byte) : Option Writer :=
  if writer.code.toNat + 1 < UInt8.size then
    some { writer with out := writer.out ++ [byte], code := writer.code + 1 }
  else none

def write? (writer : Writer) (byte : Byte) : Option Writer :=
  if byte = 0 then writer.close?
  else do
    let writer ← writer.put? byte
    if writer.code = 0xFF then writer.close? else return writer

end Writer

/-- The encoded payload, if neither a gap nor a code is ever out of range. -/
def encodeInPlace? (data : Bytes) : Option Bytes := do
  let writer ← data.foldlM Writer.write? {}
  writer.fill?

end TaskMonitor.Cobs
