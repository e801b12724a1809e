/-! UTF-8 between scalar values and bytes. Reading accepts shortest forms only and
no surrogates, so a text has one byte form. -/

set_option autoImplicit false

namespace TaskMonitor

abbrev Byte := UInt8

abbrev Bytes := List Byte

namespace Utf8

def encode (text : List Char) : Bytes := text.flatMap String.utf8EncodeChar

def tail? (byte : Byte) : Option Nat :=
  if 0x80 ≤ byte ∧ byte < 0xC0 then some (byte.toNat - 0x80) else none

/-- The scalar value at a code point not below `least`, the first one of its length. -/
def scalar? (least point : Nat) : Option Char :=
  if least ≤ point ∧ point.isValidChar then some (Char.ofNat point) else none

def next? (first : Byte) (rest : Bytes) : Option (Char × Bytes) :=
  if first < 0x80 then some (Char.ofNat first.toNat, rest)
  else if first < 0xC0 then none
  else if first < 0xE0 then
    match rest with
    | second :: rest => do
      let b ← tail? second
      let c ← scalar? 0x80 ((first.toNat - 0xC0) * 0x40 + b)
      return (c, rest)
    | _ => none
  else if first < 0xF0 then
    match rest with
    | second :: third :: rest => do
      let b ← tail? second
      let c ← tail? third
      let d ← scalar? 0x800 (((first.toNat - 0xE0) * 0x40 + b) * 0x40 + c)
      return (d, rest)
    | _ => none
  else if first < 0xF8 then
    match rest with
    | second :: third :: fourth :: rest => do
      let b ← tail? second
      let c ← tail? third
      let d ← tail? fourth
      let e ← scalar? 0x10000 ((((first.toNat - 0xF0) * 0x40 + b) * 0x40 + c) * 0x40 + d)
      return (e, rest)
    | _ => none
  else none

theorem next?_length {first : Byte} {rest left : Bytes} {c : Char}
    (found : next? first rest = some (c, left)) : left.length ≤ rest.length := by
  unfold next? at found
  split at found
  · simp_all
  split at found
  · simp at found
  split at found
  · split at found <;> simp_all [bind, Option.bind]
    split at found <;> simp_all
    split at found <;> simp_all
  split at found
  · split at found <;> simp_all [bind, Option.bind]
    repeat (split at found <;> simp_all)
    omega
  split at found
  · split at found <;> simp_all [bind, Option.bind]
    repeat (split at found <;> simp_all)
    omega
  · simp at found

def decodeOnto (seen : List Char) : Bytes → Option (List Char)
  | [] => some seen.reverse
  | first :: rest =>
    match _found : next? first rest with
    | none => none
    | some (c, left) => decodeOnto (c :: seen) left
termination_by bytes => bytes.length
decreasing_by exact Nat.lt_succ_of_le (next?_length _found)

def decode? (bytes : Bytes) : Option (List Char) := decodeOnto [] bytes

end Utf8

end TaskMonitor
