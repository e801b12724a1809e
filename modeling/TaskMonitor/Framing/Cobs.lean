import TaskMonitor.Text.Utf8

/-! Consistent overhead byte stuffing. An encoded payload holds no zero byte, so that a zero
byte can delimit frames. A block is a code byte and one byte fewer than the code says; after
a block of less than full length a zero is implied, at the end of the payload excepted. -/

set_option autoImplicit false

namespace TaskMonitor

inductive FrameError where
  | unexpectedZero (offset : Nat)
  | truncated (offset : Nat)
  | tooLarge (limit : Nat)
  deriving DecidableEq, Repr

def FrameError.message : FrameError → String
  | .unexpectedZero offset => s!"zero byte inside COBS data at offset {offset}"
  | .truncated offset => s!"COBS block at offset {offset} runs past the end of the frame"
  | .tooLarge limit => s!"frame exceeds maximum size of {limit} bytes"

namespace Cobs

def fullRun : Nat := 254

def encodedBound (length : Nat) : Nat := length + length / fullRun + 1

def checkedSum (first second : UInt64) : Option UInt64 :=
  if first + second < first then none else some (first + second)

/-- The bound in 64-bit arithmetic. A sum that does not fit stops the program. -/
def maxEncodedLength? (length : UInt64) : Option UInt64 := do
  checkedSum (← checkedSum length (length / 254)) 1

def block (run : Bytes) : Bytes := UInt8.ofNat (run.length + 1) :: run

/-- Encode the bytes after the nonzero bytes `run`, which are in no block yet. -/
def encodeRun (run : Bytes) : Bytes → Bytes
  | [] => block run
  | byte :: rest =>
    if byte = 0 then block run ++ encodeRun [] rest
    else if run.length + 1 = fullRun then block (run ++ [byte]) ++ encodeRun [] rest
    else encodeRun (run ++ [byte]) rest

def encode (data : Bytes) : Bytes := encodeRun [] data

/-- Decode blocks of which the first starts at `offset`. -/
def decodeFrom (offset : Nat) : Bytes → Except FrameError Bytes
  | [] => .ok []
  | code :: rest =>
    if code = 0 then .error (.unexpectedZero offset)
    else
      let run := rest.take (code.toNat - 1)
      let left := rest.drop (code.toNat - 1)
      if run.length < code.toNat - 1 then .error (.truncated offset)
      else
        match run.findIdx? (· = 0) with
        | some place => .error (.unexpectedZero (offset + 1 + place))
        | none => do
          let payload ← decodeFrom (offset + code.toNat) left
          return run ++ if code = 0xFF ∨ left = [] then payload else 0 :: payload
termination_by encoded => encoded.length
decreasing_by simp only [List.length_drop, List.length_cons]; omega

def decode (encoded : Bytes) : Except FrameError Bytes := decodeFrom 0 encoded

def frame (payload : Bytes) : Bytes := 0 :: encode payload ++ [0]

end Cobs

end TaskMonitor
