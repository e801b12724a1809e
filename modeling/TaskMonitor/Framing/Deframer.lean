import TaskMonitor.Framing.Cobs

/-! Payloads taken from a stream of delimited frames that arrives in pieces. Bytes before the
first delimiter and empty frames are dropped; a bad frame is reported and dropped. -/

set_option autoImplicit false

namespace TaskMonitor

/-- The bytes not yet used up. A deframer is in step once it has seen a delimiter. -/
structure Deframer where
  limit : UInt64
  inStep : Bool := false
  buffer : Bytes := []
  deriving DecidableEq, Repr

namespace Deframer

def push (deframer : Deframer) (bytes : Bytes) : Deframer :=
  { deframer with buffer := deframer.buffer ++ bytes }

def reset (deframer : Deframer) : Deframer := { deframer with inStep := false, buffer := [] }

/-- Get in step at the first delimiter, if there is one, and drop what stands before it. -/
def align (deframer : Deframer) : Deframer :=
  if deframer.inStep then deframer
  else match deframer.buffer.dropWhile (· ≠ 0) with
    | [] => { deframer with buffer := [] }
    | _ :: rest => { deframer with inStep := true, buffer := rest }

def payload (limit : UInt64) (encoded : Bytes) : Except FrameError Bytes := do
  let payload ← Cobs.decode encoded
  if limit.toNat < payload.length then .error (.tooLarge limit.toNat) else .ok payload

/-- The next payload or frame error, if the bytes so far give one, and the bytes left. The bound on
bytes without a delimiter is the exact one. -/
def next (deframer : Deframer) : Option (Except FrameError Bytes) × Deframer :=
  let aligned := deframer.align
  if aligned.inStep then
    let bytes := aligned.buffer.dropWhile (· = 0)
    match bytes.dropWhile (· ≠ 0) with
    | _ :: rest =>
      (some (payload deframer.limit (bytes.takeWhile (· ≠ 0))), { aligned with buffer := rest })
    | [] =>
      if Cobs.encodedBound deframer.limit.toNat < bytes.length then
        (some (.error (.tooLarge deframer.limit.toNat)), deframer.reset)
      else (none, { aligned with buffer := bytes })
  else (none, aligned)

/-- A look compares the bytes with the bound if no delimiter follows them. -/
def weighs (deframer : Deframer) : Bool :=
  deframer.align.inStep &&
    ((deframer.align.buffer.dropWhile (· = 0)).dropWhile (· ≠ 0)).isEmpty

/-- A look of the program, which stops where it needs the bound and the sum does not fit. -/
def next? (deframer : Deframer) : Option (Option (Except FrameError Bytes) × Deframer) :=
  if deframer.weighs && (Cobs.maxEncodedLength? deframer.limit).isNone then none
  else some deframer.next

theorem next?_eq {deframer : Deframer} {result : Option (Except FrameError Bytes) × Deframer}
    (found : deframer.next? = some result) : deframer.next = result := by
  unfold next? at found
  split at found
  · cases found
  · exact Option.some.inj found

theorem align_length (deframer : Deframer) :
    deframer.align.buffer.length ≤ deframer.buffer.length := by
  unfold align
  split
  · exact Nat.le_refl _
  · have suffix := (List.dropWhile_suffix (· ≠ 0) (l := deframer.buffer)).length_le
    split <;> simp_all
    omega

theorem next_length {deframer left : Deframer} {event : Except FrameError Bytes}
    (found : deframer.next = (some event, left)) : left.buffer.length < deframer.buffer.length := by
  have aligned := deframer.align_length
  have skipped := (List.dropWhile_suffix (· = 0) (l := deframer.align.buffer)).length_le
  have passed := (List.dropWhile_suffix (· ≠ 0)
    (l := deframer.align.buffer.dropWhile (· = 0))).length_le
  simp only [next] at found
  split at found
  · split at found
    · next same =>
      rw [same, List.length_cons] at passed
      simp only [Prod.mk.injEq] at found
      rw [← found.2]
      exact Nat.lt_of_lt_of_le (Nat.lt_of_lt_of_le passed skipped) aligned
    · split at found
      · next large =>
        simp only [Prod.mk.injEq] at found
        rw [← found.2]
        exact Nat.lt_of_lt_of_le (Nat.lt_of_le_of_lt (Nat.zero_le _) large)
          (Nat.le_trans skipped aligned)
      · simp at found
  · simp at found

theorem next?_length {deframer left : Deframer} {event : Except FrameError Bytes}
    (found : deframer.next? = some (some event, left)) :
    left.buffer.length < deframer.buffer.length :=
  next_length (next?_eq found)

end Deframer

end TaskMonitor
