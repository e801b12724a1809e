import TaskMonitor.Framing.Deframer

/-! Looking for a frame in turns. A turn gets the deframer in step, finds the next delimiter, and
either ends the look or drops the delimiter of an empty frame and goes round again. Where it finds
none and the bound on the bytes does not fit in 64 bits, the program stops. -/

set_option autoImplicit false

namespace TaskMonitor.Deframer

inductive Turn where
  | done (found : Option (Except FrameError Bytes)) (left : Deframer)
  | again (left : Deframer)
  | stop
  deriving Repr

def turn (deframer : Deframer) : Turn :=
  let aligned := deframer.align
  if aligned.inStep then
    match aligned.buffer.idxOf? 0 with
    | some 0 => .again { aligned with buffer := aligned.buffer.drop 1 }
    | some place =>
      .done (some (payload aligned.limit (aligned.buffer.take place)))
        { aligned with buffer := aligned.buffer.drop (place + 1) }
    | none =>
      match Cobs.maxEncodedLength? aligned.limit with
      | none => .stop
      | some most =>
        if most.toNat < aligned.buffer.length then
          .done (some (.error (.tooLarge aligned.limit.toNat))) aligned.reset
        else .done none aligned
  else .done none aligned

/-- Turn after turn until the look ends, if so many turns are enough. The look has no result if
the program stops in it. -/
def turns (deframer : Deframer) :
    Nat → Option (Option (Option (Except FrameError Bytes) × Deframer))
  | 0 => none
  | more + 1 =>
    match deframer.turn with
    | .done found left => some (some (found, left))
    | .again left => left.turns more
    | .stop => some none

end TaskMonitor.Deframer
