import TaskMonitor.Session.Error
import TaskMonitor.Settings.Basic

/-! Calls over one connection, one after the other. A reply belongs to the call whose sequence
number it carries; late replies to earlier calls are dropped, so that a call that timed out
does no harm to later ones. -/

set_option autoImplicit false

namespace TaskMonitor

open TaskMonitor.Rpc (Callset Frame)

/-- What a read of the connection brings. Where there is nothing more, the call times out. -/
inductive Arrival where
  | bytes (bytes : Bytes)
  | ended
  deriving DecidableEq, Repr

def readSize : Nat := 1024

structure Session where
  seqn : UInt32 := 0
  deframer : Deframer
  timeout : UInt64
  deriving DecidableEq, Repr

namespace Session

def start (settings : Settings) : Session :=
  { deframer := { limit := settings.frameLimit }, timeout := settings.timeout }

/-- A sequence number is stale if it lies up to half the numbers behind the expected one. -/
def isStale (got expected : UInt32) : Bool :=
  let behind := expected - got
  behind ≠ 0 ∧ behind ≤ 0x7FFFFFFF

/-- The outcome that a payload gives a call; none for a reply to an earlier call. -/
def judge (seqn : UInt32) (payload : Bytes) : Option (Except FetchError Callset) :=
  match Frame.decode payload with
  | .error fault => some (.error (.undecodable fault))
  | .ok frame =>
    if frame.header.seqn = seqn then
      if frame.header.status ≠ .success then some (.error (.rejected frame.header.status))
      else match frame.callset with
        | none => some (.error .noCallset)
        | some callset => some (.ok callset)
    else if isStale frame.header.seqn seqn then none
    else some (.error (.foreign seqn frame.header.seqn))

/-- The outcome of a call, what is left in the deframer, and the arrivals not read. There is no
outcome if the program stops in a look for a payload. -/
structure Received where
  outcome : Option (Except FetchError Callset)
  deframer : Deframer
  unread : List Arrival

/-- Read until a payload gives the call an outcome. -/
def receive (seqn : UInt32) (timeout : UInt64) (deframer : Deframer) (arrivals : List Arrival) :
    Received :=
  match _found : deframer.next? with
  | none => ⟨none, deframer, arrivals⟩
  | some (some (.error error), left) => ⟨some (.error (.framing error)), left, arrivals⟩
  | some (some (.ok payload), left) =>
    match judge seqn payload with
    | some outcome => ⟨some outcome, left, arrivals⟩
    | none => receive seqn timeout left arrivals
  | some (none, left) =>
    match arrivals with
    | [] => ⟨some (.error (.timeout .calling timeout)), left, []⟩
    | .ended :: rest => ⟨some (.error .closed), left, .ended :: rest⟩
    | .bytes bytes :: rest => receive seqn timeout (left.push bytes) rest
termination_by (arrivals.length, deframer.buffer.length)
decreasing_by
  · exact Prod.Lex.right _ (Deframer.next?_length _found)
  · exact Prod.Lex.left _ _ (Nat.lt_succ_self _)

/-- The session with the number of its next call, and the bytes of that call. A payload that
the device would not accept is not sent. -/
def prepare (session : Session) (callset : Callset) : Session × Except FetchError Bytes :=
  let seqn := session.seqn + 1
  let payload := (Frame.call seqn callset).encode
  let limit := session.deframer.limit.toNat
  ({ session with seqn },
    if limit < payload.length then .error (.framing (.tooLarge limit))
    else .ok (Cobs.frame payload))

/-- A finished call: its outcome, the bytes sent, the session after it, the arrivals not read. -/
structure Call where
  outcome : Option (Except FetchError Callset)
  sent : Option Bytes
  session : Session
  unread : List Arrival

def call (session : Session) (callset : Callset) (arrivals : List Arrival) : Call :=
  let (session, request) := session.prepare callset
  match request with
  | .error error => ⟨some (.error error), none, session, arrivals⟩
  | .ok bytes =>
    let received := receive session.seqn session.timeout session.deframer arrivals
    ⟨received.outcome, some bytes, { session with deframer := received.deframer }, received.unread⟩

end Session

def taskReply : Callset → Except FetchError Reply
  | .rtosUtils (.answer reply) => .ok reply
  | callset => .error (.otherMessage callset)

def taskSnapshot (outcome : Except FetchError Callset) : Except FetchError Snapshot :=
  outcome >>= taskReply >>= Reply.snapshot

end TaskMonitor
