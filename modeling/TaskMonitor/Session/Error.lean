import TaskMonitor.Framing.Deframer
import TaskMonitor.Rpc.Message

/-! Why there is no snapshot: every failure of a device, a connection or a recorded reply. -/

set_option autoImplicit false

namespace TaskMonitor

open TaskMonitor.Rpc (Status Callset)

inductive Operation where
  | connecting
  | calling
  deriving DecidableEq, Repr

def Operation.name : Operation → String
  | .connecting => "connect"
  | .calling => "rpc call"

inductive FetchError where
  | unreachable (address : String)
  | timeout (operation : Operation) (milliseconds : UInt64)
  | closed
  | framing (error : FrameError)
  | undecodable (fault : Json.Fault)
  | rejected (status : Status)
  | foreign (expected got : UInt32)
  | noCallset
  | otherMessage (callset : Callset)
  | incomplete (gap : Gap)
  | unreadable (path : String)
  deriving DecidableEq, Repr

def FetchError.message : FetchError → String
  | .unreachable address => s!"failed to connect to {address}"
  | .timeout operation milliseconds => s!"{operation.name} timed out after {milliseconds} ms"
  | .closed => "connection closed by device"
  | .framing error => s!"framing error: {error.message}"
  | .undecodable _ => "failed to decode RPC frame"
  | .rejected status => s!"device returned status {status.name}"
  | .foreign expected got => s!"reply sequence number {got} does not match request {expected}"
  | .noCallset => "unexpected reply: reply carries no callset"
  | .otherMessage callset =>
    s!"unexpected reply: expected get_system_tasks_reply, got {callset.name}"
  | .incomplete gap => s!"malformed reply: {gap.message}"
  | .unreadable path => s!"cannot read snapshot file '{path}'"

def Reply.snapshot (reply : Reply) : Except FetchError Snapshot :=
  reply.validate.mapError .incomplete

end TaskMonitor
