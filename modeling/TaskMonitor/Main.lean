import Std.Async.DNS
import Std.Async.Signal
import Std.Async.TCP
import Std.Async.Timer
import TaskMonitor.Command.Execution
import TaskMonitor.Session.Basic

/-! The program itself: files, connections and clocks around the rules. -/

set_option autoImplicit false

namespace TaskMonitor.Command

open Std.Async
open TaskMonitor.Rpc (Callset)

def readText (path : String) : IO FileText := do
  try return .ofBytes (← IO.FS.readBinFile path).toList
  catch _ => return none

def conclude (ending : Ending) : IO UInt32 := do
  IO.print (String.ofList ending.output)
  if let some line := ending.failure then IO.eprintln line
  if ending.status = 2 then IO.eprint helpText
  return ending.status.toUInt32

/-- A wait of so many milliseconds, or of the longest time that the clock can count. -/
def pause (milliseconds : Nat) : Std.Time.Millisecond.Offset := .ofNat (min milliseconds 0x3FFFFFFFFFFFFFFF)

def socketAddress (port : UInt16) : Std.Net.IPAddr → Std.Net.SocketAddress
  | .v4 addr => .v4 { addr, port }
  | .v6 addr => .v6 { addr, port }

def connect (settings : Settings) : Async (Option TCP.Socket.Client) := do
  let addresses ← try DNS.getAddrInfo settings.host "" catch _ => pure #[]
  for address in addresses do
    try
      let socket ← TCP.Socket.Client.mk
      socket.connect (socketAddress settings.port address)
      socket.noDelay
      return some socket
    catch _ => continue
  return none

def inTime {α : Type} (milliseconds : UInt64) (attempt : Async (Option α)) : Async (Option α) :=
  Async.race attempt do
    sleep (pause milliseconds.toNat)
    return none

def arrival (socket : TCP.Socket.Client) (moment : Nat) : Async (Option Arrival) := do
  let rest ← Selector.sleep (pause (moment - (← IO.monoMsNow)))
  Selectable.one #[
    .case (socket.recvSelector readSize.toUInt64) fun
      | none => return some .ended
      | some bytes => return some (.bytes bytes.toList),
    .case rest fun _ => return none]

/-- Read until the call has an outcome or its time is over. There is none if the program stops. -/
partial def listen (socket : TCP.Socket.Client) (moment : Nat) (session : Session)
    (arrivals : List Arrival) : Async (Option (Except FetchError Callset) × Session) := do
  let received := Session.receive session.seqn session.timeout session.deframer arrivals
  let session := { session with deframer := received.deframer }
  match received.outcome with
  | some (.error (.timeout ..)) =>
    match ← arrival socket moment with
    | none => return (received.outcome, session)
    | some arrival => listen socket moment session [arrival]
  | outcome => return (outcome, session)

def fetch (socket : TCP.Socket.Client) (session : IO.Ref Session) :
    Async (Option (Except FetchError Snapshot)) := do
  let (prepared, request) := (← session.get).prepare .taskRequest
  session.set prepared
  match request with
  | .error error => return some (.error error)
  | .ok bytes =>
    try
      let moment := (← IO.monoMsNow) + prepared.timeout.toNat
      socket.send (ByteArray.mk bytes.toArray)
      let (outcome, later) ← listen socket moment prepared []
      session.set later
      return outcome.map taskSnapshot
    catch _ => return some (.error .closed)

partial def repeatReport (format : Format) (period : Duration)
    (fetch : Async (Option (Except FetchError Snapshot))) (index : Nat) : Async Ending := do
  let some snapshot ← fetch | return .stopped
  match cycle format index snapshot with
  | .error failure => return .ofPrinted (gaveUp failure)
  | .ok text =>
    IO.print (String.ofList text)
    (← IO.getStdout).flush
    sleep (pause ((period.nanoseconds + 999999) / 1000000))
    repeatReport format period fetch (index + 1)

def printReports (format : Format) (period : Option Duration)
    (fetch : Async (Option (Except FetchError Snapshot))) : Async Ending := do
  match Schedule.ofPeriod period with
  | .once =>
    let some snapshot ← fetch | return .stopped
    return .ofPrinted (printOnce format snapshot)
  | .every period =>
    let interrupt ← Signal.Waiter.mk .sigint false
    Async.race (repeatReport format period fetch 0) do
      let _ ← await (← interrupt.wait)
      return { status := 0 }
  | .unfit => return .unfit

def act (settings : Settings) : Action → Async Ending
  | .settings => return showSettings settings
  | .report format period (some path) =>
    printReports format period do return some (TaskMonitor.replay path (← readText path))
  | .report format period none => do
    match ← inTime settings.timeout (connect settings) with
    | none => return failed [] (unreachable settings)
    | some socket =>
      let session ← IO.mkRef (Session.start settings)
      let ending ← printReports format period (fetch socket session)
      try socket.shutdown catch _ => pure ()
      return ending

end TaskMonitor.Command

open TaskMonitor TaskMonitor.Command in
def main (arguments : List String) : IO UInt32 := do
  match parse arguments with
  | .error stop => conclude stop.ending
  | .ok invocation =>
    let text ← match invocation.config with
      | none => pure none
      | some path => readText path
    match invocation.settings fun _ => text with
    | .error error => conclude (failed [] error.message)
    | .ok settings => conclude (← (act settings invocation.action).block)
