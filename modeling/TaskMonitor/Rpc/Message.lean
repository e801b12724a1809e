import TaskMonitor.Snapshot.Wire

/-! Messages between a client and a device: a header with a sequence number and a status, and
a callset message. They travel as compact JSON. -/

set_option autoImplicit false

namespace TaskMonitor.Rpc

open TaskMonitor.Json (Document Reader Record Variant)

inductive Status where
  | success
  | badResolverLookup
  | badHandlerLookup
  | badCallsetUnpack
  | handlerError
  | unknown
  deriving DecidableEq, Repr

def Status.name : Status → String
  | .success => "RPC_SUCCESS"
  | .badResolverLookup => "RPC_BAD_RESOLVER_LOOKUP"
  | .badHandlerLookup => "RPC_BAD_HANDLER_LOOKUP"
  | .badCallsetUnpack => "RPC_BAD_CALLSET_UNPACK"
  | .handlerError => "RPC_HANDLER_ERROR"
  | .unknown => "UNKNOWN"

/-- Every other name is that of an unknown status. -/
def Status.ofName (name : String) : Status :=
  ([.success, .badResolverLookup, .badHandlerLookup, .badCallsetUnpack, .handlerError].find?
    (·.name = name)).getD .unknown

structure Header where
  seqn : UInt32
  noReply : Bool := false
  status : Status := .success
  deriving DecidableEq, Repr

inductive TaskMessage where
  | request
  | answer (reply : Reply)
  deriving DecidableEq, Repr

inductive Callset where
  | rtosUtils (message : TaskMessage)
  deriving DecidableEq, Repr

def Callset.taskRequest : Callset := .rtosUtils .request

def Callset.name : Callset → String
  | .rtosUtils .request => "Rtosutils(GetSystemTasksCall)"
  | .rtosUtils (.answer _) => "Rtosutils(GetSystemTasksReply)"

structure Frame where
  header : Header
  callset : Option Callset := none
  deriving DecidableEq, Repr

def Frame.call (seqn : UInt32) (callset : Callset) : Frame := ⟨{ seqn }, some callset⟩

def Frame.reply (seqn : UInt32) (status : Status) (callset : Option Callset) : Frame :=
  ⟨{ seqn, status }, callset⟩

def Status.reader : Reader Status :=
  Json.variant fun name => some
    { bare := some (.ofName name)
      content := do
        Json.nothing
        return .ofName name }

def Status.document (status : Status) : Document := .text status.name

structure HeaderParts where
  seqn : Option UInt32 := none
  noReply : Bool := false
  status : Status := .success

def Header.record : Record HeaderParts Header :=
  { fields :=
      [⟨"seqn", fun parts => return { parts with seqn := ← Json.present Json.uint32 }⟩,
       ⟨"no_reply", fun parts => return { parts with noReply := ← Json.bool }⟩,
       ⟨"status", fun parts => return { parts with status := ← Status.reader }⟩]
    start := {}
    finish := fun parts => return ⟨← parts.seqn, parts.noReply, parts.status⟩ }

def Header.reader : Reader Header := Header.record.read

def Header.document (header : Header) : Document :=
  .object
    [("seqn", .integer header.seqn.toNat), ("no_reply", .bool header.noReply),
     ("status", header.status.document)]

/-- A record without fields, in which every member is passed over. -/
def emptyRecord : Record Unit Unit := { fields := [], start := (), finish := some }

def TaskMessage.reader : Reader TaskMessage :=
  Json.variant fun name =>
    if name = "get_system_tasks_call" then some
      { bare := none
        content := do
          emptyRecord.read
          return .request }
    else if name = "get_system_tasks_reply" then some
      { bare := none, content := return .answer (← Reply.reader) }
    else none

def TaskMessage.document : TaskMessage → Document
  | .request => .object [("get_system_tasks_call", .object [])]
  | .answer reply => .object [("get_system_tasks_reply", reply.document)]

def Callset.reader : Reader Callset :=
  Json.variant fun name =>
    if name = "rtosutils" then some
      { bare := none, content := return .rtosUtils (← TaskMessage.reader) }
    else none

def Callset.document : Callset → Document
  | .rtosUtils message => .object [("rtosutils", message.document)]

structure FrameParts where
  header : Option Header := none
  callset : Option Callset := none

def Frame.record : Record FrameParts Frame :=
  { fields :=
      [⟨"header", fun parts => return { parts with header := ← Json.present Header.reader }⟩,
       ⟨"callset", fun parts => return { parts with callset := ← Json.nullable Callset.reader }⟩]
    start := {}
    finish := fun parts => return ⟨← parts.header, parts.callset⟩ }

def Frame.reader : Reader Frame := Frame.record.read

def Frame.document (frame : Frame) : Document :=
  .object (("header", frame.header.document) ::
    match frame.callset with
    | none => []
    | some callset => [("callset", callset.document)])

def Frame.encode (frame : Frame) : Bytes := Utf8.encode frame.document.compact

def Frame.decode (payload : Bytes) : Except Json.Fault Frame := Json.read Frame.reader payload

end TaskMonitor.Rpc
