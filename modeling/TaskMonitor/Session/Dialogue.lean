import TaskMonitor.Session.Basic

/-! Sessions with a device whose reactions are laid down in advance. -/

set_option autoImplicit false

namespace TaskMonitor

open TaskMonitor.Rpc (Callset)

/-- What the device does about one request. It may end its stream after sending. -/
structure Reaction where
  sends : Bytes := []
  ends : Bool := false
  deriving DecidableEq, Repr

def reads (bytes : Bytes) : List Arrival :=
  if bytes = [] then []
  else .bytes (bytes.take readSize) :: reads (bytes.drop readSize)
termination_by bytes.length
decreasing_by
  have := List.length_pos_iff.mpr ‹¬bytes = []›
  simp only [List.length_drop, readSize]
  omega

/-- A session and a device: what the device has sent that is not read yet, whether its stream
has ended, its reactions to further requests, and the requests it got. -/
structure Dialogue where
  session : Session
  unread : List Arrival := []
  ended : Bool := false
  reactions : List Reaction := []
  requests : List Bytes := []

namespace Dialogue

def start (settings : Settings) (greeting : Bytes) (reactions : List Reaction) : Dialogue :=
  { session := .start settings, unread := reads greeting, reactions }

def arrivals (dialogue : Dialogue) (reaction : Reaction) : List Arrival :=
  if dialogue.ended then dialogue.unread
  else dialogue.unread ++ reads reaction.sends ++ if reaction.ends then [.ended] else []

def call (dialogue : Dialogue) (callset : Callset) :
    Option (Except FetchError Callset) × Dialogue :=
  let reaction := dialogue.reactions.head?.getD {}
  let done := dialogue.session.call callset (dialogue.arrivals reaction)
  match done.sent with
  | none => (done.outcome, { dialogue with session := done.session })
  | some request =>
    (done.outcome,
      { session := done.session
        unread := done.unread
        ended := dialogue.ended || reaction.ends
        reactions := dialogue.reactions.tail
        requests := dialogue.requests ++ [request] })

def fetch (dialogue : Dialogue) : Option (Except FetchError Snapshot) × Dialogue :=
  let (outcome, dialogue) := dialogue.call .taskRequest
  (outcome.map taskSnapshot, dialogue)

def fetches (dialogue : Dialogue) : Nat → List (Except FetchError Snapshot)
  | 0 => []
  | count + 1 =>
    match dialogue.fetch with
    | (none, _) => []
    | (some snapshot, dialogue) => snapshot :: dialogue.fetches count

end Dialogue

end TaskMonitor
