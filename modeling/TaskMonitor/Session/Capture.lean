import TaskMonitor.Session.Error
import TaskMonitor.Settings.File

/-! Replies recorded in files. -/

set_option autoImplicit false

namespace TaskMonitor

def replay (path : String) (text : FileText) : Except FetchError Snapshot :=
  match text with
  | none => .error (.unreadable path)
  | some text =>
    match Json.read Reply.reader (Utf8.encode text) with
    | .error fault => .error (.undecodable fault)
    | .ok reply => reply.snapshot

end TaskMonitor
