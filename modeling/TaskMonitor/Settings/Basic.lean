import TaskMonitor.Duration
import TaskMonitor.Json.Document
import TaskMonitor.Json.Typed

/-! Connection settings: where the device is, how long to wait, and how much to accept. -/

set_option autoImplicit false

namespace TaskMonitor

/-- `timeout` is in milliseconds and bounds connecting and each call; `frameLimit` is in bytes
and bounds each payload. -/
structure Settings where
  host : String := "127.0.0.1"
  port : UInt16 := 5000
  timeout : UInt64 := 2000
  frameLimit : UInt64 := 4096
  deriving DecidableEq, Repr

inductive InvalidSetting where
  | emptyHost
  | zeroTimeout
  | zeroFrameLimit
  deriving DecidableEq, Repr

def InvalidSetting.message : InvalidSetting → String
  | .emptyHost => "invalid configuration: host must not be empty"
  | .zeroTimeout => "invalid configuration: timeout_ms must be greater than zero"
  | .zeroFrameLimit => "invalid configuration: max_frame_size must be greater than zero"

namespace Settings

/-- The first setting that is out of range, if one is. A blank host counts as empty. -/
def validate (settings : Settings) : Except InvalidSetting Unit :=
  if Text.trim settings.host.toList = [] then .error .emptyHost
  else if settings.timeout = 0 then .error .zeroTimeout
  else if settings.frameLimit = 0 then .error .zeroFrameLimit
  else .ok ()

def address (settings : Settings) : String := s!"{settings.host}:{settings.port}"

def patience (settings : Settings) : Duration := .ofMilliseconds settings.timeout

def hostKey : String := "host"
def portKey : String := "port"
def timeoutKey : String := "timeout_ms"
def frameLimitKey : String := "max_frame_size"

def record : Json.Record Settings Settings :=
  { fields :=
      [⟨hostKey, fun settings => return { settings with host := ← Json.text }⟩,
       ⟨portKey, fun settings => return { settings with port := ← Json.uint16 }⟩,
       ⟨timeoutKey, fun settings => return { settings with timeout := ← Json.uint64 }⟩,
       ⟨frameLimitKey, fun settings => return { settings with frameLimit := ← Json.uint64 }⟩]
    start := {}
    finish := some }

def reader : Json.Reader Settings := record.read

def document (settings : Settings) : Json.Document :=
  .object
    [(hostKey, .text settings.host), (portKey, .integer settings.port.toNat),
     (timeoutKey, .integer settings.timeout.toNat),
     (frameLimitKey, .integer settings.frameLimit.toNat)]

end Settings

end TaskMonitor
