import TaskMonitor.Settings.Basic
import TaskMonitor.Toml.Document

/-! Settings in TOML files, and settings from a file with some of them overridden. -/

set_option autoImplicit false

namespace TaskMonitor

inductive SettingsError where
  | unreadable (path : String)
  | notToml
  | tooLargeForToml
  | invalid (cause : InvalidSetting)
  deriving DecidableEq, Repr

/-- A text as it stands in a file, or the lack of one. -/
abbrev FileText := Option (List Char)

def FileText.ofBytes (bytes : Bytes) : FileText := Utf8.decode? bytes

namespace Settings

def textIn (entries : Toml.Entries) (key : String) (default : String) : Option String :=
  match entries.get? key with
  | none => some default
  | some (.text value) => some value
  | some _ => none

def numberIn (entries : Toml.Entries) (key : String) (default most : Nat) : Option Nat :=
  match entries.get? key with
  | none => some default
  | some (.integer value) => if 0 ≤ value ∧ value ≤ most then some value.toNat else none
  | some _ => none

/-- Settings from the entries of a document; entries of other names have no meaning. -/
def ofEntries? (entries : Toml.Entries) : Option Settings := do
  let default : Settings := {}
  return {
    host := ← textIn entries hostKey default.host
    port := .ofNat (← numberIn entries portKey default.port.toNat (UInt16.size - 1))
    timeout := .ofNat (← numberIn entries timeoutKey default.timeout.toNat (UInt64.size - 1))
    frameLimit := .ofNat (← numberIn entries frameLimitKey default.frameLimit.toNat (UInt64.size - 1)) }

def ofToml (text : List Char) : Except SettingsError Settings :=
  match Toml.parse? text >>= ofEntries? with
  | none => .error .notToml
  | some settings =>
    match settings.validate with
    | .ok () => .ok settings
    | .error cause => .error (.invalid cause)

def line (key : String) (value : List Char) : List Char :=
  key.toList ++ " = ".toList ++ value ++ ['\n']

def toToml (settings : Settings) : Except SettingsError (List Char) :=
  if settings.timeout.toNat ≤ Toml.mostInteger ∧ settings.frameLimit.toNat ≤ Toml.mostInteger then
    .ok (line hostKey (Toml.quote settings.host) ++
      line portKey (Number.digits settings.port.toNat) ++
      line timeoutKey (Number.digits settings.timeout.toNat) ++
      line frameLimitKey (Number.digits settings.frameLimit.toNat))
  else .error .tooLargeForToml

def ofFile (path : String) (text : FileText) : Except SettingsError Settings :=
  match text with
  | none => .error (.unreadable path)
  | some text => ofToml text

structure Overrides where
  host : Option String := none
  port : Option UInt16 := none
  timeout : Option UInt64 := none
  deriving DecidableEq, Repr

def override (settings : Settings) (overrides : Overrides) : Settings :=
  { settings with
    host := overrides.host.getD settings.host
    port := overrides.port.getD settings.port
    timeout := overrides.timeout.getD settings.timeout }

/-- Why there are no settings: the file has none, or they are not valid once overridden. -/
inductive LoadError where
  | file (path : String) (error : SettingsError)
  | settings (cause : InvalidSetting)
  deriving DecidableEq, Repr

def LoadError.message : LoadError → String
  | .file path _ => s!"failed to load config '{path}'"
  | .settings _ => "invalid connection settings"

/-- Settings from a file, or the defaults without one, with overrides. The file has to hold
valid settings of its own. -/
def load (file : Option (String × FileText)) (overrides : Overrides) :
    Except LoadError Settings := do
  let settings ← match file with
    | none => .ok {}
    | some (path, text) => (ofFile path text).mapError (.file path)
  let settings := settings.override overrides
  (settings.validate).mapError .settings
  return settings

end Settings

end TaskMonitor
