import TaskMonitor.Command.Arguments
import TaskMonitor.Session.Capture

/-! A whole run of the program, given the files it can read and the device it can reach. -/

set_option autoImplicit false

namespace TaskMonitor.Command

/-- What a run depends on. A device that cannot be reached gives no fetches. An interrupt comes
after so many cycles. -/
structure World where
  file : String → FileText
  device : Settings → Option (Nat → Except FetchError Snapshot)
  cycles : Nat

structure Ending where
  status : Nat
  output : List Char := []
  failure : Option String := none
  deriving DecidableEq, Inhabited, Repr

def versionText : String := "rtos-cli 0.1.0\n"

def helpText : String :=
  "Query task telemetry from an RTOS device over RPC

Usage: rtos-cli [OPTIONS] <COMMAND>

Commands:
  get-tasks  Print a table of RTOS tasks from the device
  config     Print the effective client configuration as TOML
  help       Print this message or the help of the given subcommand(s)

Options:
  -c, --config <CONFIG>          Path to a TOML configuration file with connection settings
  -v, --verbose...               Enable verbose logging (repeat for more: -v, -vv, -vvv)
      --host <HOST>              Device hostname or IP address (overrides the config file)
  -p, --port <PORT>              Device RPC port (overrides the config file)
      --timeout-ms <TIMEOUT_MS>  Connect and per-call timeout in milliseconds (overrides the config file)
  -h, --help                     Print help
  -V, --version                  Print version

Options of get-tasks:
      --json                     Emit the normalized report as JSON instead of a table
  -w, --watch <SECS>             Repeat the report every SECS seconds until interrupted
      --replay <FILE>            Read a recorded reply from FILE instead of querying the device
"

/-- The end of a run that the program itself does not come back from. -/
def Ending.stopped : Ending := { status := 101 }

/-- An interval that no wait can have ends a run without a word. -/
def Ending.unfit : Ending := .stopped

def Stop.ending : Stop → Ending
  | .misuse => { status := 2 }
  | .help => { status := 0, output := helpText.toList }
  | .version => { status := 0, output := versionText.toList }
  | .overflow => .unfit

def failureLine (failure : String) : String :=
  String.ofList ("Error: ".toList ++ failure.toList.takeWhile (· ≠ '\n'))

def failed (output : List Char) (failure : String) : Ending :=
  { status := 1, output, failure := some (failureLine failure) }

def Ending.ofPrinted (printed : Printed) : Ending :=
  match printed.failure with
  | none => { status := 0, output := printed.output }
  | some _ => failed printed.output fetchFailure

def unreachable (settings : Settings) : String := s!"cannot reach device at {settings.address}"

def unwritable : String := "TOML serialise error"

/-- How often to report. A period that rounds to no time at all cannot be waited. -/
inductive Schedule where
  | once
  | every (period : Duration)
  | unfit

def Schedule.ofPeriod : Option Duration → Schedule
  | none => .once
  | some period => if period.nanoseconds = 0 then .unfit else .every period

def report (format : Format) (period : Option Duration) (cycles : Nat)
    (fetch : Nat → Except FetchError Snapshot) : Ending :=
  match Schedule.ofPeriod period with
  | .once => .ofPrinted (printOnce format (fetch 0))
  | .every _ => .ofPrinted (watch format fetch cycles)
  | .unfit => .unfit

def Invocation.settings (invocation : Invocation) (file : String → FileText) :
    Except Settings.LoadError Settings :=
  Settings.load (invocation.config.map fun path => (path, file path)) invocation.overrides

def showSettings (settings : Settings) : Ending :=
  match settings.toToml with
  | .ok text => { status := 0, output := text }
  | .error _ => failed [] unwritable

def perform (world : World) (settings : Settings) : Action → Ending
  | .settings => showSettings settings
  | .report format period (some path) =>
    report format period world.cycles fun _ => TaskMonitor.replay path (world.file path)
  | .report format period none =>
    match world.device settings with
    | none => failed [] (unreachable settings)
    | some fetch => report format period world.cycles fetch

def run (world : World) (arguments : List String) : Ending :=
  match parse arguments with
  | .error stop => stop.ending
  | .ok invocation =>
    match invocation.settings world.file with
    | .error error => failed [] error.message
    | .ok settings => perform world settings invocation.action

end TaskMonitor.Command
