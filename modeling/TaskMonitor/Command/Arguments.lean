import TaskMonitor.Duration
import TaskMonitor.Settings.File
import TaskMonitor.Watch

/-! The arguments of the program. General options may stand before and after the name of the
command; the nearer to the end, the stronger. Arguments are looked at from left to right, and
the first one that ends the program decides how. -/

set_option autoImplicit false

namespace TaskMonitor.Command

inductive Level where
  | top
  | getTasks
  | config
  deriving DecidableEq, Repr

inductive Switch where
  | config
  | verbose
  | host
  | port
  | timeout
  | help
  | version
  | json
  | watch
  | replay
  deriving DecidableEq, Repr

namespace Switch

def long : Switch → String
  | .config => "config"
  | .verbose => "verbose"
  | .host => "host"
  | .port => "port"
  | .timeout => "timeout-ms"
  | .help => "help"
  | .version => "version"
  | .json => "json"
  | .watch => "watch"
  | .replay => "replay"

def short? : Switch → Option Char
  | .config => some 'c'
  | .verbose => some 'v'
  | .port => some 'p'
  | .help => some 'h'
  | .version => some 'V'
  | .watch => some 'w'
  | _ => none

def takesValue : Switch → Bool
  | .verbose | .help | .version | .json => false
  | _ => true

end Switch

def Level.switches : Level → List Switch
  | .top => [.config, .verbose, .host, .port, .timeout, .help, .version]
  | .getTasks => [.config, .verbose, .host, .port, .timeout, .help, .json, .watch, .replay]
  | .config => [.config, .verbose, .host, .port, .timeout, .help]

structure Given where
  config : Option String := none
  verbosity : Nat := 0
  overrides : Settings.Overrides := {}
  json : Bool := false
  watch : Option Duration := none
  replay : Option String := none
  deriving DecidableEq, Repr

/-- Why the arguments lead to no command: they are wrong, they ask for a text about the program,
or they hold an interval that no duration can have. -/
inductive Stop where
  | misuse
  | help
  | version
  | overflow
  deriving DecidableEq, Repr

def number? (signs : List Char) (bound : Nat) (text : String) : Option Nat :=
  let (negative, digits) := match text.toList with
    | c :: rest => if c ∈ signs then (decide (c = '-'), rest) else (false, c :: rest)
    | [] => (false, [])
  let value := Number.readDigits 0 digits
  if digits = [] ∨ ¬digits.all Char.isDigit ∨ bound ≤ value ∨ (negative ∧ value ≠ 0) then none
  else some value

def Given.add (given : Given) (switch : Switch) (value : String) : Except Stop Given :=
  let once {α : Type} (old : Option α) (new : Option α) (add : Option α → Given) :
      Except Stop Given :=
    if old.isSome ∨ new.isNone then .error .misuse else .ok (add new)
  let path := if value = "" then none else some value
  match switch with
  | .config => once given.config path fun config => { given with config }
  | .replay => once given.replay path fun replay => { given with replay }
  | .verbose => .ok { given with verbosity := given.verbosity + 1 }
  | .host => once given.overrides.host (some value) fun host => { given with overrides.host := host }
  | .port =>
    once given.overrides.port ((number? ['+', '-'] UInt16.size value).map Nat.toUInt16) fun port =>
      { given with overrides.port := port }
  | .timeout =>
    once given.overrides.timeout ((number? ['+'] UInt64.size value).map Nat.toUInt64) fun timeout =>
      { given with overrides.timeout := timeout }
  | .json => if given.json then .error .misuse else .ok { given with json := true }
  | .watch =>
    match Duration.ofInterval value with
    | .error .tooLong => .error .overflow
    | .error _ => .error .misuse
    | .ok period => once given.watch (some period) fun watch => { given with watch }
  | .help => .error .help
  | .version => .error .version

inductive Pending where
  | nothing
  | waiting (switch : Switch)
  | holding (switch : Switch) (value : String)
  deriving DecidableEq, Repr

structure Progress where
  given : Given := {}
  pending : Pending := .nothing
  deriving DecidableEq, Repr

def Progress.settle (progress : Progress) : Except Stop Given :=
  match progress.pending with
  | .nothing => .ok progress.given
  | .waiting _ => .error .misuse
  | .holding switch value => progress.given.add switch value

def Progress.long (progress : Progress) (level : Level) (text : List Char) :
    Except Stop Progress := do
  let given ← progress.settle
  let name := String.ofList (text.takeWhile (· ≠ '='))
  match level.switches.find? (·.long = name), text.dropWhile (· ≠ '=') with
  | none, _ => throw .misuse
  | some switch, [] =>
    if switch.takesValue then return { given, pending := .waiting switch }
    else return { given := ← given.add switch "" }
  | some switch, _ :: value =>
    if switch.takesValue then return { given := ← given.add switch (String.ofList value) }
    else throw .misuse

def Progress.short (given : Given) (level : Level) : List Char → Except Stop Progress
  | [] => .ok { given }
  | c :: rest =>
    match level.switches.find? (·.short? = some c) with
    | none => .error .misuse
    | some switch =>
      if switch.takesValue then
        match rest with
        | [] => .ok { given, pending := .waiting switch }
        | d :: tail => do
          let value := if d = '=' then tail else rest
          return { given := ← given.add switch (String.ofList value) }
      else do
        let given ← given.add switch ""
        short given level rest

def Progress.switch? (progress : Progress) (level : Level) (argument : String) :
    Option (Except Stop Progress) :=
  match argument.toList with
  | '-' :: '-' :: text => some (progress.long level text)
  | '-' :: c :: text =>
    some (progress.settle >>= fun given => Progress.short given level (c :: text))
  | _ => none

def switches (level : Level) (progress : Progress) : List String → Except Stop Given
  | [] => progress.settle
  | argument :: rest =>
    if argument = "--" then do
      let given ← progress.settle
      if rest = [] then return given else throw .misuse
    else
      match progress.switch? level argument with
      | some step => step >>= fun progress => switches level progress rest
      | none =>
        match progress.pending with
        | .waiting switch =>
          switches level { progress with pending := .holding switch argument } rest
        | _ => progress.settle >>= fun _ => .error .misuse

def Given.under (inner outer : Given) : Given :=
  { inner with
    config := inner.config.or outer.config
    verbosity := if inner.verbosity = 0 then outer.verbosity else inner.verbosity
    overrides :=
      { host := inner.overrides.host.or outer.overrides.host
        port := inner.overrides.port.or outer.overrides.port
        timeout := inner.overrides.timeout.or outer.overrides.timeout } }

inductive Action where
  | settings
  | report (format : Format) (period : Option Duration) (replay : Option String)
  deriving DecidableEq, Repr

structure Invocation where
  config : Option String
  overrides : Settings.Overrides
  verbosity : Nat
  action : Action
  deriving DecidableEq, Repr

def Given.invocation (given : Given) (action : Action) : Invocation :=
  { config := given.config, overrides := given.overrides, verbosity := given.verbosity, action }

def helpOn : List String → Stop
  | [] => .help
  | [name] => if name ∈ ["get-tasks", "config", "help"] then .help else .misuse
  | _ => .misuse

/-- The arguments from the first one on that is neither a switch nor the value of one. A switch
right before the name of a command is looked at after the command. -/
def parseFrom (progress : Progress) : List String → Except Stop Invocation
  | [] => progress.settle >>= fun _ => .error .misuse
  | argument :: rest =>
    if argument = "--" then progress.settle >>= fun _ => .error .misuse
    else
      match progress.switch? .top argument, progress.pending with
      | some step, _ => step >>= fun progress => parseFrom progress rest
      | none, .waiting switch => parseFrom { progress with pending := .holding switch argument } rest
      | none, _ =>
        if argument = "get-tasks" then do
          let inner ← switches .getTasks {} rest
          let given := inner.under (← progress.settle)
          return given.invocation
            (.report (if given.json then .json else .table) given.watch given.replay)
        else if argument = "config" then do
          let inner ← switches .config {} rest
          return (inner.under (← progress.settle)).invocation .settings
        else if argument = "help" then .error (helpOn rest)
        else progress.settle >>= fun _ => .error .misuse

def parse (arguments : List String) : Except Stop Invocation := parseFrom {} arguments

end TaskMonitor.Command
