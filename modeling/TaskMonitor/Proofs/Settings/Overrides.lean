import TaskMonitor.Proofs.Settings.File

/-! What a file decides where settings are overridden: whether there are settings at all, as it has
to hold valid ones of its own, but not their values. -/

set_option autoImplicit false

namespace TaskMonitor.Settings

open Toml (Entries)

/-- A document with settings that are of the right types and in range, valid or not. -/
def Holds (text : List Char) (settings : Settings) : Prop :=
  (Toml.parse? text >>= ofEntries?) = some settings

/-- The same settings where they are not overridden. -/
structure Overrides.Agree (overrides : Overrides) (first second : Settings) : Prop where
  host : overrides.host = none → first.host = second.host
  port : overrides.port = none → first.port = second.port
  timeout : overrides.timeout = none → first.timeout = second.timeout
  frameLimit : first.frameLimit = second.frameLimit

theorem getD_congr {α : Type} {given : Option α} {first second : α}
    (same : given = none → first = second) : given.getD first = given.getD second := by
  cases given with
  | none => exact same rfl
  | some value => rfl

theorem Overrides.Agree.override_eq {overrides : Overrides} {first second : Settings}
    (agree : overrides.Agree first second) :
    first.override overrides = second.override overrides := by
  simp only [override, getD_congr agree.host, getD_congr agree.port, getD_congr agree.timeout,
    agree.frameLimit]

theorem holds_of_ofToml {text : List Char} {settings : Settings}
    (ok : ofToml text = .ok settings) : Holds text settings := by
  unfold ofToml at ok
  split at ok
  · cases ok
  · next read =>
    split at ok <;> cases ok
    exact read

theorem load_of_valid {text : List Char} {settings : Settings} (path : String)
    (overrides : Overrides) (holds : Holds text settings) (valid : settings.validate = .ok ()) :
    load (some (path, some text)) overrides =
      match (settings.override overrides).validate with
      | .ok () => .ok (settings.override overrides)
      | .error cause => .error (.settings cause) := by
  have own : ofToml text = .ok settings := by
    simp only [ofToml, show _ = some settings from holds, valid]
  simp only [load, ofFile, own]
  cases checked : (settings.override overrides).validate <;>
    simp [Except.mapError, bind, Except.bind, pure, Except.pure, checked]

theorem load_of_invalid {text : List Char} {settings : Settings} {cause : InvalidSetting}
    (path : String) (overrides : Overrides) (holds : Holds text settings)
    (invalid : settings.validate = .error cause) :
    load (some (path, some text)) overrides = .error (.file path (.invalid cause)) := by
  simp only [load, ofFile, ofToml, show _ = some settings from holds, invalid]
  rfl

theorem load_eq_ok {path : String} {text : List Char} {overrides : Overrides}
    {settings : Settings} (ok : load (some (path, some text)) overrides = .ok settings) :
    settings.validate = .ok () ∧ ∃ own, ofToml text = .ok own ∧
      settings = own.override overrides := by
  simp only [load, ofFile] at ok
  cases read : ofToml text with
  | error error => simp [read, Except.mapError, bind, Except.bind] at ok
  | ok own =>
    cases valid : (own.override overrides).validate with
    | error cause => simp [read, valid, Except.mapError, bind, Except.bind] at ok
    | ok _ =>
      simp only [read, valid, Except.mapError, bind, Except.bind, pure, Except.pure,
        Except.ok.injEq] at ok
      subst ok
      exact ⟨valid, own, rfl, rfl⟩

/-! ## The value of each setting -/

def textOf (entries : Entries) (key : String) : Option String :=
  match entries.get? key with
  | some (.text value) => some value
  | _ => none

def integerOf (entries : Entries) (key : String) : Option Int :=
  match entries.get? key with
  | some (.integer value) => some value
  | _ => none

theorem textIn_eq {entries : Entries} {key default value : String}
    (read : textIn entries key default = some value) :
    value = (textOf entries key).getD default := by
  unfold textIn at read
  unfold textOf
  split at read <;> simp_all

theorem numberIn_spec {entries : Entries} {key : String} {default most number : Nat}
    (usual : default ≤ most) (read : numberIn entries key default most = some number) :
    number ≤ most ∧ (number : Int) = (integerOf entries key).getD default := by
  unfold numberIn at read
  unfold integerOf
  split at read
  · next absent =>
    cases read
    simpa [absent] using usual
  · next value held =>
    split at read
    · cases read
      simp only [held, Option.getD_some]
      omega
    · cases read
  · cases read

/-- The first of the values that is given: beside the file, in it, or the default. -/
structure Layered (overrides : Overrides) (entries : Entries) (settings : Settings) : Prop where
  host : settings.host = overrides.host.getD ((textOf entries hostKey).getD "127.0.0.1")
  port : (settings.port.toNat : Int) =
    (overrides.port.map (·.toNat : UInt16 → Int)).getD ((integerOf entries portKey).getD 5000)
  timeout : (settings.timeout.toNat : Int) =
    (overrides.timeout.map (·.toNat : UInt64 → Int)).getD
      ((integerOf entries timeoutKey).getD 2000)
  frameLimit : (settings.frameLimit.toNat : Int) = (integerOf entries frameLimitKey).getD 4096

theorem layered_of_entries {entries : Entries} {own : Settings} (overrides : Overrides)
    (read : ofEntries? entries = some own) :
    Layered overrides entries (own.override overrides) := by
  simp only [ofEntries?, Option.bind_eq_bind, Option.bind_eq_some_iff, Option.pure_def] at read
  obtain ⟨host, hostIn, port, portIn, timeout, timeoutIn, frameLimit, frameLimitIn, same⟩ := read
  cases same
  obtain ⟨most, portSame⟩ := numberIn_spec (by decide) portIn
  have portMost := UInt16.toNat_ofNat_of_lt' (Nat.lt_of_le_sub_one (by decide) most)
  obtain ⟨most, timeoutSame⟩ := numberIn_spec (by decide) timeoutIn
  have timeoutMost := UInt64.toNat_ofNat_of_lt' (Nat.lt_of_le_sub_one (by decide) most)
  obtain ⟨most, frameLimitSame⟩ := numberIn_spec (by decide) frameLimitIn
  have frameLimitMost := UInt64.toNat_ofNat_of_lt' (Nat.lt_of_le_sub_one (by decide) most)
  refine ⟨?_, ?_, ?_, ?_⟩
  · simp only [override, textIn_eq hostIn]
  · cases given : overrides.port with
    | none =>
      simp only [override, given, Option.getD_none, Option.map_none, portMost, portSame]
      rfl
    | some value => simp [override, given]
  · cases given : overrides.timeout with
    | none =>
      simp only [override, given, Option.getD_none, Option.map_none, timeoutMost, timeoutSame]
      rfl
    | some value => simp [override, given]
  · simp only [override, frameLimitMost, frameLimitSame]
    rfl

/-- Files that hold valid settings lead to the same result if they agree where nothing is given
beside them. A file that does not is refused, whatever is given. When settings are loaded, each is
the first value that is given for it, and the whole is valid. -/
theorem load_overrides (overrides : Overrides) :
    (∀ firstPath firstText first secondPath secondText second,
      Holds firstText first → Holds secondText second → overrides.Agree first second →
      first.validate = .ok () → second.validate = .ok () →
      load (some (firstPath, some firstText)) overrides =
        load (some (secondPath, some secondText)) overrides) ∧
      (∀ path text settings cause, Holds text settings → settings.validate = .error cause →
        load (some (path, some text)) overrides = .error (.file path (.invalid cause))) ∧
      ∀ path text entries settings, Toml.parse? text = some entries →
        load (some (path, some text)) overrides = .ok settings →
        Layered overrides entries settings ∧ settings.validate = .ok () := by
  refine ⟨?_, ?_, ?_⟩
  · intro firstPath firstText first secondPath secondText second holds holds' agree valid valid'
    rw [load_of_valid firstPath overrides holds valid,
      load_of_valid secondPath overrides holds' valid', agree.override_eq]
  · intro path text settings cause holds invalid
    exact load_of_invalid path overrides holds invalid
  · intro path text entries settings parsed ok
    obtain ⟨valid, own, read, rfl⟩ := load_eq_ok ok
    have holds := holds_of_ofToml read
    rw [Holds, parsed] at holds
    exact ⟨layered_of_entries overrides holds, valid⟩

theorem holds_five : Holds "timeout_ms = 5".toList { timeout := 5 } := by
  unfold Holds
  decide +kernel

theorem holds_zero : Holds "timeout_ms = 0".toList { timeout := 0 } := by
  unfold Holds
  decide +kernel

/-- Two files that differ in a timeout that is overridden, and one that is refused for it. -/
theorem load_overrides_timeout :
    (∃ settings, load (some ("a.toml", some "timeout_ms = 5".toList)) { timeout := some 7 } =
        .ok settings ∧
      load (some ("b.toml", some "timeout_ms = 2000".toList)) { timeout := some 7 } =
        .ok settings ∧
      settings.timeout.toNat = 7 ∧ settings.validate = .ok ()) ∧
      load (some ("c.toml", some "timeout_ms = 0".toList)) { timeout := some 7 } =
        .error (.file "c.toml" (.invalid .zeroTimeout)) := by
  have second : Holds "timeout_ms = 2000".toList {} := by unfold Holds; decide +kernel
  obtain ⟨entries, parsed, _⟩ := Option.bind_eq_some_iff.mp holds_five
  obtain ⟨same, refused, layered⟩ := load_overrides { timeout := some 7 }
  have agree := same "a.toml" _ _ "b.toml" _ _ holds_five second
    ⟨fun _ => rfl, fun _ => rfl, fun given => absurd given (Option.some_ne_none 7), rfl⟩
    (by decide) (by decide)
  have loaded := load_of_valid "a.toml" { timeout := some 7 } holds_five (by decide)
  refine ⟨⟨_, loaded, agree.symm.trans loaded, ?_⟩,
    refused "c.toml" _ _ _ holds_zero (by decide)⟩
  obtain ⟨layers, valid⟩ := layered "a.toml" _ _ _ parsed loaded
  exact ⟨Int.ofNat.inj layers.timeout, valid⟩

/-- A timeout that is overridden, valid in one file and not in the other. -/
theorem load_overridden_invalid :
    ∃ first second : Settings, Holds "timeout_ms = 0".toList first ∧
      Holds "timeout_ms = 5".toList second ∧
      Overrides.Agree { timeout := some 5 } first second ∧
      load (some ("board.toml", some "timeout_ms = 0".toList)) { timeout := some 5 } ≠
        load (some ("board.toml", some "timeout_ms = 5".toList)) { timeout := some 5 } := by
  refine ⟨_, _, holds_zero, holds_five, ⟨fun _ => rfl, fun _ => rfl, fun given => ?_, rfl⟩, ?_⟩
  · exact absurd given (Option.some_ne_none 5)
  have invalid : validate { timeout := 0 } = .error .zeroTimeout := by decide
  have valid : validate { timeout := 5 } = .ok () := by decide
  rw [load_of_invalid _ _ holds_zero invalid, load_of_valid _ _ holds_five valid]
  decide

end TaskMonitor.Settings
