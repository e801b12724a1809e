import TaskMonitor.Proofs.Toml.Document
import TaskMonitor.Settings.File

/-! Settings that are written to a file are read back from it. They can be written if their
numbers are integers of TOML, as those of settings from a file always are. -/

set_option autoImplicit false

namespace TaskMonitor.Settings

open Toml (Bare Written Entries mostInteger linesFrom_line written_quote written_digits)

def Writable (settings : Settings) : Prop :=
  settings.timeout.toNat ≤ mostInteger ∧ settings.frameLimit.toNat ≤ mostInteger

def entries (settings : Settings) : Entries :=
  [(hostKey, .text settings.host), (portKey, .integer settings.port.toNat),
   (timeoutKey, .integer settings.timeout.toNat),
   (frameLimitKey, .integer settings.frameLimit.toNat)]

theorem line_append (key : String) (value rest : List Char) :
    line key value ++ rest = key.toList ++ ' ' :: '=' :: ' ' :: (value ++ '\n' :: rest) := by
  simp [line]

def lines (settings : Settings) : List Char :=
  line hostKey (Toml.quote settings.host) ++
    line portKey (Number.digits settings.port.toNat) ++
    line timeoutKey (Number.digits settings.timeout.toNat) ++
    line frameLimitKey (Number.digits settings.frameLimit.toNat)

theorem toToml_eq_ok_iff {settings : Settings} {text : List Char} :
    settings.toToml = .ok text ↔ settings.Writable ∧ text = settings.lines := by
  unfold toToml
  split
  · next writable =>
    constructor
    · intro same
      cases same
      exact ⟨writable, rfl⟩
    · rintro ⟨_, rfl⟩
      rfl
  · next large =>
    constructor
    · intro same
      cases same
    · rintro ⟨writable, _⟩
      exact absurd writable large

theorem parse_lines {settings : Settings} (writable : settings.Writable) :
    Toml.parse? settings.lines = some settings.entries := by
  have fits : settings.port.toNat ≤ mostInteger :=
    Nat.le_trans (Nat.le_of_lt settings.port.toNat_lt) (by decide)
  have host : Bare hostKey := ⟨by decide, by decide⟩
  have port : Bare portKey := ⟨by decide, by decide⟩
  have timeout : Bare timeoutKey := ⟨by decide, by decide⟩
  have frameLimit : Bare frameLimitKey := ⟨by decide, by decide⟩
  have enough : ∃ fuel, settings.lines.length + 1 = fuel + 5 := by
    refine ⟨settings.lines.length - 4, ?_⟩
    simp only [lines, line, List.length_append, List.length_singleton]
    omega
  obtain ⟨fuel, enough⟩ := enough
  have noMark : settings.lines.head? ≠ some (Char.ofNat 0xFEFF) := by
    rw [lines, List.append_assoc, List.append_assoc, line_append]
    change some 'h' ≠ _
    decide
  rw [Toml.parse?, if_neg noMark, enough, lines, List.append_assoc, List.append_assoc, line_append,
    linesFrom_line host (written_quote _) rfl, line_append,
    linesFrom_line port (written_digits fits) rfl, line_append,
    linesFrom_line timeout (written_digits writable.1) rfl,
    ← List.append_nil (line frameLimitKey _), line_append,
    linesFrom_line frameLimit (written_digits writable.2) rfl]
  rfl

theorem numberIn_eq {entries : Entries} {key : String} {number most : Nat} (default : Nat)
    (held : entries.get? key = some (.integer number)) (fits : number ≤ most) :
    numberIn entries key default most = some number := by
  simp [numberIn, held, fits]

theorem ofEntries_entries (settings : Settings) : ofEntries? settings.entries = some settings := by
  have host : textIn settings.entries hostKey "127.0.0.1" = some settings.host := rfl
  have port := numberIn_eq (5000 : UInt16).toNat (show settings.entries.get? portKey = _ from rfl)
    (Nat.le_sub_one_of_lt settings.port.toNat_lt)
  have timeout := numberIn_eq (2000 : UInt64).toNat
    (show settings.entries.get? timeoutKey = _ from rfl)
    (Nat.le_sub_one_of_lt settings.timeout.toNat_lt)
  have frameLimit := numberIn_eq (4096 : UInt64).toNat
    (show settings.entries.get? frameLimitKey = _ from rfl)
    (Nat.le_sub_one_of_lt settings.frameLimit.toNat_lt)
  simp only [ofEntries?, host, UInt16.size, UInt64.size, port, timeout, frameLimit,
    Option.bind_eq_bind, Option.bind_some, Option.pure_def, UInt16.ofNat_toNat, UInt64.ofNat_toNat]

theorem numberIn_le {entries : Entries} (ranged : entries.Ranged) {key : String}
    {default most number : Nat} (usual : default ≤ mostInteger)
    (found : numberIn entries key default most = some number) : number ≤ mostInteger := by
  unfold numberIn at found
  split at found
  · cases found
    exact usual
  · next value held =>
    split at found
    · cases found
      obtain ⟨front, back, same, _⟩ := List.lookup_eq_some_iff.mp held
      have range : value ≤ mostInteger :=
        ranged (key, .integer value) (same ▸ List.mem_append_right _ List.mem_cons_self)
      omega
    · cases found
  · cases found

theorem validate_of_ofToml {text : List Char} {settings : Settings}
    (ok : ofToml text = .ok settings) : settings.validate = .ok () := by
  unfold ofToml at ok
  split at ok
  · cases ok
  · split at ok
    · next valid =>
      cases ok
      exact valid
    · cases ok

theorem writable_of_ofToml {text : List Char} {settings : Settings}
    (ok : ofToml text = .ok settings) : settings.Writable := by
  unfold ofToml at ok
  split at ok
  · cases ok
  · next read =>
    split at ok
    · cases ok
      obtain ⟨entries, parsed, read⟩ := Option.bind_eq_some_iff.mp read
      have ranged := Toml.ranged_parse parsed
      simp only [ofEntries?, Option.bind_eq_bind, Option.bind_eq_some_iff, Option.pure_def] at read
      obtain ⟨_, _, _, _, _, timeout, _, frameLimit, same⟩ := read
      cases same
      constructor
      · rw [UInt64.toNat_ofNat']
        exact Nat.le_trans (Nat.mod_le _ _) (numberIn_le ranged (by decide) timeout)
      · rw [UInt64.toNat_ofNat']
        exact Nat.le_trans (Nat.mod_le _ _) (numberIn_le ranged (by decide) frameLimit)
    · cases ok

/-- Reading what was written comes to the same verdict as checking the settings. -/
theorem ofToml_lines {settings : Settings} (writable : settings.Writable) :
    (settings.validate = .ok () → ofToml settings.lines = .ok settings) ∧
      ∀ cause, settings.validate = .error cause →
        ofToml settings.lines = .error (.invalid cause) := by
  have read : (Toml.parse? settings.lines >>= ofEntries?) = some settings := by
    rw [parse_lines writable]
    exact ofEntries_entries settings
  constructor
  · intro valid
    simp only [ofToml, read, valid]
  · intro cause invalid
    simp only [ofToml, read, invalid]

/-- Settings can be written as TOML exactly if their numbers are integers of TOML. What is
written reads as the same settings, or is refused for the reason for which they are not valid.
Settings that come from a file can always be written again. -/
theorem toToml_reads_back (settings : Settings) :
    ((∃ text, settings.toToml = .ok text) ↔ settings.Writable) ∧
    (∀ text, settings.toToml = .ok text →
      (settings.validate = .ok () → ofToml text = .ok settings) ∧
      ∀ cause, settings.validate = .error cause → ofToml text = .error (.invalid cause)) ∧
    ∀ source, ofToml source = .ok settings →
      ∃ text, settings.toToml = .ok text ∧ ofToml text = .ok settings := by
  refine ⟨?_, ?_, ?_⟩
  · constructor
    · rintro ⟨text, written⟩
      exact (toToml_eq_ok_iff.mp written).1
    · intro writable
      exact ⟨settings.lines, toToml_eq_ok_iff.mpr ⟨writable, rfl⟩⟩
  · intro text written
    obtain ⟨writable, rfl⟩ := toToml_eq_ok_iff.mp written
    exact ofToml_lines writable
  · intro source read
    have writable := writable_of_ofToml read
    have valid := validate_of_ofToml read
    exact ⟨settings.lines, toToml_eq_ok_iff.mpr ⟨writable, rfl⟩, (ofToml_lines writable).1 valid⟩

/-- A host that fits no form without escapes: both quotation marks three times in a row, a line
feed after a carriage return, a backslash and a null character. -/
theorem toToml_reads_back_escaped : ∃ settings : Settings,
    settings.host = "\"\"\"\"'''\r\n\\\x00'" ∧ settings.Writable ∧ settings.validate = .ok () ∧
      ∃ text, settings.toToml = .ok text ∧ ofToml text = .ok settings := by
  have writable : Writable { host := "\"\"\"\"'''\r\n\\\x00'" } := ⟨by decide, by decide⟩
  have valid : validate { host := "\"\"\"\"'''\r\n\\\x00'" } = .ok () := by decide
  obtain ⟨written, back, _⟩ := toToml_reads_back { host := "\"\"\"\"'''\r\n\\\x00'" }
  obtain ⟨text, same⟩ := written.mpr writable
  exact ⟨_, rfl, writable, valid, text, same, (back text same).1 valid⟩

end TaskMonitor.Settings
