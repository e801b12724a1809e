import TaskMonitor.Proofs.Framing.Recovery
import TaskMonitor.Proofs.Settings.Overrides
import TaskMonitor.Session.Basic

/-! Which limits on payloads are kept to. The bound on bytes without a delimiter is a sum in 64-bit
arithmetic. Where it fits, a frame within the limit is delivered in whatever pieces it comes. Where
it does not, a look at part of a frame stops the program. -/

set_option autoImplicit false

namespace TaskMonitor.Session

open Deframer (Event Fits NeverStops Step bound fits_of_allowed pushed)

/-- The results that steps give, and the deframer after them. The results break off where a look
stops the program. -/
def perform (deframer : Deframer) : List Step → List Event × Option Deframer
  | [] => ([], some deframer)
  | .push bytes :: steps => perform (deframer.push bytes) steps
  | .next :: steps =>
    match deframer.next? with
    | none => ([], none)
    | some (found, left) =>
      let later := perform left steps
      (found.toList ++ later.1, later.2)

def deframed (settings : Settings) (steps : List Step) : List Event × Option Deframer :=
  perform (start settings).deframer (steps ++ [.next])

/-- A look comes when some bytes have come and others have not. -/
def Interrupted (came : Bytes) : List Step → Prop
  | [] => False
  | .push bytes :: steps => Interrupted (came ++ bytes) steps
  | .next :: steps => came ≠ [] ∧ pushed steps ≠ [] ∨ Interrupted came steps

/-! ## Looks along a frame -/

theorem align_of_backlog {deframer : Deframer} {rest : Bytes} (came : deframer.backlog = 0 :: rest) :
    deframer.align = { limit := deframer.limit, inStep := true, buffer := rest } := by
  obtain ⟨limit, inStep, buffer⟩ := deframer
  cases inStep with
  | true =>
    cases came
    rfl
  | false =>
    subst came
    rfl

theorem next?_nothing {deframer : Deframer} (came : deframer.backlog = []) :
    deframer.next? = some (none, deframer) := by
  obtain ⟨limit, inStep, buffer⟩ := deframer
  cases inStep with
  | true => cases came
  | false =>
    subst came
    rfl

theorem next?_part {deframer : Deframer} {part : Bytes} (came : deframer.backlog = 0 :: part)
    (clear : 0 ∉ part) (short : part.length ≤ bound deframer.limit) :
    Fits deframer.limit ∧ deframer.next? =
        some (none, { limit := deframer.limit, inStep := true, buffer := part }) ∨
      ¬ Fits deframer.limit ∧ deframer.next? = none := by
  have solid := Deframer.dropWhile_solid (Deframer.head_clear clear)
  by_cases fits : Fits deframer.limit
  · refine .inl ⟨fits, ?_⟩
    rw [Deframer.next?_of_fits fits]
    simp only [Deframer.next, align_of_backlog came, ↓reduceIte, solid,
      Deframer.dropWhile_clear clear]
    exact congrArg some (if_neg (Nat.not_lt.mpr short))
  · refine .inr ⟨fits, ?_⟩
    have stops := Cobs.maxEncodedLength?_eq_none_iff.mpr (Nat.not_lt.mp fits)
    simp only [Deframer.next?, Deframer.weighs, align_of_backlog came, solid,
      Deframer.dropWhile_clear clear, stops]
    rfl

theorem next?_whole {deframer : Deframer} {payload : Bytes}
    (came : deframer.backlog = Cobs.frame payload)
    (within : payload.length ≤ deframer.limit.toNat) :
    deframer.next? =
      some (some (.ok payload), { limit := deframer.limit, inStep := true, buffer := [] }) := by
  have clear := Cobs.zero_not_mem_encode payload
  have head : (Cobs.encode payload ++ [0]).head? = (Cobs.encode payload).head? :=
    List.head?_append_of_ne_nil _ (Cobs.encode_ne_nil payload)
  have solid : (Cobs.encode payload ++ [0]).dropWhile (· = 0) = Cobs.encode payload ++ [0] :=
    Deframer.dropWhile_solid (head ▸ Deframer.head_clear clear)
  have decoded : Deframer.payload deframer.limit (Cobs.encode payload) = .ok payload := by
    simp only [Deframer.payload, Cobs.decode_encode]
    exact if_neg (Nat.not_lt.mpr within)
  have aligned : deframer.align =
      { limit := deframer.limit, inStep := true, buffer := Cobs.encode payload ++ [0] } :=
    align_of_backlog came
  simp only [Deframer.next?, Deframer.weighs, Deframer.next, aligned, solid,
    Deframer.dropWhile_front clear, Deframer.takeWhile_front clear, decoded]
  rfl

/-! ## A frame in pieces -/

theorem perform_stop {deframer : Deframer} (stops : deframer.next? = none) (steps : List Step) :
    perform deframer (.next :: steps) = ([], none) := by
  rw [perform, stops]

theorem perform_found {deframer left : Deframer} {found : Option Event}
    (look : deframer.next? = some (found, left)) (steps : List Step) :
    perform deframer (.next :: steps) =
      (found.toList ++ (perform left steps).1, (perform left steps).2) := by
  rw [perform, look]

theorem perform_none {deframer left : Deframer} (look : deframer.next? = some (none, left))
    (steps : List Step) : perform deframer (.next :: steps) = perform left steps :=
  perform_found look steps

theorem perform_nothing {limit : UInt64} {steps : List Step} (none : pushed steps = []) :
    (perform { limit, inStep := true, buffer := [] } steps).1 = [] := by
  induction steps with
  | nil => rfl
  | cons step steps ih =>
    cases step with
    | push bytes =>
      obtain ⟨rfl, none⟩ := List.append_eq_nil_iff.mp none
      exact ih none
    | next =>
      rcases @next?_part { limit, inStep := true, buffer := [] } [] rfl List.not_mem_nil
        (Nat.zero_le _) with ⟨_, found⟩ | ⟨_, stops⟩
      · rw [perform_none found]
        exact ih none
      · rw [perform_stop stops]

theorem not_interrupted {came : Bytes} {steps : List Step} (none : pushed steps = []) :
    ¬ Interrupted came steps := by
  induction steps generalizing came with
  | nil => exact id
  | cons step steps ih =>
    cases step with
    | push bytes => exact ih (List.append_eq_nil_iff.mp none).2
    | next => exact not_or.mpr ⟨fun both => both.2 none, ih none⟩

theorem pushed_append (first second : List Step) :
    pushed (first ++ second) = pushed first ++ pushed second := by
  induction first with
  | nil => rfl
  | cons step steps ih =>
    cases step with
    | push bytes => simp only [List.cons_append, pushed, ih, List.append_assoc]
    | next => exact ih

theorem part_of_frame {came more payload : Bytes} (whole : came ++ more = Cobs.frame payload)
    (some : came ≠ []) (later : more ≠ []) :
    ∃ part, came = 0 :: part ∧ part <+: Cobs.encode payload := by
  obtain ⟨byte, part, rfl⟩ := List.exists_cons_of_ne_nil some
  obtain ⟨rfl, rest⟩ := List.cons.inj whole
  refine ⟨part, rfl, (List.prefix_concat_iff.mp ⟨more, rest⟩).resolve_left ?_⟩
  rintro rfl
  exact later (List.append_right_eq_self.mp rest)

/-- A look at a frame of which `more` is still to come. -/
theorem next?_frame {deframer : Deframer} {payload more : Bytes}
    (within : payload.length ≤ deframer.limit.toNat)
    (whole : deframer.backlog ++ more = Cobs.frame payload) :
    deframer.backlog = [] ∧ deframer.next? = some (none, deframer) ∨
      more = [] ∧ deframer.next? =
        some (some (.ok payload), { limit := deframer.limit, inStep := true, buffer := [] }) ∨
      (deframer.backlog ≠ [] ∧ more ≠ []) ∧
        (Fits deframer.limit ∧ (∃ left : Deframer, left.limit = deframer.limit ∧
            left.backlog = deframer.backlog ∧ deframer.next? = some (none, left)) ∨
          ¬ Fits deframer.limit ∧ deframer.next? = none) := by
  by_cases first : deframer.backlog = []
  · exact .inl ⟨first, next?_nothing first⟩
  by_cases last : more = []
  · rw [last, List.append_nil] at whole
    exact .inr (.inl ⟨last, next?_whole whole within⟩)
  obtain ⟨part, came, start⟩ := part_of_frame whole first last
  have clear : 0 ∉ part := fun member =>
    Cobs.zero_not_mem_encode payload (start.subset member)
  have short : part.length ≤ bound deframer.limit :=
    Nat.le_trans start.length_le (Nat.le_trans (Cobs.length_encode_le payload)
      (Cobs.encodedBound_mono within))
  refine .inr (.inr ⟨⟨first, last⟩, ?_⟩)
  rcases next?_part came clear short with ⟨fits, look⟩ | stops
  · exact .inl ⟨fits, { limit := deframer.limit, inStep := true, buffer := part }, rfl,
      came.symm, look⟩
  · exact .inr stops

/-- A frame of which some bytes have come is delivered, and nothing else reported, unless the
program stops before all have come. -/
theorem perform_frame {payload : Bytes} (steps : List Step) (deframer : Deframer)
    (within : payload.length ≤ deframer.limit.toNat)
    (whole : deframer.backlog ++ pushed steps = Cobs.frame payload) :
    (Fits deframer.limit ∨ ¬ Interrupted deframer.backlog steps) ∧
        (perform deframer (steps ++ [.next])).1 = [.ok payload] ∨
      (¬ Fits deframer.limit ∧ Interrupted deframer.backlog steps) ∧
        perform deframer (steps ++ [.next]) = ([], none) := by
  -- On the steps. A look finds nothing before the first byte, has to compare part of the frame
  -- with the bound, and delivers a frame that has come in full.
  induction steps generalizing deframer with
  | nil =>
    rw [pushed, List.append_nil] at whole
    refine .inl ⟨.inr id, ?_⟩
    rw [List.nil_append, perform_found (next?_whole whole within)]
    rfl
  | cons step steps ih =>
    cases step with
    | push bytes =>
      have moved := ih (deframer.push bytes) within
        (by rw [Deframer.backlog_push, List.append_assoc]; exact whole)
      rw [Deframer.backlog_push] at moved
      exact moved
    | next =>
      simp only [pushed] at whole
      rw [List.cons_append]
      rcases next?_frame within whole with ⟨first, look⟩ | ⟨last, look⟩ | ⟨part, looked⟩
      · rw [perform_none look]
        simpa [Interrupted, first] using ih deframer within whole
      · have rest : pushed (steps ++ [.next]) = [] := by
          rw [pushed_append, last]
          rfl
        refine .inl ⟨.inr (not_interrupted last), ?_⟩
        rw [perform_found look, perform_nothing rest]
        rfl
      · rcases looked with ⟨fits, left, limit, same, look⟩ | ⟨large, stops⟩
        · have later := ih left (limit ▸ within) (same ▸ whole)
          rw [perform_none look]
          exact .inl ⟨.inl fits,
            (later.resolve_right fun both => both.1.1 (limit ▸ fits)).2⟩
        · exact .inr ⟨⟨large, .inl part⟩, perform_stop stops _⟩

/-! ## The limits that are kept to -/

/-- The least limit whose bound does not fit. -/
def leastOverflowing : Settings := { frameLimit := 18374403900871474942 }

theorem fits_iff (limit : UInt64) : Fits limit ↔ limit < leastOverflowing.frameLimit := by
  have small := limit.toNat_lt
  simp only [Fits, bound, Cobs.encodedBound, Cobs.fullRun, UInt64.size, leastOverflowing,
    UInt64.lt_iff_toNat_lt, UInt64.reduceToNat]
  omega

theorem deframed_frame {settings : Settings} {payload : Bytes} {steps : List Step}
    (within : payload.length ≤ settings.frameLimit.toNat)
    (sent : pushed steps = Cobs.frame payload) :
    ((deframed settings steps).1 = [.ok payload] ↔
        Fits settings.frameLimit ∨ ¬ Interrupted [] steps) ∧
      (deframed settings steps = ([], none) ↔
        ¬ Fits settings.frameLimit ∧ Interrupted [] steps) := by
  have apart : deframed settings steps = ([], none) →
      (deframed settings steps).1 ≠ [.ok payload] := by
    intro none delivered
    rw [none] at delivered
    cases delivered
  have excludes : Fits settings.frameLimit ∨ ¬ Interrupted [] steps →
      ¬ (¬ Fits settings.frameLimit ∧ Interrupted [] steps) :=
    fun kept stopped => kept.elim stopped.1 (absurd stopped.2)
  rcases perform_frame steps (start settings).deframer within sent with
    ⟨kept, delivered⟩ | ⟨stopped, none⟩
  · exact ⟨iff_of_true delivered kept,
      iff_of_false (fun none => apart none delivered) (excludes kept)⟩
  · exact ⟨iff_of_false (apart none) fun kept => excludes kept stopped,
      iff_of_true none stopped⟩

/-- A frame within the limit is delivered, and nothing else reported, unless a look at part of it
stops the program. All are delivered in whatever pieces they come for the limits whose bound fits,
and for no others. -/
theorem delivers_within_iff (settings : Settings) :
    (∀ payload steps, payload.length ≤ settings.frameLimit.toNat →
      pushed steps = Cobs.frame payload →
        ((deframed settings steps).1 = [.ok payload] ↔
          Fits settings.frameLimit ∨ ¬ Interrupted [] steps) ∧
        (deframed settings steps = ([], none) ↔
          ¬ Fits settings.frameLimit ∧ Interrupted [] steps)) ∧
      ((∀ payload steps, payload.length ≤ settings.frameLimit.toNat →
        pushed steps = Cobs.frame payload → (deframed settings steps).1 = [.ok payload]) ↔
          Fits settings.frameLimit) ∧
      (Fits settings.frameLimit ↔ settings.frameLimit < leastOverflowing.frameLimit) := by
  refine ⟨fun payload steps => deframed_frame, ⟨fun all => ?_, fun fits payload steps => ?_⟩,
    fits_iff _⟩
  · -- The empty payload is within every limit, and its frame can come in two pieces.
    have delivered := all [] [.push [0], .next, .push [1, 0]] (Nat.zero_le _) (by decide)
    have kept := (deframed_frame (Nat.zero_le _) (by decide)).1.mp delivered
    refine kept.resolve_right fun whole => whole ?_
    exact .inl ⟨List.cons_ne_nil _ _, List.cons_ne_nil _ _⟩
  · exact fun within sent => (deframed_frame within sent).1.mpr (.inl fits)

/-- The limit of a run of the program is the default or from a file, so that no look stops it. -/
theorem neverStops_of_load {file : Option (String × FileText)} {overrides : Settings.Overrides}
    {settings : Settings} (ok : Settings.load file overrides = .ok settings) :
    NeverStops settings.frameLimit := by
  suffices settings.frameLimit.toNat ≤ Deframer.mostLimit from (fits_of_allowed this).neverStops
  rcases file with _ | ⟨path, _ | text⟩
  · cases valid : (({} : Settings).override overrides).validate with
    | error cause => simp [Settings.load, valid, Except.mapError, bind, Except.bind] at ok
    | ok _ =>
      simp only [Settings.load, valid, Except.mapError, bind, Except.bind, pure, Except.pure,
        Except.ok.injEq] at ok
      subst ok
      exact (by decide : (4096 : UInt64).toNat ≤ Deframer.mostLimit)
  · cases ok
  · obtain ⟨_, own, read, rfl⟩ := Settings.load_eq_ok ok
    exact (Settings.writable_of_ofToml read).2

/-- These settings are valid, and a look at part of a frame stops the program. -/
theorem not_delivers_leastOverflowing :
    leastOverflowing.validate = .ok () ∧
      [0x41].length ≤ leastOverflowing.frameLimit.toNat ∧
      pushed [.push [0, 2], .next, .push [0x41, 0]] = Cobs.frame [0x41] ∧
      deframed leastOverflowing [.push [0, 2], .next, .push [0x41, 0]] = ([], none) := by
  decide +kernel

end TaskMonitor.Session
