import TaskMonitor.Proofs.Session.Exchange

/-! Many calls over one connection. Each call goes on where the one before it stopped, in the
results of deframing the whole stream. -/

set_option autoImplicit false

namespace TaskMonitor.Session

open TaskMonitor.Deframer (Event Deframes Fits fits_of_allowed mostLimit)
open TaskMonitor.Rpc (Callset Frame)

inductive Request where
  | call (callset : Callset)
  | tasks
  | snapshot

def Request.callset : Request → Callset
  | .call callset => callset
  | .tasks => .taskRequest
  | .snapshot => .taskRequest

inductive Answer where
  | call (outcome : Except FetchError Callset)
  | tasks (outcome : Except FetchError Reply)
  | snapshot (outcome : Except FetchError Snapshot)

def Request.answer (outcome : Except FetchError Callset) : Request → Answer
  | .call _ => .call outcome
  | .tasks => .tasks (outcome >>= taskReply)
  | .snapshot => .snapshot (taskSnapshot outcome)

/-- A request, and the reads that come up between the request before it and its own end. -/
structure Turn where
  request : Request
  arrivals : List Arrival

/-- What a session that has the reads `unread` to begin with sends, and its answers. There is no
answer where the program stops. -/
def exchanges (session : Session) (unread : List Arrival) :
    List Turn → List (Option Bytes × Option Answer)
  | [] => []
  | turn :: turns =>
    let done := session.call turn.request.callset (unread ++ turn.arrivals)
    (done.sent, done.outcome.map (turn.request.answer ·)) ::
      exchanges done.session done.unread turns

def Oversize (limit : UInt64) (seqn : UInt32) (callset : Callset) : Prop :=
  limit.toNat < (Frame.call seqn callset).encode.length

/-- The rules for the turns after `calls` calls, which took the results `taken` off those of the
whole stream and met the reads `arrived`. A turn that is refused sends and takes nothing; any
other walks on in the results of the bytes that have come so far. -/
inductive Served (settings : Settings) (events : List Event) :
    Nat → List Event → List Arrival → List Turn → List (Option Bytes × Option Answer) → Prop where
  | done {calls : Nat} {taken : List Event} {arrived : List Arrival} :
      Served settings events calls taken arrived [] []
  | refused {calls : Nat} {taken : List Event} {arrived : List Arrival} {turn : Turn}
      {turns : List Turn} {rest : List (Option Bytes × Option Answer)} :
      Oversize settings.frameLimit (.ofNat (calls + 1)) turn.request.callset →
      Served settings events (calls + 1) taken (arrived ++ turn.arrivals) turns rest →
      Served settings events calls taken arrived (turn :: turns)
        ((none, some (turn.request.answer
          (.error (.framing (.tooLarge settings.frameLimit.toNat))))) :: rest)
  | walked {calls : Nat} {taken passed left : List Event} {arrived : List Arrival} {turn : Turn}
      {turns : List Turn} {outcome : Except FetchError Callset}
      {rest : List (Option Bytes × Option Answer)} :
      ¬ Oversize settings.frameLimit (.ofNat (calls + 1)) turn.request.callset →
      taken ++ passed ++ left <+: events →
      Deframes settings.frameLimit (received (arrived ++ turn.arrivals))
        (taken ++ passed ++ left) →
      Walk (.ofNat (calls + 1)) (expiry settings.timeout (arrived ++ turn.arrivals))
        (passed ++ left) outcome left →
      Served settings events (calls + 1) (taken ++ passed) (arrived ++ turn.arrivals) turns rest →
      Served settings events calls taken arrived (turn :: turns)
        ((some (Cobs.frame (Frame.call (.ofNat (calls + 1)) turn.request.callset).encode),
          some (turn.request.answer outcome)) :: rest)

theorem call_refused {session : Session} {callset : Callset}
    (large : Oversize session.deframer.limit (session.seqn + 1) callset)
    (arrivals : List Arrival) :
    session.call callset arrivals =
      { outcome := some (.error (.framing (.tooLarge session.deframer.limit.toNat)))
        sent := none
        session := { session with seqn := session.seqn + 1 }
        unread := arrivals } := by
  simp only [Oversize] at large
  simp only [call, prepare, large, ↓reduceIte]

theorem call_sent {session : Session} {callset : Callset}
    (fits : ¬ Oversize session.deframer.limit (session.seqn + 1) callset)
    (arrivals : List Arrival) :
    session.call callset arrivals =
      let done := receive (session.seqn + 1) session.timeout session.deframer arrivals
      { outcome := done.outcome
        sent := some (Cobs.frame (Frame.call (session.seqn + 1) callset).encode)
        session := { session with seqn := session.seqn + 1, deframer := done.deframer }
        unread := done.unread } := by
  simp only [Oversize] at fits
  simp only [call, prepare, fits, ↓reduceIte]

theorem seqn_succ (calls : Nat) : UInt32.ofNat calls + 1 = UInt32.ofNat (calls + 1) := by
  rw [UInt32.ofNat_add]
  rfl

theorem expiry_congr {timeout : UInt64} {first second : List Arrival}
    (same : .ended ∈ first ↔ .ended ∈ second) : expiry timeout first = expiry timeout second := by
  simp only [expiry, same]

theorem ended_mem_unread (seqn : UInt32) (timeout : UInt64) (deframer : Deframer)
    (arrivals : List Arrival) :
    .ended ∈ (receive seqn timeout deframer arrivals).unread ↔ .ended ∈ arrivals := by
  fun_induction receive seqn timeout deframer arrivals with
  | case4 _ _ _ _ _ _ ih => exact ih
  | case7 _ _ _ bytes rest ih => simpa using ih
  | _ => exact Iff.rfl

/-- What holds between two calls of a session. -/
structure Standing (settings : Settings) (calls : Nat) (taken : List Event)
    (arrived : List Arrival) (session : Session) (unread : List Arrival) : Prop where
  limit : session.deframer.limit = settings.frameLimit
  timeout : session.timeout = settings.timeout
  seqn : session.seqn = .ofNat calls
  ended : .ended ∈ unread ↔ .ended ∈ arrived
  leaves : Leaves { limit := settings.frameLimit } arrived taken session.deframer unread

theorem Standing.start (settings : Settings) :
    Standing settings 0 [] [] (Session.start settings) [] where
  limit := rfl
  timeout := rfl
  seqn := rfl
  ended := .rfl
  leaves := fun _ => rfl

theorem Standing.arrive {settings : Settings} {calls : Nat} {taken : List Event}
    {arrived unread : List Arrival} {session : Session}
    (standing : Standing settings calls taken arrived session unread) (more : List Arrival) :
    Standing settings calls taken (arrived ++ more) session (unread ++ more) where
  limit := standing.limit
  timeout := standing.timeout
  seqn := standing.seqn
  ended := by simp [standing.ended]
  leaves := fun later => by simpa using standing.leaves (more ++ later)

/-- A call of which no more is known than that it has begun. -/
theorem Standing.prepared {settings : Settings} {calls : Nat} {taken : List Event}
    {arrived unread : List Arrival} {session : Session}
    (standing : Standing settings calls taken arrived session unread) (callset : Callset) :
    Standing settings (calls + 1) taken arrived (session.prepare callset).1 unread where
  limit := standing.limit
  timeout := standing.timeout
  seqn := by
    rw [← seqn_succ, ← standing.seqn]
    rfl
  ended := standing.ended
  leaves := standing.leaves

theorem Standing.refused {settings : Settings} {calls : Nat} {taken : List Event}
    {arrived unread : List Arrival} {session : Session} {callset : Callset}
    (standing : Standing settings calls taken arrived session unread)
    (large : Oversize settings.frameLimit (.ofNat (calls + 1)) callset) :
    let done := session.call callset unread
    done.sent = none ∧
      done.outcome = some (.error (.framing (.tooLarge settings.frameLimit.toNat))) ∧
      Standing settings (calls + 1) taken arrived done.session done.unread := by
  rw [← seqn_succ, ← standing.seqn, ← standing.limit] at large
  rw [call_refused large]
  exact ⟨rfl, by rw [standing.limit], standing.prepared callset⟩

theorem Standing.walked {settings : Settings} {calls : Nat} {taken : List Event}
    {arrived unread : List Arrival} {session : Session} {callset : Callset}
    (allowed : settings.frameLimit.toNat ≤ mostLimit)
    (standing : Standing settings calls taken arrived session unread)
    (fits : ¬ Oversize settings.frameLimit (.ofNat (calls + 1)) callset) :
    let done := session.call callset unread
    let left := results done.session.deframer done.unread
    done.sent = some (Cobs.frame (Frame.call (.ofNat (calls + 1)) callset).encode) ∧
      ∃ passed outcome, results { limit := settings.frameLimit } arrived =
        taken ++ passed ++ left ∧ done.outcome = some outcome ∧
      Walk (.ofNat (calls + 1)) (expiry settings.timeout arrived) (passed ++ left) outcome left ∧
      Standing settings (calls + 1) (taken ++ passed) arrived done.session done.unread := by
  rw [← seqn_succ, ← standing.seqn, ← standing.limit] at fits
  rw [call_sent fits]
  obtain ⟨limit, walk, passed, leaves⟩ :=
    receive_spec (session.seqn + 1) session.timeout session.deframer unread
  obtain ⟨outcome, ended⟩ := receive_outcome (standing.limit ▸ fits_of_allowed allowed)
    (session.seqn + 1) session.timeout unread
  have walk := walk outcome ended
  have before := standing.leaves []
  have now := leaves []
  simp only [List.append_nil] at before now
  refine ⟨by rw [standing.seqn, seqn_succ], passed, outcome, ?_, ended, ?_,
    limit.trans standing.limit, standing.timeout, ?_, ?_, ?_⟩
  · rw [before, now, List.append_assoc]
  · rw [← now, ← seqn_succ, ← standing.seqn, ← standing.timeout, ← expiry_congr standing.ended]
    exact walk
  · simp only [standing.seqn, seqn_succ]
  · exact (ended_mem_unread _ _ _ _).trans standing.ended
  · intro more
    rw [standing.leaves more, leaves more, List.append_assoc]

theorem served_exchanges {settings : Settings} {events : List Event}
    (allowed : settings.frameLimit.toNat ≤ mostLimit) {calls : Nat} {taken : List Event}
    {arrived unread : List Arrival} {session : Session} (turns : List Turn)
    (standing : Standing settings calls taken arrived session unread)
    (whole : results { limit := settings.frameLimit } (arrived ++ turns.flatMap (·.arrivals)) =
      events) :
    Served settings events calls taken arrived turns (exchanges session unread turns) := by
  -- On the turns, with what stands between two of them as the invariant.
  induction turns generalizing calls taken arrived session unread with
  | nil => exact .done
  | cons turn turns ih =>
    have standing := standing.arrive turn.arrivals
    rw [List.flatMap_cons, ← List.append_assoc] at whole
    by_cases large : Oversize settings.frameLimit (.ofNat (calls + 1)) turn.request.callset
    · obtain ⟨sent, outcome, standing⟩ := standing.refused large
      rw [exchanges, sent, outcome]
      exact .refused large (ih standing whole)
    · obtain ⟨sent, passed, outcome, now, ended, walk, standing⟩ := standing.walked allowed large
      rw [exchanges, sent, ended]
      refine .walked large ?_ ?_ walk (ih standing whole)
      · rw [← now, ← whole]
        exact results_prefix _ _ _
      · rw [← now]
        exact results_deframes _ _

/-- However the stream of the device comes in reads, and whichever calls end before all of it has
come, the calls share out the results of deframing the whole stream. -/
theorem exchanges_walk_stream (settings : Settings) (turns : List Turn)
    (allowed : settings.frameLimit.toNat ≤ mostLimit) :
    ∃ events,
      Deframes settings.frameLimit (received (turns.flatMap (·.arrivals))) events ∧
        Served settings events 0 [] [] turns (exchanges (start settings) [] turns) :=
  ⟨_, results_deframes settings.frameLimit (turns.flatMap (·.arrivals)),
    served_exchanges allowed turns (.start settings) rfl⟩

/-- A call that times out in the middle of a frame, and a call that meets the end of the stream. -/
theorem exchanges_walk_stream_mid_frame :
    (4096 : UInt64).toNat ≤ mostLimit ∧
      ∃ events,
        Deframes 4096 (received [.bytes [7, 0, 4, 123], .bytes [125, 1, 0, 2], .ended]) events ∧
        Served { frameLimit := 4096 } events 0 [] []
          [⟨.tasks, [.bytes [7, 0, 4, 123]]⟩, ⟨.snapshot, [.bytes [125, 1, 0, 2], .ended]⟩]
          (exchanges (start { frameLimit := 4096 }) []
            [⟨.tasks, [.bytes [7, 0, 4, 123]]⟩, ⟨.snapshot, [.bytes [125, 1, 0, 2], .ended]⟩]) :=
  ⟨by decide, exchanges_walk_stream { frameLimit := 4096 }
    [⟨.tasks, [.bytes [7, 0, 4, 123]]⟩, ⟨.snapshot, [.bytes [125, 1, 0, 2], .ended]⟩] (by decide)⟩

end TaskMonitor.Session
