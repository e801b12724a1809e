import TaskMonitor.Proofs.Framing.Recovery
import TaskMonitor.Proofs.Rpc.Message
import TaskMonitor.Proofs.Session.Run
import TaskMonitor.Session.Capture
import TaskMonitor.Watch

/-! Snapshots of a device and of a file. A reply leads to the same snapshot, or to the same
failure, whether it comes over a connection or stands in a file. -/

set_option autoImplicit false

namespace TaskMonitor.Session

open TaskMonitor.Deframer (Event Verdict fits_of_allowed mostLimit segments)
open TaskMonitor.Rpc (Callset Frame)

/-- A segment that holds a reply to an earlier call. -/
def Late (limit : UInt64) (number : UInt32) (segment : Bytes) : Prop :=
  ∃ payload frame, Cobs.decode segment = .ok payload ∧ payload.length ≤ limit.toNat ∧
    Frame.decode payload = .ok frame ∧ isStale frame.header.seqn number

theorem Late.event {limit : UInt64} {number : UInt32} {segment : Bytes} {event : Event}
    (late : Late limit number segment) (verdict : Verdict limit segment event) :
    ∃ payload frame, event = .ok payload ∧ Frame.decode payload = .ok frame ∧
      isStale frame.header.seqn number := by
  obtain ⟨payload, frame, decoded, fits, meant, stale⟩ := late
  refine ⟨payload, frame, ?_, meant, stale⟩
  cases verdict with
  | delivered found _ =>
    cases decoded.symm.trans found
    rfl
  | oversize found large =>
    cases decoded.symm.trans found
    exact absurd fits (Nat.not_le.mpr large)
  | broken found => cases decoded.symm.trans found
  | overlong found _ => cases decoded.symm.trans found

theorem Walk.past_late {limit : UInt64} {number : UInt32} {expiry : FetchError}
    {late later : List Bytes} {payload : Bytes} {events more left : List Event}
    {outcome : Except FetchError Callset} (stale : ∀ segment ∈ late, Late limit number segment)
    (fits : payload.length ≤ limit.toNat)
    (each : List.Forall₂ (Verdict limit) (late ++ Cobs.encode payload :: later) events)
    (walk : Walk number expiry (events ++ more) outcome left) :
    ∃ rest, Walk number expiry (.ok payload :: rest) outcome left := by
  -- On the late replies: the walk passes over one event for each.
  induction late generalizing events with
  | nil =>
    cases each with
    | cons verdict _ =>
      rw [verdict.encode_eq fits] at walk
      exact ⟨_, walk⟩
  | cons segment late ih =>
    cases each with
    | cons verdict each =>
      obtain ⟨earlier, frame, rfl, meant, behind⟩ := (stale segment List.mem_cons_self).event verdict
      exact ih (fun other member => stale other (List.mem_cons_of_mem _ member)) each
        (walk.of_late meant behind)

def answer (number : UInt32) (reply : Reply) : Frame :=
  .reply number .success (some (.rtosUtils (.answer reply)))

theorem call_answer {session : Session} {arrivals : List Arrival} {reply : Reply}
    {late later : List Bytes} (allowed : session.deframer.limit.toNat ≤ mostLimit)
    (asked : ¬ Oversize session.deframer.limit (session.seqn + 1) .taskRequest)
    (fits : (answer (session.seqn + 1) reply).encode.length ≤ session.deframer.limit.toNat)
    (cut : segments (session.deframer.backlog ++ received arrivals) =
      late ++ Cobs.encode (answer (session.seqn + 1) reply).encode :: later)
    (stale : ∀ segment ∈ late, Late session.deframer.limit (session.seqn + 1) segment) :
    (session.call .taskRequest arrivals).outcome = some (.ok (.rtosUtils (.answer reply))) := by
  rw [call_sent asked]
  obtain ⟨_, walk, _⟩ :=
    receive_spec (session.seqn + 1) session.timeout session.deframer arrivals
  obtain ⟨outcome, ended⟩ :=
    receive_outcome (fits_of_allowed allowed) (session.seqn + 1) session.timeout arrivals
  have walk := walk outcome ended
  obtain ⟨verdicts, each, same⟩ := results_reads session.deframer arrivals
  rw [cut] at each
  rw [same] at walk
  obtain ⟨rest, walk⟩ := walk.past_late stale fits each
  have answered := walk.of_answer (answer (session.seqn + 1) reply).reads.read rfl rfl rfl
  exact ended.trans (congrArg some answered)

theorem replay_written (path : String) (reply : Reply) :
    replay path (.ofBytes (Utf8.encode reply.document.compact)) = reply.snapshot := by
  simp only [replay, FileText.ofBytes, Utf8.decode?_encode, reply.reads.read]

/-- A device and a file that give the same reply give the same snapshot, or name the same gap, and
print the same report. It does not matter what the session has been through, in which reads the
answer arrives, and how many late replies come before it. -/
theorem fetch_eq_replay {session : Session} {arrivals : List Arrival} {reply : Reply}
    {late later : List Bytes} (path : String)
    (allowed : session.deframer.limit.toNat ≤ mostLimit)
    (asked : ¬ Oversize session.deframer.limit (session.seqn + 1) .taskRequest)
    (fits : (answer (session.seqn + 1) reply).encode.length ≤ session.deframer.limit.toNat)
    (cut : segments (session.deframer.backlog ++ received arrivals) =
      late ++ Cobs.encode (answer (session.seqn + 1) reply).encode :: later)
    (stale : ∀ segment ∈ late, Late session.deframer.limit (session.seqn + 1) segment) :
    ∃ live, (session.call .taskRequest arrivals).outcome.map taskSnapshot = some live ∧
    let recorded := replay path (.ofBytes (Utf8.encode reply.document.compact))
    ((∃ snapshot, reply.validate = .ok snapshot ∧ live = .ok snapshot ∧ recorded = .ok snapshot) ∨
      ∃ gap, reply.validate = .error gap ∧ live = .error (.incomplete gap) ∧
        recorded = .error (.incomplete gap)) ∧
    ∀ format, printOnce format live = printOnce format recorded := by
  refine ⟨reply.snapshot, ?_, ?_⟩
  · rw [call_answer allowed asked fits cut stale]
    rfl
  simp only [replay_written, implies_true, and_true]
  unfold Reply.snapshot
  cases valid : reply.validate with
  | ok snapshot => exact .inl ⟨snapshot, rfl, rfl, rfl⟩
  | error gap => exact .inr ⟨gap, rfl, rfl, rfl⟩

/-- A stream of which the start has come before a call and the rest comes during it. -/
theorem segments_resumed (limit : UInt64) (stream : Bytes) (place : Nat) :
    segments ((Deframer.mk limit true (stream.take place)).backlog ++
      received [.bytes (stream.drop place)]) = segments (0 :: stream) := by
  simp [Deframer.backlog, received]

/-- A late failure is cut in two by the end of the call before, and the answer has a gap. -/
theorem fetch_eq_replay_late : ∃ (session : Session) (arrivals : List Arrival) (reply : Reply),
    session.seqn = 0xFFFFFFFF ∧ session.deframer.buffer ≠ [] ∧
    reply.validate = .error (.task 1 .name) ∧
    ∃ live, (session.call .taskRequest arrivals).outcome.map taskSnapshot = some live ∧
    let recorded := replay "tasks.json" (.ofBytes (Utf8.encode reply.document.compact))
    ((∃ snapshot, reply.validate = .ok snapshot ∧ live = .ok snapshot ∧ recorded = .ok snapshot) ∨
      ∃ gap, reply.validate = .error gap ∧ live = .error (.incomplete gap) ∧
        recorded = .error (.incomplete gap)) ∧
    ∀ format, printOnce format live = printOnce format recorded := by
  let reply : Reply :=
    { tasks := some [⟨some 0, some "\"é\n", some 9, some (-1), some 1, some 5, some 0⟩,
        { number := some 1 }]
      runTime := some 0xFFFFFFFFFFFFFFFF }
  let failure := (Frame.reply 0xFFFFFFFF .handlerError none).encode
  let own := (answer (0xFFFFFFFF + 1) reply).encode
  let stream := [failure, own].flatMap Cobs.frame
  let session : Session := ⟨0xFFFFFFFF, ⟨4096, true, stream.take 9⟩, 5000⟩
  have asked : ¬ Oversize 4096 (0xFFFFFFFF + 1) .taskRequest := Nat.not_lt.mpr (by decide +kernel)
  have fits : own.length ≤ (4096 : UInt64).toNat := by decide +kernel
  have cut := (segments_resumed 4096 stream 9).trans (Deframer.segments_frames _)
  have late : Late 4096 (0xFFFFFFFF + 1) (Cobs.encode failure) :=
    ⟨failure, _, Cobs.decode_encode _, by decide +kernel, (Frame.decode_of_encode _).2, rfl⟩
  exact ⟨session, [.bytes (stream.drop 9)], reply, rfl, by decide +kernel, rfl,
    @fetch_eq_replay session _ reply [Cobs.encode failure] [] "tasks.json" (by decide) asked fits
      cut (List.forall_mem_singleton.mpr late)⟩

end TaskMonitor.Session
