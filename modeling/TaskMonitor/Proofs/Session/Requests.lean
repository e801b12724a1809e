import TaskMonitor.Proofs.Framing.Partial
import TaskMonitor.Proofs.Rpc.Message
import TaskMonitor.Proofs.Session.Run

/-! What a session sends. Each call takes the next number, whatever became of the calls before it,
and the bytes sent are the frames of the calls that are not too large, one after the other. A
device that deframes them gets these calls and nothing else. -/

set_option autoImplicit false

namespace TaskMonitor.Session

open TaskMonitor.Deframer (NeverStops Step fits_of_allowed mostLimit pushed run_whole)
open TaskMonitor.Rpc (Callset Frame)

/-- The calls of a session that has the reads `unread` to begin with, each beside the session
before it. -/
def rounds (session : Session) (unread : List Arrival) : List Turn → List (Session × Call)
  | [] => []
  | turn :: turns =>
    let done := session.call turn.request.callset (unread ++ turn.arrivals)
    (session, done) :: rounds done.session done.unread turns

/-- The rounds of a session are those in which its turns are answered. -/
theorem exchanges_rounds (session : Session) (unread : List Arrival) (turns : List Turn) :
    exchanges session unread turns =
      List.zipWith
        (fun turn round => (round.2.sent, round.2.outcome.map (turn.request.answer ·))) turns
        (rounds session unread turns) := by
  induction turns generalizing session unread with
  | nil => rfl
  | cons turn turns ih => simp only [exchanges, rounds, List.zipWith_cons_cons, ih]

/-- The requests of turns after `calls` calls, those that are too large among them. -/
def requests (calls : Nat) (turns : List Turn) : List Frame :=
  turns.mapIdx fun index turn => .call (.ofNat (calls + index + 1)) turn.request.callset

theorem requests_cons (calls : Nat) (turn : Turn) (turns : List Turn) :
    requests calls (turn :: turns) =
      .call (.ofNat (calls + 1)) turn.request.callset :: requests (calls + 1) turns := by
  have later : ∀ index, calls + (index + 1) + 1 = calls + 1 + index + 1 := by omega
  simp only [requests, List.mapIdx_cons, Nat.add_zero, later]

/-- What a call does about its request: it is sent, or it is too large and nothing happens but
that it has used up its number. -/
inductive Puts (limit : UInt64) (request : Frame) (before : Session) (done : Call) : Prop where
  | sent : request.encode.length ≤ limit.toNat → done.session.seqn = request.header.seqn →
      done.sent = some (Cobs.frame request.encode) → Puts limit request before done
  | refused : limit.toNat < request.encode.length → done.session.seqn = request.header.seqn →
      done.sent = none → done.outcome = some (.error (.framing (.tooLarge limit.toNat))) →
      done.session.deframer = before.deframer → Puts limit request before done

theorem call_puts (session : Session) (callset : Callset) (arrivals : List Arrival) :
    let done := session.call callset arrivals
    Puts session.deframer.limit (.call (session.seqn + 1) callset) session done ∧
      done.session.seqn = session.seqn + 1 ∧
      done.session.deframer.limit = session.deframer.limit := by
  by_cases large : Oversize session.deframer.limit (session.seqn + 1) callset
  · rw [call_refused large]
    exact ⟨.refused large rfl rfl rfl rfl, rfl, rfl⟩
  · rw [call_sent large]
    obtain ⟨limit, _⟩ := receive_spec (session.seqn + 1) session.timeout session.deframer arrivals
    exact ⟨.sent (Nat.not_lt.mp large) rfl rfl, rfl, limit⟩

theorem rounds_put {limit : UInt64} {calls : Nat} {session : Session} (turns : List Turn)
    (unread : List Arrival) (numbered : session.seqn = .ofNat calls)
    (limited : session.deframer.limit = limit) :
    List.Forall₂ (fun request round => Puts limit request round.1 round.2) (requests calls turns)
      (rounds session unread turns) := by
  -- On the turns; a call hands on its number and the limit, whatever its outcome.
  induction turns generalizing calls session unread with
  | nil => exact .nil
  | cons turn turns ih =>
    obtain ⟨puts, next, same⟩ :=
      session.call_puts turn.request.callset (unread ++ turn.arrivals)
    rw [numbered, seqn_succ] at puts next
    rw [limited] at puts same
    rw [requests_cons]
    exact .cons puts (ih _ next same)

def written (rounds : List (Session × Call)) : Bytes :=
  rounds.flatMap fun round => round.2.sent.getD []

def fitting (limit : UInt64) (requests : List Frame) : List Frame :=
  requests.filter fun request => request.encode.length ≤ limit.toNat

theorem written_of_puts {limit : UInt64} {requests : List Frame} {rounds : List (Session × Call)}
    (each : List.Forall₂ (fun request round => Puts limit request round.1 round.2) requests
      rounds) :
    written rounds = ((fitting limit requests).map (·.encode)).flatMap Cobs.frame := by
  induction each with
  | nil => rfl
  | cons puts _ ih =>
    simp only [written, fitting] at ih
    cases puts with
    | sent fits _ sent => simp [written, fitting, fits, sent, ih]
    | refused large _ sent => simp [written, fitting, Nat.not_le.mpr large, sent, ih]

/-- The requests of a run are its calls in order, each with the next number. Those that are not too
large are sent, one after the other, and whoever deframes them with the same limit, in whatever
pieces they come, gets these calls back. The answers to the turns are those of the same run. -/
theorem requests_in_order (settings : Settings) (turns : List Turn) :
    let rounds := rounds (start settings) [] turns
    let sent := fitting settings.frameLimit (requests 0 turns)
    List.Forall₂ (fun request round => Puts settings.frameLimit request round.1 round.2)
        (requests 0 turns) rounds ∧
      written rounds = sent.flatMap (fun request => Cobs.frame request.encode) ∧
      (settings.frameLimit.toNat ≤ mostLimit → NeverStops settings.frameLimit ∧
        ∀ steps, pushed steps = written rounds →
          (({ limit := settings.frameLimit } : Deframer).run steps).1 =
            sent.map fun request => .ok request.encode) ∧
      (∀ request ∈ sent, Frame.decode request.encode = .ok request) ∧
      exchanges (start settings) [] turns =
        List.zipWith
          (fun turn round => (round.2.sent, round.2.outcome.map (turn.request.answer ·))) turns
          rounds := by
  have each := @rounds_put settings.frameLimit 0 (start settings) turns [] rfl rfl
  have whole := written_of_puts each
  refine ⟨each, ?_, fun allowed => ⟨(fits_of_allowed allowed).neverStops, fun steps same => ?_⟩,
    fun request _ => request.reads.read, exchanges_rounds _ _ _⟩
  · rw [whole, List.flatMap_map]
  · rw [run_whole ?_ (same.trans whole), List.map_map]
    · rfl
    · intro payload member
      obtain ⟨request, kept, rfl⟩ := List.mem_map.mp member
      exact of_decide_eq_true (List.mem_filter.mp kept).2

/-- A request as long as the limit times out in the middle of a frame, one that is too large is
refused, and a third meets the end of the stream. The bytes sent come in two pieces. -/
theorem requests_in_order_refused : ∃ (settings : Settings) (turns : List Turn),
    (requests 0 turns).map (·.encode.length) = [114, 147, 114] ∧
    settings.frameLimit.toNat = 114 ∧ settings.frameLimit.toNat ≤ mostLimit ∧
    let rounds := rounds (start settings) [] turns
    let steps : List Step :=
      [.push ((written rounds).take 9), .next, .push ((written rounds).drop 9)]
    pushed steps = written rounds ∧
      (({ limit := settings.frameLimit } : Deframer).run steps).1 =
        (fitting settings.frameLimit (requests 0 turns)).map fun request => .ok request.encode := by
  let turns : List Turn :=
    [⟨.snapshot, [.bytes [7, 0, 4]]⟩, ⟨.call (.rtosUtils (.answer {})), []⟩, ⟨.tasks, [.ended]⟩]
  refine ⟨{ frameLimit := 114 }, turns, by decide +kernel, rfl, by decide, ?_, ?_⟩
  · simp [pushed]
  · have peer := (requests_in_order { frameLimit := 114 } turns).2.2.1 (by decide)
    exact peer.2 _ (by simp [pushed])

end TaskMonitor.Session
