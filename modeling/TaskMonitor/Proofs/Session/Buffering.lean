import TaskMonitor.Proofs.Session.Run

/-! What a session holds in memory. Whatever a device sends, the deframer keeps no more than the
longest encoded payload and one read, and before each read no more than such a payload. -/

set_option autoImplicit false

namespace TaskMonitor.Session

open TaskMonitor.Deframer (Event bound fits_of_allowed mostLimit verdict_payload)

/-- The moments of a session: it rests between calls, and during one its deframer looks for a
payload, finds one or an error, or has nothing to give before a read of the connection. -/
inductive Moment where
  | rests (deframer : Deframer)
  | looks (deframer : Deframer)
  | finds (event : Event) (left : Deframer)
  | reads (deframer : Deframer)
  deriving DecidableEq

def Moment.deframer : Moment → Deframer
  | rests deframer => deframer
  | looks deframer => deframer
  | finds _ left => left
  | reads deframer => deframer

/-- The moments of receiving, beside what is received. -/
def trace (seqn : UInt32) (timeout : UInt64) (deframer : Deframer) (arrivals : List Arrival) :
    List Moment × Received :=
  match _found : deframer.next? with
  | none => ([.looks deframer], ⟨none, deframer, arrivals⟩)
  | some (some (.error error), left) =>
    ([.looks deframer, .finds (.error error) left],
      ⟨some (.error (.framing error)), left, arrivals⟩)
  | some (some (.ok payload), left) =>
    match judge seqn payload with
    | some outcome =>
      ([.looks deframer, .finds (.ok payload) left], ⟨some outcome, left, arrivals⟩)
    | none =>
      let later := trace seqn timeout left arrivals
      (.looks deframer :: .finds (.ok payload) left :: later.1, later.2)
  | some (none, left) =>
    match arrivals with
    | [] =>
      ([.looks deframer, .reads left], ⟨some (.error (.timeout .calling timeout)), left, []⟩)
    | .ended :: rest =>
      ([.looks deframer, .reads left], ⟨some (.error .closed), left, .ended :: rest⟩)
    | .bytes bytes :: rest =>
      let later := trace seqn timeout (left.push bytes) rest
      (.looks deframer :: .reads left :: later.1, later.2)
termination_by (arrivals.length, deframer.buffer.length)
decreasing_by
  · exact Prod.Lex.right _ (Deframer.next?_length _found)
  · exact Prod.Lex.left _ _ (Nat.lt_succ_self _)

/-- An attempt at a call. Its request may get stuck halfway, where the connection fails or the
time is up; a read that fails is one that never comes. -/
inductive Attempt where
  | whole (turn : Turn)
  | stuck (turn : Turn)

def Attempt.arrivals : Attempt → List Arrival
  | whole turn => turn.arrivals
  | stuck turn => turn.arrivals

/-- What an attempt goes through, the session after it and the reads it leaves. -/
def Attempt.run (session : Session) (unread : List Arrival) :
    Attempt → List Moment × Session × List Arrival
  | whole turn =>
    let arrivals := unread ++ turn.arrivals
    let done := session.call turn.request.callset arrivals
    let during := match done.sent with
      | none => []
      | some _ => (trace (session.seqn + 1) session.timeout session.deframer arrivals).1
    (during, done.session, done.unread)
  | stuck turn => ([], (session.prepare turn.request.callset).1, unread ++ turn.arrivals)

def moments (session : Session) (unread : List Arrival) : List Attempt → List Moment
  | [] => [.rests session.deframer]
  | attempt :: attempts =>
    let (during, session', unread') := attempt.run session unread
    .rests session.deframer :: during ++ moments session' unread' attempts

theorem trace_receive (seqn : UInt32) (timeout : UInt64) (deframer : Deframer)
    (arrivals : List Arrival) :
    (trace seqn timeout deframer arrivals).2 = receive seqn timeout deframer arrivals := by
  fun_induction receive seqn timeout deframer arrivals <;> grind [trace]

example : (trace 1 0 { limit := 2 } [.bytes [7, 0, 9], .bytes [9, 9, 9, 9]]).1 =
    [.looks { limit := 2 },
     .reads { limit := 2 },
     .looks { limit := 2, buffer := [7, 0, 9] },
     .reads { limit := 2, inStep := true, buffer := [9] },
     .looks { limit := 2, inStep := true, buffer := [9, 9, 9, 9, 9] },
     .finds (.error (.tooLarge 2)) { limit := 2 }] := by
  cbv

/-! ## One look -/

/-- Reads of the connection, none of them larger than its buffer. -/
def Chunked (arrivals : List Arrival) : Prop :=
  ∀ bytes, .bytes bytes ∈ arrivals → bytes.length ≤ readSize

theorem Chunked.append {first second : List Arrival} (chunked : Chunked first)
    (more : Chunked second) : Chunked (first ++ second) := fun bytes member =>
  (List.mem_append.mp member).elim (chunked bytes) (more bytes)

theorem Chunked.of_suffix {whole rest : List Arrival} (chunked : Chunked whole)
    (suffix : rest <:+ whole) : Chunked rest := fun bytes member =>
  chunked bytes (suffix.subset member)

/-- A deframer that may have taken one read since it had nothing to give. -/
structure Held (limit : UInt64) (deframer : Deframer) : Prop where
  same : deframer.limit = limit
  small : deframer.buffer.length ≤ bound limit + readSize

structure Drained (limit : UInt64) (deframer : Deframer) : Prop where
  same : deframer.limit = limit
  small : deframer.buffer.length ≤ bound limit
  clear : 0 ∉ deframer.buffer
  empty : deframer.inStep = false → deframer.buffer = []

theorem Drained.held {limit : UInt64} {deframer : Deframer} (drained : Drained limit deframer) :
    Held limit deframer :=
  ⟨drained.same, Nat.le_add_right_of_le drained.small⟩

theorem Drained.push {limit : UInt64} {deframer : Deframer} {bytes : Bytes}
    (drained : Drained limit deframer) (chunk : bytes.length ≤ readSize) :
    Held limit (deframer.push bytes) where
  same := drained.same
  small := by
    simpa only [Deframer.push, List.length_append] using Nat.add_le_add drained.small chunk

theorem Held.drained {limit : UInt64} {deframer left : Deframer} (held : Held limit deframer)
    (found : deframer.next = (none, left)) : Drained limit left := by
  have idle := Deframer.idle_of_next found
  have same : left.limit = limit := (Deframer.limit_of_next found).trans held.same
  obtain ⟨clear, kept⟩ := idle
  rw [same] at kept
  cases step : left.inStep <;> simp only [step, Bool.false_eq_true, ↓reduceIte] at kept
  · exact ⟨same, by simp [kept], clear, fun _ => kept⟩
  · exact ⟨same, kept, clear, by simp [step]⟩

theorem Held.found {limit : UInt64} {deframer left : Deframer} {event : Event}
    (held : Held limit deframer) (found : deframer.next = (some event, left)) :
    Held limit left where
  same := (Deframer.limit_of_next found).trans held.same
  small := Nat.le_trans (Nat.le_of_lt (Deframer.next_length found)) held.small

/-- A payload that is given out is within the limit. -/
theorem length_of_next {deframer left : Deframer} {payload : Bytes}
    (found : deframer.next = (some (.ok payload), left)) :
    payload.length ≤ deframer.limit.toNat := by
  have look := deframer.next_spec
  rw [found] at look
  generalize given : some (Except.ok payload) = event at look
  cases look with
  | nothing => cases given
  | @segment _ segment _ _ _ _ _ _ =>
    have verdict := verdict_payload deframer.limit segment
    rw [← Option.some.inj given] at verdict
    cases verdict with
    | delivered _ fits => exact fits
  | overflow => cases given

/-! ## Runs -/

def Bounded (limit : UInt64) : Moment → Prop
  | .rests deframer => Held limit deframer
  | .looks deframer => Held limit deframer
  | .finds event left => Held limit left ∧ ∀ payload, event = .ok payload →
      payload.length ≤ limit.toNat
  | .reads deframer => Drained limit deframer

theorem Bounded.held {limit : UInt64} {moment : Moment} (bounded : Bounded limit moment) :
    Held limit moment.deframer := by
  cases moment with
  | rests => exact bounded
  | looks => exact bounded
  | finds => exact bounded.1
  | reads => exact Drained.held bounded

theorem trace_bounded {limit : UInt64} {deframer : Deframer} {arrivals : List Arrival}
    (seqn : UInt32) (timeout : UInt64) (held : Held limit deframer) (chunked : Chunked arrivals) :
    let traced := trace seqn timeout deframer arrivals
    (∀ moment ∈ traced.1, Bounded limit moment) ∧ Held limit traced.2.deframer ∧
      traced.2.unread <:+ arrivals := by
  -- A deframer that is read into has just given all it had, so that one read at most comes on top
  -- of what it may keep.
  fun_induction trace seqn timeout deframer arrivals with
  | case1 deframer arrivals found => exact ⟨by simpa [Bounded] using held, held, List.suffix_rfl⟩
  | case2 deframer arrivals error left found =>
    have found := Deframer.next?_eq found
    refine ⟨?_, held.found found, List.suffix_rfl⟩
    simpa [Bounded] using ⟨held, held.found found⟩
  | case3 deframer arrivals payload left found outcome judged =>
    have found := Deframer.next?_eq found
    refine ⟨?_, held.found found, List.suffix_rfl⟩
    simpa [Bounded] using ⟨held, held.found found, held.same ▸ length_of_next found⟩
  | case4 deframer arrivals payload left found judged later ih =>
    have found := Deframer.next?_eq found
    obtain ⟨bounded, last, suffix⟩ := ih (held.found found) chunked
    refine ⟨?_, last, suffix⟩
    rw [List.forall_mem_cons, List.forall_mem_cons]
    refine ⟨held, ⟨held.found found, ?_⟩, bounded⟩
    rintro _ ⟨⟩
    exact held.same ▸ length_of_next found
  | case5 deframer left found =>
    have found := Deframer.next?_eq found
    refine ⟨?_, (held.drained found).held, List.suffix_rfl⟩
    simpa [Bounded] using ⟨held, held.drained found⟩
  | case6 deframer left found rest =>
    have found := Deframer.next?_eq found
    refine ⟨?_, (held.drained found).held, List.suffix_rfl⟩
    simpa [Bounded] using ⟨held, held.drained found⟩
  | case7 deframer left found bytes rest later ih =>
    have drained := held.drained (Deframer.next?_eq found)
    obtain ⟨bounded, last, suffix⟩ := ih
      (drained.push (chunked bytes List.mem_cons_self))
      (chunked.of_suffix (List.suffix_cons _ _))
    refine ⟨?_, last, suffix.trans (List.suffix_cons _ _)⟩
    rw [List.forall_mem_cons, List.forall_mem_cons]
    exact ⟨held, drained, bounded⟩

/-- A call that is refused leaves deframer and reads as they are. -/
theorem run_bounded {limit : UInt64} {session : Session} {unread : List Arrival}
    (attempt : Attempt) (held : Held limit session.deframer) (chunked : Chunked unread)
    (more : Chunked attempt.arrivals) :
    let (during, session', unread') := attempt.run session unread
    (∀ moment ∈ during, Bounded limit moment) ∧ Held limit session'.deframer ∧
      Chunked unread' := by
  cases attempt with
  | stuck turn => exact ⟨by simp, held, chunked.append more⟩
  | whole turn =>
    simp only [Attempt.run]
    by_cases large : Oversize session.deframer.limit (session.seqn + 1) turn.request.callset
    · rw [call_refused large]
      exact ⟨by simp, held, chunked.append more⟩
    · rw [call_sent large, ← trace_receive]
      obtain ⟨bounded, last, suffix⟩ := trace_bounded (session.seqn + 1) session.timeout held
        (chunked.append more)
      exact ⟨bounded, last, (chunked.append more).of_suffix suffix⟩

theorem moments_bounded {limit : UInt64} {session : Session} {unread : List Arrival}
    {attempts : List Attempt} (held : Held limit session.deframer) (chunked : Chunked unread)
    (more : ∀ attempt ∈ attempts, Chunked attempt.arrivals) :
    ∀ moment ∈ moments session unread attempts, Bounded limit moment := by
  induction attempts generalizing session unread with
  | nil => simpa [moments, Bounded] using held
  | cons attempt attempts ih =>
    rw [List.forall_mem_cons] at more
    obtain ⟨bounded, last, rest⟩ := run_bounded attempt held chunked more.1
    simp only [moments, List.cons_append, List.forall_mem_cons, List.forall_mem_append]
    exact ⟨held, bounded, ih last rest more.2⟩

/-- Whatever comes up for reading, and however many attempts fail or run out of time, the
deframer stays within the longest encoded payload and one read. When the connection is read, it
holds no delimiter and at most such a payload, and out of step it holds nothing. -/
theorem buffer_bounded (settings : Settings) (attempts : List Attempt)
    (allowed : settings.frameLimit.toNat ≤ mostLimit)
    (chunked : ∀ attempt ∈ attempts, Chunked attempt.arrivals) :
    let limit := settings.frameLimit.toNat
    let most := limit + limit / Cobs.fullRun + 1
    (Cobs.maxEncodedLength? settings.frameLimit).map (·.toNat) = some most ∧
    (∀ moment ∈ moments (start settings) [] attempts,
      moment.deframer.buffer.length ≤ most + readSize ∧
      (∀ deframer, moment = .reads deframer → deframer.buffer.length ≤ most ∧
        0 ∉ deframer.buffer ∧ (deframer.inStep = false → deframer.buffer = [])) ∧
      ∀ payload left, moment = .finds (.ok payload) left → payload.length ≤ limit) ∧
    ∀ seqn timeout deframer arrivals,
      (trace seqn timeout deframer arrivals).2 = receive seqn timeout deframer arrivals := by
  intro limit most
  have sum : (Cobs.maxEncodedLength? settings.frameLimit).map (·.toNat) = some most := by
    have fits := fits_of_allowed allowed
    have word := UInt64.toNat_ofNat_of_lt' fits
    rw [Cobs.maxEncodedLength?_eq_some_iff.mpr word]
    exact congrArg some word
  have empty : Held settings.frameLimit (start settings).deframer := ⟨rfl, Nat.zero_le _⟩
  refine ⟨sum, fun moment member => ?_, trace_receive⟩
  have bounded := moments_bounded empty (by simp [Chunked]) chunked moment member
  refine ⟨bounded.held.small, ?_, ?_⟩
  · rintro deframer rfl
    obtain ⟨_, small, clear, out⟩ := bounded
    exact ⟨small, clear, out⟩
  · rintro payload left rfl
    exact bounded.2 payload rfl

/-- Bytes without a delimiter, then a frame that is too long over three calls and a request that
gets stuck, then the rest of it with the start of another frame. -/
theorem buffer_bounded_hostile :
    let attempts : List Attempt :=
      [.whole ⟨.snapshot, [.bytes (.replicate 1024 7), .bytes [7, 0, 2, 9, 0, 5]]⟩,
        .whole ⟨.tasks, [.bytes (.replicate 200 1)]⟩,
        .stuck ⟨.tasks, [.bytes (.replicate 300 1)]⟩,
        .whole ⟨.snapshot, [.bytes [1, 1, 0, 9, 9], .ended]⟩]
    (256 : UInt64).toNat ≤ mostLimit ∧
    (∀ attempt ∈ attempts, Chunked attempt.arrivals) ∧
    ∀ moment ∈ moments (start { frameLimit := 256 }) [] attempts,
      moment.deframer.buffer.length ≤ 258 + 1024 ∧
      (∀ deframer, moment = .reads deframer → deframer.buffer.length ≤ 258 ∧
        0 ∉ deframer.buffer ∧ (deframer.inStep = false → deframer.buffer = [])) ∧
      ∀ payload left, moment = .finds (.ok payload) left → payload.length ≤ 256 := by
  intro attempts
  have chunked : ∀ attempt ∈ attempts, Chunked attempt.arrivals := by
    simp [attempts, Attempt.arrivals, Chunked, readSize, -List.reduceReplicate]
  have bounded := buffer_bounded { frameLimit := 256 } attempts (by decide) chunked
  exact ⟨by decide, chunked, bounded.2.1⟩

end TaskMonitor.Session
