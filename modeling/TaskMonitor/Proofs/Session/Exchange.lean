import TaskMonitor.Proofs.Framing.Stream
import TaskMonitor.Session.Basic

/-! Calls as a walk over the results that deframing the whole stream of the device gives. A
deframer that gives its results before each further read gives the same ones whether one call
or many do the reading. -/

set_option autoImplicit false

namespace TaskMonitor.Session

open TaskMonitor.Deframer (Event Deframes Fits Reads)
open TaskMonitor.Rpc (Callset Frame)

/-- The bytes of the reads before the end of the stream. -/
def received : List Arrival → Bytes
  | .bytes bytes :: rest => bytes ++ received rest
  | _ => []

/-- The results of a deframer that takes each read when it has no more to give. -/
def results (deframer : Deframer) : List Arrival → List Event
  | .bytes bytes :: rest => deframer.drain.1 ++ results (deframer.drain.2.push bytes) rest
  | _ => deframer.drain.1

theorem results_reads (deframer : Deframer) (arrivals : List Arrival) :
    Deframes deframer.limit (deframer.backlog ++ received arrivals)
      (results deframer arrivals) := by
  suffices ∃ last, Reads deframer.limit (deframer.backlog ++ received arrivals)
      (results deframer arrivals, last) from this.elim fun _ reads => reads.1
  induction arrivals generalizing deframer with
  | nil =>
    exact ⟨_, by simpa [received, results] using deframer.drain_reads⟩
  | cons arrival rest ih =>
    cases arrival with
    | ended =>
      exact ⟨_, by simpa [received, results] using deframer.drain_reads⟩
    | bytes bytes =>
      obtain ⟨limit, _, later⟩ := deframer.drain_spec
      obtain ⟨last, reads⟩ := ih (deframer.drain.2.push bytes)
      simp only [Deframer.limit_push, Deframer.backlog_push, limit, List.append_assoc] at reads
      exact ⟨last, later reads⟩

theorem results_deframes (limit : UInt64) (arrivals : List Arrival) :
    Deframes limit (received arrivals) (results { limit } arrivals) :=
  results_reads { limit } arrivals

theorem results_of_some {deframer left : Deframer} {event : Event}
    (found : deframer.next = (some event, left)) (arrivals : List Arrival) :
    results deframer arrivals = event :: results left arrivals := by
  have drained := Deframer.drain_of_some found
  cases arrivals with
  | nil => simp [results, drained]
  | cons arrival rest => cases arrival <;> simp [results, drained]

theorem results_over {deframer left : Deframer} (found : deframer.next = (none, left)) :
    results deframer [] = [] ∧ ∀ rest, results deframer (.ended :: rest) = [] :=
  have drained := congrArg Prod.fst (Deframer.drain_of_none found)
  ⟨drained, fun _ => drained⟩

theorem results_read {deframer left : Deframer} (found : deframer.next = (none, left))
    (bytes : Bytes) (rest : List Arrival) :
    results deframer (.bytes bytes :: rest) = results (left.push bytes) rest := by
  rw [results, Deframer.drain_of_none found, List.nil_append]

theorem results_of_none {deframer left : Deframer} (found : deframer.next = (none, left))
    (arrivals : List Arrival) : results deframer arrivals = results left arrivals := by
  have again := (Deframer.idle_of_next found).next
  cases arrivals with
  | nil => rw [(results_over found).1, (results_over again).1]
  | cons arrival rest =>
    cases arrival with
    | ended => rw [(results_over found).2, (results_over again).2]
    | bytes bytes => rw [results_read found, results_read again]

theorem results_prefix (deframer : Deframer) (first more : List Arrival) :
    results deframer first <+: results deframer (first ++ more) := by
  induction first generalizing deframer with
  | nil =>
    cases more with
    | nil => exact List.prefix_rfl
    | cons arrival rest =>
      cases arrival with
      | ended => exact List.prefix_rfl
      | bytes bytes => exact List.prefix_append _ _
  | cons arrival rest ih =>
    cases arrival with
    | ended => exact List.prefix_rfl
    | bytes bytes => exact (List.prefix_append_right_inj _).mpr (ih _)

/-! ## One call -/

/-- How a call goes over the results that are left, what comes of it, and the results after it.
It ends with `expiry` where the results do. -/
inductive Walk (seqn : UInt32) (expiry : FetchError) :
    List Event → Except FetchError Callset → List Event → Prop where
  | expired : Walk seqn expiry [] (.error expiry) []
  | misframed {fault : FrameError} {rest : List Event} :
      Walk seqn expiry (.error fault :: rest) (.error (.framing fault)) rest
  | undecodable {payload : Bytes} {fault : Json.Fault} {rest : List Event} :
      Frame.decode payload = .error fault →
      Walk seqn expiry (.ok payload :: rest) (.error (.undecodable fault)) rest
  | rejected {payload : Bytes} {frame : Frame} {rest : List Event} :
      Frame.decode payload = .ok frame → frame.header.seqn = seqn →
      frame.header.status ≠ .success →
      Walk seqn expiry (.ok payload :: rest) (.error (.rejected frame.header.status)) rest
  | noCallset {payload : Bytes} {frame : Frame} {rest : List Event} :
      Frame.decode payload = .ok frame → frame.header.seqn = seqn →
      frame.header.status = .success → frame.callset = none →
      Walk seqn expiry (.ok payload :: rest) (.error .noCallset) rest
  | answered {payload : Bytes} {frame : Frame} {callset : Callset} {rest : List Event} :
      Frame.decode payload = .ok frame → frame.header.seqn = seqn →
      frame.header.status = .success → frame.callset = some callset →
      Walk seqn expiry (.ok payload :: rest) (.ok callset) rest
  | late {payload : Bytes} {frame : Frame} {events left : List Event}
      {outcome : Except FetchError Callset} :
      Frame.decode payload = .ok frame → frame.header.seqn ≠ seqn →
      isStale frame.header.seqn seqn → Walk seqn expiry events outcome left →
      Walk seqn expiry (.ok payload :: events) outcome left
  | foreign {payload : Bytes} {frame : Frame} {rest : List Event} :
      Frame.decode payload = .ok frame → frame.header.seqn ≠ seqn →
      ¬ isStale frame.header.seqn seqn →
      Walk seqn expiry (.ok payload :: rest) (.error (.foreign seqn frame.header.seqn)) rest

theorem Walk.of_judge {seqn : UInt32} {expiry : FetchError} {payload : Bytes}
    {outcome : Except FetchError Callset} (judged : judge seqn payload = some outcome)
    (rest : List Event) : Walk seqn expiry (.ok payload :: rest) outcome rest := by
  unfold judge at judged
  split at judged
  · next found =>
    cases judged
    exact .undecodable found
  · next frame found =>
    split at judged
    · next same =>
      split at judged
      · next failed =>
        cases judged
        exact .rejected found same failed
      · next success =>
        have success : frame.header.status = .success := by simpa using success
        split at judged
        · next missing =>
          cases judged
          exact .noCallset found same success missing
        · next callset present =>
          cases judged
          exact .answered found same success present
    · next other =>
      split at judged
      · cases judged
      · next fresh =>
        cases judged
        exact .foreign found other fresh

theorem Walk.of_stale {seqn : UInt32} {expiry : FetchError} {payload : Bytes}
    {events left : List Event} {outcome : Except FetchError Callset}
    (passed : judge seqn payload = none) (walk : Walk seqn expiry events outcome left) :
    Walk seqn expiry (.ok payload :: events) outcome left := by
  unfold judge at passed
  split at passed
  · cases passed
  · next frame found =>
    split at passed
    · split at passed
      · cases passed
      · split at passed <;> cases passed
    · next other =>
      split at passed
      · next stale => exact .late found other stale walk
      · cases passed

theorem Walk.of_late {seqn : UInt32} {expiry : FetchError} {payload : Bytes} {frame : Frame}
    {events left : List Event} {outcome : Except FetchError Callset}
    (decoded : Frame.decode payload = .ok frame) (stale : isStale frame.header.seqn seqn)
    (walk : Walk seqn expiry (.ok payload :: events) outcome left) :
    Walk seqn expiry events outcome left := by
  have apart : frame.header.seqn ≠ seqn := by
    rintro rfl
    simp [isStale] at stale
  cases walk with
  | undecodable found => cases decoded.symm.trans found
  | rejected found same =>
    cases decoded.symm.trans found
    exact absurd same apart
  | noCallset found same =>
    cases decoded.symm.trans found
    exact absurd same apart
  | answered found same =>
    cases decoded.symm.trans found
    exact absurd same apart
  | late _ _ _ walk => exact walk
  | foreign found _ fresh =>
    cases decoded.symm.trans found
    exact absurd stale fresh

/-- A call takes the callset of a reply to itself. -/
theorem Walk.of_answer {seqn : UInt32} {expiry : FetchError} {payload : Bytes} {frame : Frame}
    {callset : Callset} {events left : List Event} {outcome : Except FetchError Callset}
    (decoded : Frame.decode payload = .ok frame) (own : frame.header.seqn = seqn)
    (success : frame.header.status = .success) (present : frame.callset = some callset)
    (walk : Walk seqn expiry (.ok payload :: events) outcome left) : outcome = .ok callset := by
  cases walk with
  | undecodable found => cases decoded.symm.trans found
  | rejected found _ failed =>
    cases decoded.symm.trans found
    exact absurd success failed
  | noCallset found _ _ missing =>
    cases decoded.symm.trans found
    cases present.symm.trans missing
  | answered found _ _ given =>
    cases decoded.symm.trans found
    cases present.symm.trans given
    rfl
  | late found other =>
    cases decoded.symm.trans found
    exact absurd own other
  | foreign found other =>
    cases decoded.symm.trans found
    exact absurd own other

def expiry (timeout : UInt64) (arrivals : List Arrival) : FetchError :=
  if .ended ∈ arrivals then .closed else .timeout .calling timeout

/-- What is left of `first` after the results `taken`, whatever reads come on top. -/
def Leaves (first : Deframer) (arrivals : List Arrival) (taken : List Event) (last : Deframer)
    (unread : List Arrival) : Prop :=
  ∀ more, results first (arrivals ++ more) = taken ++ results last (unread ++ more)

/-- Receiving takes results off the front, and what it leaves gives the others. -/
theorem receive_spec (seqn : UInt32) (timeout : UInt64) (deframer : Deframer)
    (arrivals : List Arrival) :
    let done := receive seqn timeout deframer arrivals
    done.deframer.limit = deframer.limit ∧
      (∀ outcome, done.outcome = some outcome →
        Walk seqn (expiry timeout arrivals) (results deframer arrivals) outcome
          (results done.deframer done.unread)) ∧
      ∃ taken, Leaves deframer arrivals taken done.deframer done.unread := by
  -- A case for each way to go on: a stop, a fault, a payload that ends the call or is passed over,
  -- and for a deframer without results no more reads, the end of the stream, or a further read.
  fun_induction receive seqn timeout deframer arrivals with
  | case1 deframer arrivals found =>
    refine ⟨rfl, ?_, [], fun _ => rfl⟩
    rintro _ ⟨⟩
  | case2 deframer arrivals fault left found =>
    have found := Deframer.next?_eq found
    refine ⟨Deframer.limit_of_next found, ?_, [.error fault], fun more => results_of_some found _⟩
    rintro _ ⟨⟩
    rw [results_of_some found]
    exact .misframed
  | case3 deframer arrivals payload left found outcome judged =>
    have found := Deframer.next?_eq found
    refine ⟨Deframer.limit_of_next found, ?_, [.ok payload], fun more => results_of_some found _⟩
    rintro _ ⟨⟩
    rw [results_of_some found]
    exact .of_judge judged _
  | case4 deframer arrivals payload left found passed ih =>
    have found := Deframer.next?_eq found
    obtain ⟨same, walk, taken, later⟩ := ih
    refine ⟨same.trans (Deframer.limit_of_next found), fun outcome ended => ?_,
      .ok payload :: taken, fun more => ?_⟩
    · rw [results_of_some found]
      exact .of_stale passed (walk outcome ended)
    · rw [results_of_some found, later, List.cons_append]
  | case5 deframer left found =>
    have found := Deframer.next?_eq found
    refine ⟨Deframer.limit_of_next found, ?_, [], fun more => results_of_none found _⟩
    rintro _ ⟨⟩
    rw [← results_of_none found, (results_over found).1]
    exact .expired
  | case6 deframer left found rest =>
    have found := Deframer.next?_eq found
    refine ⟨Deframer.limit_of_next found, ?_, [], fun more => results_of_none found _⟩
    rintro _ ⟨⟩
    rw [← results_of_none found, (results_over found).2, expiry, if_pos List.mem_cons_self]
    exact .expired
  | case7 deframer left found bytes rest ih =>
    have found := Deframer.next?_eq found
    have limit := Deframer.limit_of_next found
    obtain ⟨same, walk, taken, later⟩ := ih
    refine ⟨same.trans limit, fun outcome ended => ?_, taken, fun more => ?_⟩
    · rw [results_read found]
      simpa [expiry] using walk outcome ended
    · rw [List.cons_append, results_read found, later]

/-- A call comes to an outcome unless the bound of its deframer does not fit. -/
theorem receive_outcome {deframer : Deframer} (fits : Fits deframer.limit) (seqn : UInt32)
    (timeout : UInt64) (arrivals : List Arrival) :
    ∃ outcome, (receive seqn timeout deframer arrivals).outcome = some outcome := by
  fun_induction receive seqn timeout deframer arrivals with
  | case1 deframer arrivals found => cases (Deframer.next?_of_fits fits).symm.trans found
  | case2 => exact ⟨_, rfl⟩
  | case3 => exact ⟨_, rfl⟩
  | case4 deframer arrivals payload left found passed ih =>
    have limit := Deframer.limit_of_next (Deframer.next?_eq found)
    exact ih (limit.symm ▸ fits)
  | case5 => exact ⟨_, rfl⟩
  | case6 => exact ⟨_, rfl⟩
  | case7 deframer left found bytes rest ih =>
    have limit := Deframer.limit_of_next (Deframer.next?_eq found)
    exact ih (limit.symm ▸ fits)

end TaskMonitor.Session
