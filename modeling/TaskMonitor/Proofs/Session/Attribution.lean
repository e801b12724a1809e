import TaskMonitor.Proofs.Rpc.Message
import TaskMonitor.Proofs.Session.Device
import TaskMonitor.Proofs.Session.Staleness

/-! Replies and the calls that they answer. Sequence numbers tell a late reply from one to the call
that waits, as long as fewer than half of them lie between the two calls. -/

set_option autoImplicit false

namespace TaskMonitor.Session

open TaskMonitor.Deframer (Event mostLimit)
open TaskMonitor.Rpc (Callset Frame)

/-! ## One call among responses -/

theorem Response.decode_payload (response : Response) : Frame.decode response.payload =
    .ok (Frame.reply (.ofNat response.call) response.status response.callset) :=
  (Rpc.Frame.reads _).read

theorem Walk.left_length {seqn : UInt32} {expiry : FetchError} {events left : List Event}
    {outcome : Except FetchError Callset} (walk : Walk seqn expiry events outcome left) :
    left.length ≤ events.length := by
  induction walk with
  | expired => exact Nat.le_refl _
  | late _ _ _ _ ih => exact Nat.le_succ_of_le ih
  | _ => exact Nat.le_succ _

theorem Walk.left_shorter {seqn : UInt32} {expiry : FetchError} {event : Event}
    {events left : List Event} {outcome : Except FetchError Callset}
    (walk : Walk seqn expiry (event :: events) outcome left) : left.length ≤ events.length := by
  cases walk with
  | late _ _ _ walk => exact walk.left_length
  | _ => exact Nat.le_refl _

theorem Walk.own {number : Nat} {expiry : FetchError} {events left : List Event}
    {outcome : Except FetchError Callset} {response : Response} (own : response.call = number)
    (walk : Walk (.ofNat number) expiry (.ok response.payload :: events) outcome left) :
    left = events ∧ outcome = response.outcome := by
  have decoded := response.decode_payload
  subst own
  cases walk with
  | undecodable found => cases decoded.symm.trans found
  | rejected found same failed =>
    cases decoded.symm.trans found
    exact ⟨rfl, (if_pos failed).symm⟩
  | noCallset found same success missing =>
    cases decoded.symm.trans found
    simp only [Frame.reply] at success missing
    exact ⟨rfl, by simp only [Response.outcome, success, missing, ne_eq, not_true, ↓reduceIte]⟩
  | answered found same success present =>
    cases decoded.symm.trans found
    simp only [Frame.reply] at success present
    exact ⟨rfl, by simp only [Response.outcome, success, present, ne_eq, not_true, ↓reduceIte]⟩
  | late found other =>
    cases decoded.symm.trans found
    exact absurd rfl other
  | foreign found other =>
    cases decoded.symm.trans found
    exact absurd rfl other

theorem Walk.passed {number : Nat} {expiry : FetchError} {events left : List Event}
    {outcome : Except FetchError Callset} {response : Response} (before : response.call < number)
    (near : number - response.call < 0x80000000)
    (walk : Walk (.ofNat number) expiry (.ok response.payload :: events) outcome left) :
    Walk (.ofNat number) expiry events outcome left :=
  walk.of_late response.decode_payload (stale_ofNat before near)

/-- A call passes over the responses to calls before, up to its own. -/
theorem Walk.responses {number : Nat} {expiry : FetchError} {responses : List Response}
    {left : List Event} {outcome : Except FetchError Callset}
    (past : ∀ response ∈ responses, response.call ≤ number)
    (near : ∀ response ∈ responses.take (responses.length - left.length),
      number - response.call < 0x80000000)
    (walk : Walk (.ofNat number) expiry (responses.map (·.event)) outcome left) :
    ∃ late, (∀ response ∈ late, response.call < number) ∧
      (responses = late ∧ left = [] ∧ outcome = .error expiry ∨
        ∃ own later, responses = late ++ own :: later ∧ left = later.map (·.event) ∧
          own.call = number ∧ outcome = own.outcome) := by
  induction responses with
  | nil =>
    cases walk
    exact ⟨[], fun _ member => absurd member List.not_mem_nil, .inl ⟨rfl, rfl, rfl⟩⟩
  | cons response responses ih =>
    change Walk _ _ (.ok response.payload :: responses.map (·.event)) _ _ at walk
    rcases Nat.lt_or_eq_of_le (past response List.mem_cons_self) with before | own
    · have short := walk.left_shorter
      rw [List.length_map] at short
      -- The response is one of those that the call takes.
      have split : (response :: responses).length - left.length =
          responses.length - left.length + 1 := by
        rw [List.length_cons]
        omega
      rw [split, List.take_succ_cons] at near
      have walk := walk.passed before (near response List.mem_cons_self)
      obtain ⟨late, earlier, rest⟩ := ih
        (fun other member => past other (List.mem_cons_of_mem _ member))
        (fun other member => near other (List.mem_cons_of_mem _ member)) walk
      refine ⟨response :: late, List.forall_mem_cons.mpr ⟨before, earlier⟩, ?_⟩
      rcases rest with ⟨rfl, none, same⟩ | ⟨own, later, rfl, same⟩
      · exact .inl ⟨rfl, none, same⟩
      · exact .inr ⟨own, later, rfl, same⟩
    · obtain ⟨rfl, rfl⟩ := walk.own own
      exact ⟨[], fun _ member => absurd member List.not_mem_nil,
        .inr ⟨response, responses, rfl, rfl, own, rfl⟩⟩

/-! ## Calls of a run -/

namespace World

/-- How a call that takes the responses `heard` ends. It drops responses to calls before, and ends
with the response to itself, or with none if that has not come. -/
inductive Answered (settings : Settings) (world : World) (callset : Callset) :
    List Response → Option (Except FetchError Callset) → Prop where
  | refused : Oversize settings.frameLimit (.ofNat world.number) callset →
      Answered settings world callset []
        (some (.error (.framing (.tooLarge settings.frameLimit.toNat))))
  | expired {late : List Response} :
      ¬ Oversize settings.frameLimit (.ofNat world.number) callset →
      (∀ response ∈ late, response.call < world.number) →
      (∀ response, world.Came response → response.call ≠ world.number) →
      Answered settings world callset late
        (some (.error (expiry settings.timeout world.arrived)))
  | own {late : List Response} {response : Response} :
      ¬ Oversize settings.frameLimit (.ofNat world.number) callset →
      (∀ response ∈ late, response.call < world.number) → response.call = world.number →
      Answered settings world callset (late ++ [response]) (some response.outcome)

/-- The ends that a call should never come to. -/
def Confused : Option (Except FetchError Callset) → Prop
  | none => True
  | some (.error (.framing _)) => True
  | some (.error (.undecodable _)) => True
  | some (.error (.foreign _ _)) => True
  | _ => False

theorem Answered.not_confused {settings : Settings} {world : World} {callset : Callset}
    {heard : List Response} {outcome : Option (Except FetchError Callset)}
    (answered : Answered settings world callset heard outcome)
    (fits : ¬ Oversize settings.frameLimit (.ofNat world.number) callset) :
    ¬ Confused outcome := by
  cases answered with
  | refused large => exact absurd large fits
  | expired _ _ _ =>
    unfold expiry
    split <;> exact id
  | @own _ response _ _ _ =>
    unfold Response.outcome
    split
    · exact id
    · split <;> exact id

theorem Sound.answered {settings : Settings} {world : World} {callset : Callset}
    (sound : Sound settings world) (allowed : settings.frameLimit.toNat ≤ mostLimit)
    (waits : world.waiting = some callset) (timely : world.Timely callset) :
    Answered settings world callset (world.heard callset) (world.done callset).outcome := by
  by_cases large : Oversize settings.frameLimit (.ofNat world.number) callset
  · obtain ⟨outcome, _, none, _⟩ := sound.refused large
    rw [none, outcome]
    exact .refused large
  obtain ⟨coming, outcome, came, among, _, heard, split, ended, walk, _⟩ :=
    sound.call allowed large
  -- The device answers no call that has not begun.
  have past : ∀ response ∈ coming, response.call ≤ world.number := fun response member => by
    have begun : world.begun = world.number := by rw [World.begun, waits]
    exact le_of_le_of_eq (sound.sent response (among member)) begun
  obtain ⟨late, before, ⟨rfl, none, same⟩ | ⟨own, later, rfl, left, number, same⟩⟩ :=
    Walk.responses past (heard ▸ timely) walk
  -- The call has run out of responses, so that all that have come are to calls before.
  · rw [none, List.length_nil, Nat.sub_zero, List.take_length] at heard
    rw [heard, ended, same]
    refine .expired large before fun response full => ?_
    rcases List.mem_append.mp (came response full) with early | member
    · exact Nat.ne_of_lt (Nat.lt_succ_of_le (sound.past response early))
    · exact Nat.ne_of_lt (before response member)
  · have taken : (late ++ own :: later).length - (later.map (·.event)).length =
        late.length + 1 := by
      simp only [List.length_append, List.length_cons, List.length_map]
      omega
    rw [left, taken, List.take_length_add_append] at heard
    rw [heard, ended, same]
    exact .own large before number

/-- No reply is taken for that to another call. A call takes the next replies that have come: it
drops late ones, and its outcome is in the reply to itself, or says that none has come. -/
theorem call_answered {settings : Settings} {world : World} {callset : Callset}
    (allowed : settings.frameLimit.toNat ≤ mostLimit) (reached : Reachable settings world)
    (waits : world.waiting = some callset) (timely : world.Timely callset) :
    let done := world.done callset
    results world.session.deframer world.unread =
        (world.heard callset).map (·.event) ++ results done.session.deframer done.unread ∧
      Answered settings world callset (world.heard callset) done.outcome ∧
      (¬ Oversize settings.frameLimit (.ofNat world.number) callset →
        done.sent = some (Cobs.frame (Frame.call (.ofNat world.number) callset).encode) ∧
          ¬ Confused done.outcome) := by
  have sound := reached.sound allowed
  have answered := sound.answered allowed waits timely
  refine ⟨?_, answered, fun fits => ⟨?_, answered.not_confused fits⟩⟩
  · by_cases large : Oversize settings.frameLimit (.ofNat world.number) callset
    · obtain ⟨_, same, none, _⟩ := sound.refused large
      rw [none, same]
      rfl
    · obtain ⟨coming, _, _, _, now, _, split, _⟩ := sound.call allowed large
      rw [now, split]
  · exact (sound.standing.walked allowed fits).1

/-- The replies to a call that has timed out and to one whose request got stuck come with the reply
to the next one. -/
theorem call_answered_after_timeout : ∃ world, Reachable {} world ∧
    world.sent = [⟨1, .success, none⟩, ⟨2, .success, none⟩, ⟨3, .handlerError, none⟩] ∧
      world.waiting = some .taskRequest ∧ world.Timely .taskRequest ∧
      (results world.session.deframer world.unread =
          (world.heard .taskRequest).map (·.event) ++
            results (world.done .taskRequest).session.deframer (world.done .taskRequest).unread ∧
        Answered {} world .taskRequest (world.heard .taskRequest)
          (world.done .taskRequest).outcome ∧
        (¬ Oversize ({} : Settings).frameLimit (.ofNat world.number) .taskRequest →
          (world.done .taskRequest).sent = some
              (Cobs.frame (Frame.call (.ofNat world.number) .taskRequest).encode) ∧
            ¬ Confused (world.done .taskRequest).outcome)) := by
  have small : ∀ number : UInt32, number = 1 ∨ number = 2 ∨ number = 3 →
      ¬ Oversize ({} : Settings).frameLimit number .taskRequest := by
    rintro number (rfl | rfl | rfl) <;> exact Nat.not_lt.mpr (by decide +kernel)
  have asked : Reachable {} _ :=
    .next .start (.ask .taskRequest rfl (small _ (.inl rfl)))
  have expired : Reachable {} _ :=
    .next asked (.finish .taskRequest rfl fun _ member =>
      absurd (List.mem_of_mem_take member) List.not_mem_nil)
  have stuck : Reachable {} _ :=
    .next expired (.stuck .taskRequest rfl (small _ (.inr (.inl rfl))))
  have again : Reachable {} _ :=
    .next stuck (.ask .taskRequest rfl (small _ (.inr (.inr rfl))))
  have late : Reachable {} _ :=
    .next again (.respond ⟨1, .success, none⟩ (by decide +kernel) (by decide))
  have later : Reachable {} _ :=
    .next late (.respond ⟨2, .success, none⟩ (by decide +kernel) (by decide))
  have own : Reachable {} _ :=
    .next later (.respond ⟨3, .handlerError, none⟩ (by decide +kernel) (by decide))
  have reached := Reachable.next own (.deliver _ [] List.not_mem_nil (List.append_nil _).symm)
  refine ⟨_, reached, rfl, rfl, ?_, ?_⟩
  · intro response _
    exact Nat.lt_of_le_of_lt (Nat.sub_le _ _) (by decide)
  · exact call_answered (by decide) reached rfl fun response _ =>
      Nat.lt_of_le_of_lt (Nat.sub_le _ _) (by decide)

end World

end TaskMonitor.Session
