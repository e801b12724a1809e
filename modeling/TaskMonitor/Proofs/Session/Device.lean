import TaskMonitor.Proofs.Framing.Partial
import TaskMonitor.Proofs.Session.Run

/-! A session and a device that answers its requests in any order and after any delay. The bytes
of the device come in any pieces, and a call may end before its reply has come. -/

set_option autoImplicit false

namespace TaskMonitor.Session

open TaskMonitor.Deframer (Event mostLimit)
open TaskMonitor.Rpc (Callset Frame Status)

/-- What a device answers to one of the calls, which are counted from one on. -/
structure Response where
  call : Nat
  status : Status
  callset : Option Callset

namespace Response

def payload (response : Response) : Bytes :=
  (Frame.reply (.ofNat response.call) response.status response.callset).encode

def event (response : Response) : Event := .ok response.payload

/-- The outcome that a response gives the call it answers. -/
def outcome (response : Response) : Except FetchError Callset :=
  if response.status ≠ .success then .error (.rejected response.status)
  else match response.callset with
    | none => .error .noCallset
    | some callset => .ok callset

def stream (responses : List Response) : Bytes := (responses.map payload).flatMap Cobs.frame

theorem stream_append (front : List Response) (response : Response) :
    stream (front ++ [response]) = stream front ++ Cobs.frame response.payload := by
  simp only [stream, List.map_append, List.map_cons, List.map_nil, List.flatMap_append,
    List.flatMap_cons, List.flatMap_nil, List.append_nil]

end Response

/-- A session and a device. The number of a call is the count of calls up to it. -/
structure World where
  session : Session
  /-- The calls that have ended, and the one that has not. -/
  calls : Nat := 0
  waiting : Option Callset := none
  /-- The calls that the device may know of, the responses to them, and the bytes on their way. -/
  asked : List Nat := []
  sent : List Response := []
  flight : Bytes := []
  /-- The reads that have come up, and those of them that are left. -/
  arrived : List Arrival := []
  unread : List Arrival := []
  /-- The count of the responses that calls have taken. -/
  taken : Nat := 0

namespace World

def start (settings : Settings) : World := { session := .start settings }

def number (world : World) : Nat := world.calls + 1

def begun (world : World) : Nat :=
  match world.waiting with
  | none => world.calls
  | some _ => world.number

def done (world : World) (callset : Callset) : Call := world.session.call callset world.unread

def heard (world : World) (callset : Callset) : List Response :=
  let before := results world.session.deframer world.unread
  let left := results (world.done callset).session.deframer (world.done callset).unread
  (world.sent.drop world.taken).take (before.length - left.length)

/-- A call takes no response that is half of the sequence numbers behind it. -/
def Timely (world : World) (callset : Callset) : Prop :=
  ∀ response ∈ world.heard callset, world.number - response.call < 0x80000000

def finish (world : World) (callset : Callset) : World :=
  { world with
    session := (world.done callset).session
    unread := (world.done callset).unread
    calls := world.number
    waiting := none
    taken := world.taken + (world.heard callset).length }

def Came (world : World) (response : Response) : Prop :=
  ∃ front, front ++ [response] <+: world.sent ∧
    Response.stream (front ++ [response]) <+: received world.arrived

/-- What can happen. A request that is too large is not sent, and one that gets stuck halfway ends
its call; the device answers what was sent, once or again, in whole frames within the limit; any
other call ends with what has come until then. -/
inductive Step (settings : Settings) : World → World → Prop where
  | ask {world : World} (callset : Callset) : world.waiting = none →
      ¬ Oversize settings.frameLimit (.ofNat world.number) callset →
      Step settings world
        { world with waiting := some callset, asked := world.number :: world.asked }
  | withhold {world : World} (callset : Callset) : world.waiting = none →
      Oversize settings.frameLimit (.ofNat world.number) callset →
      Step settings world { world with waiting := some callset }
  /-- The first delimiter of the next request may end the request that got stuck, so that the device
  knows of it. -/
  | stuck {world : World} (callset : Callset) : world.waiting = none →
      ¬ Oversize settings.frameLimit (.ofNat world.number) callset →
      Step settings world
        { world with
          session := (world.session.prepare callset).1
          calls := world.number
          asked := world.number :: world.asked }
  | respond {world : World} (response : Response) : response.call ∈ world.asked →
      response.payload.length ≤ settings.frameLimit.toNat →
      Step settings world
        { world with
          sent := world.sent ++ [response]
          flight := world.flight ++ Cobs.frame response.payload }
  | deliver {world : World} (bytes rest : Bytes) : .ended ∉ world.arrived →
      world.flight = bytes ++ rest →
      Step settings world
        { world with
          flight := rest
          arrived := world.arrived ++ [.bytes bytes]
          unread := world.unread ++ [.bytes bytes] }
  | hangUp {world : World} :
      Step settings world
        { world with
          arrived := world.arrived ++ [.ended]
          unread := world.unread ++ [.ended] }
  | finish {world : World} (callset : Callset) : world.waiting = some callset →
      world.Timely callset → Step settings world (world.finish callset)

inductive Reachable (settings : Settings) : World → Prop where
  | start : Reachable settings (start settings)
  | next {world later : World} : Reachable settings world → Step settings world later →
      Reachable settings later

end World

theorem received_bytes {arrivals : List Arrival} (open' : .ended ∉ arrivals) (bytes : Bytes) :
    received (arrivals ++ [.bytes bytes]) = received arrivals ++ bytes := by
  induction arrivals with
  | nil => simp [received]
  | cons arrival rest ih =>
    cases arrival with
    | ended => exact absurd List.mem_cons_self open'
    | bytes first =>
      have later := ih fun member => open' (List.mem_cons_of_mem _ member)
      rw [List.cons_append, received, received, later, List.append_assoc]

theorem received_ended (arrivals : List Arrival) :
    received (arrivals ++ [.ended]) = received arrivals := by
  induction arrivals with
  | nil => rfl
  | cons arrival rest ih =>
    cases arrival with
    | ended => rfl
    | bytes first => rw [List.cons_append, received, received, ih]

/-! ## All runs -/

namespace World

structure Sound (settings : Settings) (world : World) : Prop where
  standing : Standing settings world.calls ((world.sent.take world.taken).map (·.event))
    world.arrived world.session world.unread
  came : received world.arrived <+: Response.stream world.sent
  flight : .ended ∉ world.arrived →
    received world.arrived ++ world.flight = Response.stream world.sent
  fit : ∀ response ∈ world.sent, response.payload.length ≤ settings.frameLimit.toNat
  asked : ∀ call ∈ world.asked, call ≤ world.begun
  sent : ∀ response ∈ world.sent, response.call ≤ world.begun
  counted : world.taken ≤ world.sent.length
  past : ∀ response ∈ world.sent.take world.taken, response.call ≤ world.calls

theorem Sound.start (settings : Settings) : Sound settings (start settings) where
  standing := .start settings
  came := List.prefix_rfl
  flight := fun _ => rfl
  fit := fun _ member => absurd member List.not_mem_nil
  asked := fun _ member => absurd member List.not_mem_nil
  sent := fun _ member => absurd member List.not_mem_nil
  counted := Nat.le_refl 0
  past := fun _ member => absurd member List.not_mem_nil

/-- The results of all reads are those of the responses that have come, in full, and no others. -/
theorem Sound.results_eq {settings : Settings} {world : World} (sound : Sound settings world) :
    ∃ count, results { limit := settings.frameLimit } world.arrived =
        (world.sent.take count).map (·.event) ∧
      ∀ response, world.Came response → response ∈ world.sent.take count := by
  have fit : ∀ payload ∈ world.sent.map (·.payload),
      payload.length ≤ settings.frameLimit.toNat := by
    intro payload member
    obtain ⟨response, among, rfl⟩ := List.mem_map.mp member
    exact sound.fit response among
  obtain ⟨whole, start, same, most⟩ := Deframer.deframes_frames fit sound.came
    (results_deframes settings.frameLimit world.arrived)
  have counted : whole = (world.sent.take whole.length).map (·.payload) := by
    rw [List.map_take]
    exact List.prefix_iff_eq_take.mp start
  refine ⟨whole.length, ?_, ?_⟩
  · rw [same]
    exact (congrArg (List.map Except.ok) counted).trans List.map_map
  · rintro response ⟨front, among, came⟩
    have within := (most _ (among.map _) came).length_le
    rw [List.length_map] at within
    have start := List.prefix_take_iff.mpr ⟨among, within⟩
    exact start.subset (List.mem_append_right front List.mem_cons_self)

/-- The results that a call meets are those of the next responses, and of all responses that have
come in full none is missing. -/
theorem Sound.results_next {settings : Settings} {world : World} (sound : Sound settings world) :
    ∃ coming, coming <+: world.sent.drop world.taken ∧
      (∀ response, world.Came response → response ∈ world.sent.take world.taken ++ coming) ∧
      results world.session.deframer world.unread = coming.map (·.event) := by
  obtain ⟨count, all, came⟩ := sound.results_eq
  have before := sound.standing.leaves []
  rw [List.append_nil, List.append_nil, all] at before
  have size : ((world.sent.take world.taken).map (·.event)).length = world.taken := by
    rw [List.length_map, List.length_take, Nat.min_eq_left sound.counted]
  refine ⟨(world.sent.take count).drop world.taken, ?_, fun response full => ?_, ?_⟩
  · rw [List.drop_take]
    exact List.take_prefix _ _
  · have member := came response full
    rw [← List.take_append_drop world.taken (world.sent.take count)] at member
    rcases List.mem_append.mp member with early | late
    · rw [List.take_take] at early
      exact List.mem_append_left _
        (List.take_subset_take_left _ (Nat.min_le_left _ _) early)
    · exact List.mem_append_right _ late
  · rw [List.map_drop, before, List.drop_left' size]

/-- The responses that a call can take, those that it does take, and how it takes them. -/
theorem Sound.call {settings : Settings} {world : World} {callset : Callset}
    (sound : Sound settings world) (allowed : settings.frameLimit.toNat ≤ mostLimit)
    (fits : ¬ Oversize settings.frameLimit (.ofNat world.number) callset) :
    let done := world.done callset
    let left := results done.session.deframer done.unread
    ∃ coming outcome, (∀ response, world.Came response →
        response ∈ world.sent.take world.taken ++ coming) ∧ coming ⊆ world.sent ∧
      results world.session.deframer world.unread = coming.map (·.event) ∧
      world.heard callset = coming.take (coming.length - left.length) ∧
      coming.map (·.event) = (world.heard callset).map (·.event) ++ left ∧
      done.outcome = some outcome ∧
      Walk (.ofNat world.number) (expiry settings.timeout world.arrived)
        (coming.map (·.event)) outcome left ∧
      Standing settings world.number
        ((world.sent.take world.taken ++ world.heard callset).map (·.event))
        world.arrived done.session done.unread := by
  intro done left
  obtain ⟨coming, next, came, now⟩ := sound.results_next
  obtain ⟨sent, passed, outcome, whole, ended, walk, standing⟩ :=
    sound.standing.walked allowed fits
  have before := sound.standing.leaves []
  rw [List.append_nil, List.append_nil, whole, List.append_assoc] at before
  have split : coming.map (·.event) = passed ++ left :=
    now.symm.trans (List.append_cancel_left before).symm
  have sum : coming.length = passed.length + left.length := by
    have lengths := congrArg List.length split
    rwa [List.length_map, List.length_append] at lengths
  have heard : world.heard callset = coming.take (coming.length - left.length) := by
    obtain ⟨later, next⟩ := next
    rw [World.heard, now, List.length_map, ← next]
    exact List.take_append_of_le_length (Nat.sub_le _ _)
  have took : (world.heard callset).map (·.event) = passed := by
    rw [heard, List.map_take, split, sum, Nat.add_sub_cancel, List.take_left]
  refine ⟨coming, outcome, came, ?_, now, heard, ?_, ended, ?_, ?_⟩
  · exact fun _ member => List.mem_of_mem_drop (next.subset member)
  · rw [took, split]
  · rw [split]
    exact walk
  · rw [List.map_append, took]
    exact standing

theorem Sound.refused {settings : Settings} {world : World} {callset : Callset}
    (sound : Sound settings world)
    (large : Oversize settings.frameLimit (.ofNat world.number) callset) :
    let done := world.done callset
    done.outcome = some (.error (.framing (.tooLarge settings.frameLimit.toNat))) ∧
      results done.session.deframer done.unread = results world.session.deframer world.unread ∧
      world.heard callset = [] ∧
      Standing settings world.number ((world.sent.take world.taken).map (·.event))
        world.arrived done.session done.unread := by
  intro done
  obtain ⟨_, outcome, standing⟩ := sound.standing.refused large
  have same : results done.session.deframer done.unread =
      results world.session.deframer world.unread := by
    rw [World.number, ← seqn_succ, ← sound.standing.seqn, ← sound.standing.limit] at large
    change results (world.session.call callset world.unread).session.deframer
      (world.session.call callset world.unread).unread = _
    rw [call_refused large]
  refine ⟨outcome, same, ?_, standing⟩
  rw [World.heard, same, Nat.sub_self, List.take_zero]

theorem Sound.finish {settings : Settings} {world : World} {callset : Callset}
    (sound : Sound settings world) (allowed : settings.frameLimit.toNat ≤ mostLimit)
    (waits : world.waiting = some callset) : Sound settings (world.finish callset) := by
  have begun : world.begun = world.number := by rw [World.begun, waits]
  have next : Standing settings world.number
      ((world.sent.take world.taken ++ world.heard callset).map (·.event)) world.arrived
      (world.done callset).session (world.done callset).unread := by
    by_cases large : Oversize settings.frameLimit (.ofNat world.number) callset
    · obtain ⟨_, _, none, standing⟩ := sound.refused large
      rw [none, List.append_nil]
      exact standing
    · obtain ⟨_, _, _, _, _, _, _, _, _, standing⟩ := sound.call allowed large
      exact standing
  have length : (world.heard callset).length ≤ (world.sent.drop world.taken).length :=
    List.length_take_le' _ _
  have heard : world.sent.take (world.taken + (world.heard callset).length) =
      world.sent.take world.taken ++ world.heard callset := by
    rw [List.take_add]
    congr 1
    rw [World.heard, List.length_take]
    exact List.take_eq_take_min.symm
  refine ⟨?_, sound.came, sound.flight, sound.fit, ?_, ?_, ?_, ?_⟩
  · change Standing settings world.number ((world.sent.take (_ + _)).map _) _ _ _
    rw [heard]
    exact next
  · intro call member
    exact le_of_le_of_eq (sound.asked call member) begun
  · intro response member
    exact le_of_le_of_eq (sound.sent response member) begun
  · change world.taken + _ ≤ _
    have counted := sound.counted
    rw [List.length_drop] at length
    change world.taken + _ ≤ world.sent.length
    omega
  · intro response member
    exact le_of_le_of_eq (sound.sent response (List.mem_of_mem_take member)) begun

theorem begun_le (world : World) : world.begun ≤ world.number := by
  unfold begun
  split
  · exact Nat.le_succ _
  · exact Nat.le_refl _

theorem Sound.begin {settings : Settings} {world : World} (sound : Sound settings world)
    (callset : Callset) {asked : List Nat} (within : ∀ call ∈ asked, call ≤ world.number) :
    Sound settings { world with waiting := some callset, asked } where
  standing := sound.standing
  came := sound.came
  flight := sound.flight
  fit := sound.fit
  asked := within
  sent := fun response member => Nat.le_trans (sound.sent response member) world.begun_le
  counted := sound.counted
  past := sound.past

theorem Sound.stuck {settings : Settings} {world : World} (sound : Sound settings world)
    (callset : Callset) (idle : world.waiting = none) :
    Sound settings
      { world with
        session := (world.session.prepare callset).1
        calls := world.number
        asked := world.number :: world.asked } := by
  have begun : ∀ call, call ≤ world.begun → call ≤ world.number := fun call before =>
    Nat.le_trans before world.begun_le
  refine ⟨sound.standing.prepared callset, sound.came, sound.flight, sound.fit, ?_, ?_,
    sound.counted, fun response member => Nat.le_succ_of_le (sound.past response member)⟩
  · simp only [World.begun, idle]
    exact List.forall_mem_cons.mpr ⟨Nat.le_refl _, fun call member =>
      begun call (sound.asked call member)⟩
  · simp only [World.begun, idle]
    exact fun response member => begun response.call (sound.sent response member)

theorem Sound.respond {settings : Settings} {world : World} {response : Response}
    (sound : Sound settings world) (asked : response.call ∈ world.asked)
    (fits : response.payload.length ≤ settings.frameLimit.toNat) :
    Sound settings
      { world with
        sent := world.sent ++ [response]
        flight := world.flight ++ Cobs.frame response.payload } := by
  have kept : (world.sent ++ [response]).take world.taken = world.sent.take world.taken :=
    List.take_append_of_le_length sound.counted
  refine ⟨?_, ?_, ?_, ?_, sound.asked, ?_, ?_, ?_⟩
  · change Standing settings _ (((world.sent ++ [response]).take _).map _) _ _ _
    rw [kept]
    exact sound.standing
  · change _ <+: Response.stream (world.sent ++ [response])
    rw [Response.stream_append]
    exact sound.came.trans (List.prefix_append _ _)
  · intro open'
    change received world.arrived ++ (world.flight ++ _) = Response.stream (world.sent ++ [_])
    rw [Response.stream_append, ← sound.flight open', List.append_assoc]
  · intro other member
    rcases List.mem_append.mp member with before | same
    · exact sound.fit other before
    · rw [List.mem_singleton.mp same]
      exact fits
  · intro other member
    rcases List.mem_append.mp member with before | same
    · exact sound.sent other before
    · rw [List.mem_singleton.mp same]
      exact sound.asked _ asked
  · change world.taken ≤ (world.sent ++ [response]).length
    rw [List.length_append]
    exact Nat.le_add_right_of_le sound.counted
  · change ∀ other ∈ (world.sent ++ [response]).take world.taken, _
    rw [kept]
    exact sound.past

theorem Sound.deliver {settings : Settings} {world : World} {bytes rest : Bytes}
    (sound : Sound settings world) (open' : .ended ∉ world.arrived)
    (split : world.flight = bytes ++ rest) :
    Sound settings
      { world with
        flight := rest
        arrived := world.arrived ++ [.bytes bytes]
        unread := world.unread ++ [.bytes bytes] } := by
  have whole := sound.flight open'
  rw [split, ← List.append_assoc, ← received_bytes open'] at whole
  exact ⟨sound.standing.arrive _, ⟨rest, whole⟩, fun _ => whole, sound.fit, sound.asked,
    sound.sent, sound.counted, sound.past⟩

theorem Sound.hangUp {settings : Settings} {world : World} (sound : Sound settings world) :
    Sound settings
      { world with
        arrived := world.arrived ++ [.ended]
        unread := world.unread ++ [.ended] } := by
  refine ⟨sound.standing.arrive _, ?_, ?_, sound.fit, sound.asked, sound.sent, sound.counted,
    sound.past⟩
  · change received (world.arrived ++ [.ended]) <+: _
    rw [received_ended]
    exact sound.came
  · intro open'
    exact absurd (List.mem_append_right _ List.mem_cons_self) open'

theorem Step.sound {settings : Settings} {world later : World} (step : Step settings world later)
    (sound : Sound settings world) (allowed : settings.frameLimit.toNat ≤ mostLimit) :
    Sound settings later := by
  have asked : ∀ call ∈ world.asked, call ≤ world.number := fun call member =>
    Nat.le_trans (sound.asked call member) world.begun_le
  cases step with
  | ask callset _ _ =>
    exact sound.begin callset (List.forall_mem_cons.mpr ⟨Nat.le_refl _, asked⟩)
  | withhold callset _ _ => exact sound.begin callset asked
  | stuck callset idle _ => exact sound.stuck callset idle
  | respond response asked fits => exact sound.respond asked fits
  | deliver bytes rest open' split => exact sound.deliver open' split
  | hangUp => exact sound.hangUp
  | finish callset waits _ => exact sound.finish allowed waits

theorem Reachable.sound {settings : Settings} {world : World} (reached : Reachable settings world)
    (allowed : settings.frameLimit.toNat ≤ mostLimit) : Sound settings world := by
  induction reached with
  | start => exact .start settings
  | next _ step ih => exact step.sound ih allowed

end World

end TaskMonitor.Session
