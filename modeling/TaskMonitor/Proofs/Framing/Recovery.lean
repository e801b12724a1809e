import TaskMonitor.Proofs.Framing.Stream

/-! Frames after noise. Whatever a deframer has been through, the frames that come next are
delivered, and a deframer that had nothing left to give reports at most one fault before them. -/

set_option autoImplicit false

namespace TaskMonitor.Deframer

/-- The deframers that pushes, looks for frames and resets lead to. -/
inductive Reachable (limit : UInt64) : Deframer → Prop where
  | start : Reachable limit { limit }
  | push {deframer : Deframer} (bytes : Bytes) : Reachable limit deframer →
      Reachable limit (deframer.push bytes)
  | next {deframer : Deframer} : Reachable limit deframer → Reachable limit deframer.next.2
  | reset {deframer : Deframer} : Reachable limit deframer → Reachable limit deframer.reset

theorem Reachable.limit {limit : UInt64} {deframer : Deframer}
    (reached : Reachable limit deframer) : deframer.limit = limit := by
  induction reached with
  | start => rfl
  | push bytes _ ih => exact ih
  | next _ ih => exact (limit_of_next rfl).trans ih
  | reset _ ih => exact ih

/-! ## Segments of frames -/

theorem segments_frame (front payload more : Bytes) :
    segments (front ++ (Cobs.frame payload ++ more)) =
      segments (front ++ [0]) ++ Cobs.encode payload :: segments (0 :: more) := by
  have whole : front ++ (Cobs.frame payload ++ more) =
      front ++ 0 :: (Cobs.encode payload ++ 0 :: more) := by simp [Cobs.frame]
  rw [whole, segments_cut, ← List.cons_append,
    segments_cons (Cobs.zero_not_mem_encode payload) (Cobs.encode_ne_nil payload)]

theorem unfinished_frame (front payload more : Bytes) :
    unfinished (front ++ (Cobs.frame payload ++ more)) = unfinished (0 :: more) := by
  have whole : front ++ (Cobs.frame payload ++ more) =
      (front ++ 0 :: Cobs.encode payload) ++ 0 :: more := by simp [Cobs.frame]
  rw [whole, unfinished_cut]

theorem segments_frames (payloads : List Bytes) :
    segments (0 :: payloads.flatMap Cobs.frame) = payloads.map Cobs.encode := by
  induction payloads with
  | nil => rfl
  | cons payload rest ih =>
    rw [List.flatMap_cons, ← List.singleton_append, segments_frame, ih]
    rfl

theorem unfinished_frames (payloads : List Bytes) :
    unfinished (0 :: payloads.flatMap Cobs.frame) = some [] := by
  induction payloads with
  | nil => rfl
  | cons payload rest ih =>
    rw [List.flatMap_cons, ← List.singleton_append, unfinished_frame, ih]

/-- Frames behind other bytes: the first delimiter ends what stood before. -/
theorem segments_append_frames (front : Bytes) {payloads : List Bytes} (some : payloads ≠ []) :
    segments (front ++ payloads.flatMap Cobs.frame) =
      segments (front ++ [0]) ++ payloads.map Cobs.encode := by
  cases payloads with
  | nil => exact absurd rfl some
  | cons payload rest => rw [List.flatMap_cons, segments_frame, segments_frames, List.map_cons]

theorem overflow_append_frames (limit : UInt64) (front : Bytes) {payloads : List Bytes}
    (some : payloads ≠ []) : overflow limit (front ++ payloads.flatMap Cobs.frame) = [] := by
  cases payloads with
  | nil => exact absurd rfl some
  | cons payload rest =>
    simp [overflow, List.flatMap_cons, unfinished_frame, unfinished_frames]

/-! ## Delivery -/

theorem Verdict.encode_eq {limit : UInt64} {payload : Bytes} {event : Event}
    (fits : payload.length ≤ limit.toNat) (verdict : Verdict limit (Cobs.encode payload) event) :
    event = .ok payload := by
  have decoded := Cobs.decode_encode payload
  cases verdict with
  | delivered found _ =>
    cases decoded.symm.trans found
    rfl
  | oversize found large =>
    cases decoded.symm.trans found
    omega
  | broken found => cases decoded.symm.trans found
  | overlong found _ => cases decoded.symm.trans found

theorem verdicts_encode_eq {limit : UInt64} {payloads : List Bytes} {events : List Event}
    (fit : ∀ payload ∈ payloads, payload.length ≤ limit.toNat)
    (each : List.Forall₂ (Verdict limit) (payloads.map Cobs.encode) events) :
    events = payloads.map .ok := by
  induction payloads generalizing events with
  | nil =>
    cases each
    rfl
  | cons payload rest ih =>
    cases each with
    | cons verdict each =>
      rw [verdict.encode_eq (fit payload List.mem_cons_self),
        ih (fun other member => fit other (List.mem_cons_of_mem _ member)) each, List.map_cons]

theorem Idle.segments_length_le {deframer : Deframer} (idle : deframer.Idle) :
    (segments (deframer.backlog ++ [0])).length ≤ 1 := by
  obtain ⟨clear, _⟩ := idle
  unfold backlog
  split
  · rw [segments_closed clear]
    split <;> simp
  · rw [segments_before clear]
    simp

/-- Frames are delivered whatever came before them, in whatever pieces they come, and no look for
them stops the program. -/
theorem run_frames {limit : UInt64} {start : Deframer} {payloads : List Bytes} {steps : List Step}
    (allowed : limit.toNat ≤ mostLimit) (reached : Reachable limit start) (some : payloads ≠ [])
    (fit : ∀ payload ∈ payloads, payload.length ≤ limit.toNat)
    (sent : pushed steps = payloads.flatMap Cobs.frame) :
    (∃ noise, (start.run steps).1 = noise ++ payloads.map .ok ∧
      ((∃ earlier, Reachable limit earlier ∧ earlier.next = (none, start)) →
        noise.length ≤ 1)) ∧ NeverStops limit := by
  refine ⟨?_, (fits_of_allowed allowed).neverStops⟩
  obtain ⟨⟨verdicts, each, same⟩, _⟩ := start.run_reads steps
  rw [reached.limit, sent, segments_append_frames _ some] at each
  rw [reached.limit, sent, overflow_append_frames _ _ some, List.append_nil] at same
  -- The first delimiter of the frames ends what was there before; the last verdicts are theirs.
  let before := segments (start.backlog ++ [0])
  have later := List.forall₂_drop before.length each
  rw [List.drop_left] at later
  refine ⟨verdicts.take before.length, ?_, ?_⟩
  · rw [same, ← verdicts_encode_eq fit later, List.take_append_drop]
  · rintro ⟨earlier, _, found⟩
    have few := (idle_of_next found).segments_length_le
    exact Nat.le_trans (List.length_take_le _ _) few

/-- A broken segment is under way; an empty payload and one as long as the limit come after it. -/
theorem run_frames_mid_segment :
    ∃ noise, ((({ limit := 3 } : Deframer).push [7, 0, 5, 1]).run
        [.push [0, 1, 0, 0], .next, .push [2, 1], .push [2, 2, 0]]).1 =
      noise ++ [[], [1, 0, 2]].map .ok ∧
      ((∃ earlier, Reachable 3 earlier ∧
        earlier.next = (none, ({ limit := 3 } : Deframer).push [7, 0, 5, 1])) →
        noise.length ≤ 1) :=
  (run_frames (by decide) (.push _ .start) (by decide) (by decide) (by decide)).1

end TaskMonitor.Deframer
