import TaskMonitor.Proofs.Framing.Recovery

/-! A stream of frames that breaks off anywhere, inside a frame or between two. The results are
the payloads of the frames that have come in full, and no others. -/

set_option autoImplicit false

namespace TaskMonitor.Deframer

/-- The frames of `whole`, and less than one frame more. -/
inductive Breaks : List Bytes → List Bytes → Bytes → Prop where
  | between {payloads : List Bytes} : Breaks payloads [] []
  | inside {payload part : Bytes} {payloads : List Bytes} : part <+: Cobs.encode payload →
      Breaks (payload :: payloads) [] (0 :: part)
  | frame {payload stream : Bytes} {payloads whole : List Bytes} : Breaks payloads whole stream →
      Breaks (payload :: payloads) (payload :: whole) (Cobs.frame payload ++ stream)

theorem breaks_of_prefix {payloads : List Bytes} {stream : Bytes}
    (start : stream <+: payloads.flatMap Cobs.frame) :
    ∃ whole, Breaks payloads whole stream := by
  induction payloads generalizing stream with
  | nil =>
    rw [List.flatMap_nil, List.prefix_nil] at start
    subst start
    exact ⟨[], .between⟩
  | cons payload payloads ih =>
    rw [List.flatMap_cons] at start
    -- Either the stream breaks off in the first frame, or that frame has come in full.
    rcases List.prefix_or_prefix_of_prefix start (List.prefix_append _ _) with short | long
    · rcases List.prefix_concat_iff.mp short with rfl | short
      · refine ⟨[payload], ?_⟩
        rw [← List.append_nil (_ ++ [0])]
        exact .frame .between
      · rcases List.prefix_cons_iff.mp short with rfl | ⟨part, rfl, inside⟩
        · exact ⟨[], .between⟩
        · exact ⟨[], .inside inside⟩
    · obtain ⟨more, rfl⟩ := long
      obtain ⟨whole, breaks⟩ := ih ((List.prefix_append_right_inj _).mp start)
      exact ⟨payload :: whole, .frame breaks⟩

theorem Breaks.start {payloads whole : List Bytes} {stream : Bytes}
    (breaks : Breaks payloads whole stream) : whole <+: payloads := by
  induction breaks with
  | between => exact List.nil_prefix
  | inside _ => exact List.nil_prefix
  | frame _ ih => exact (List.prefix_append_right_inj [_]).mpr ih

theorem length_frame (payload : Bytes) :
    (Cobs.frame payload).length = (Cobs.encode payload).length + 2 := by
  simp [Cobs.frame]

/-- No frame is in the stream beyond those. -/
theorem Breaks.most {payloads whole other : List Bytes} {stream : Bytes}
    (breaks : Breaks payloads whole stream) (among : other <+: payloads)
    (came : other.flatMap Cobs.frame <+: stream) : other <+: whole := by
  -- On the stream: where it breaks off, a whole frame more is longer than what is there.
  induction breaks generalizing other with
  | between =>
    cases other with
    | nil => exact List.prefix_rfl
    | cons payload other =>
      have length := came.length_le
      rw [List.flatMap_cons, List.length_append, length_frame, List.length_nil] at length
      omega
  | inside part =>
    cases other with
    | nil => exact List.prefix_rfl
    | cons payload other =>
      obtain ⟨rfl, _⟩ := List.cons_prefix_cons.mp among
      have length := came.length_le
      have shorter := part.length_le
      rw [List.flatMap_cons, List.length_append, length_frame, List.length_cons] at length
      omega
  | frame _ ih =>
    cases other with
    | nil => exact List.nil_prefix
    | cons payload other =>
      obtain ⟨rfl, others⟩ := List.cons_prefix_cons.mp among
      rw [List.flatMap_cons] at came
      have later := ih others ((List.prefix_append_right_inj _).mp came)
      exact List.cons_prefix_cons.mpr ⟨rfl, later⟩

theorem zero_not_mem_part {payload part : Bytes} (start : part <+: Cobs.encode payload) :
    0 ∉ part :=
  fun member => Cobs.zero_not_mem_encode payload (start.subset member)

theorem Breaks.segments {payloads whole : List Bytes} {stream : Bytes}
    (breaks : Breaks payloads whole stream) :
    Deframer.segments (0 :: stream) = whole.map Cobs.encode := by
  induction breaks with
  | between => exact segments_open List.not_mem_nil
  | inside start =>
    rw [segments_repeated, segments_open (zero_not_mem_part start)]
    rfl
  | frame _ ih =>
    rw [← List.singleton_append, segments_frame, ih]
    rfl

theorem Breaks.unfinished {payloads whole : List Bytes} {stream : Bytes}
    (breaks : Breaks payloads whole stream) :
    ∃ part, Deframer.unfinished (0 :: stream) = some part ∧
      (part = [] ∨ ∃ payload ∈ payloads, part <+: Cobs.encode payload) := by
  induction breaks with
  | between => exact ⟨[], rfl, .inl rfl⟩
  | @inside payload part payloads start =>
    refine ⟨part, ?_, .inr ⟨payload, List.mem_cons_self, start⟩⟩
    rw [unfinished_repeated, unfinished_open (zero_not_mem_part start)]
  | frame _ ih =>
    rw [← List.singleton_append, unfinished_frame]
    obtain ⟨part, same, start⟩ := ih
    refine ⟨part, same, start.imp_right ?_⟩
    rintro ⟨payload, member, start⟩
    exact ⟨payload, List.mem_cons_of_mem _ member, start⟩

theorem Breaks.overflow {payloads whole : List Bytes} {stream : Bytes} {limit : UInt64}
    (breaks : Breaks payloads whole stream)
    (fit : ∀ payload ∈ payloads, payload.length ≤ limit.toNat) :
    Deframer.overflow limit (0 :: stream) = [] := by
  obtain ⟨part, same, start⟩ := breaks.unfinished
  have short : part.length ≤ bound limit := by
    rcases start with rfl | ⟨payload, member, start⟩
    · exact Nat.zero_le _
    · have encoded := Nat.le_trans start.length_le (Cobs.length_encode_le payload)
      exact Nat.le_trans encoded (Cobs.encodedBound_mono (fit payload member))
  simp only [Deframer.overflow, same, Nat.not_lt.mpr short, ↓reduceIte]

/-- The delimiter of the first frame can as well stand there before. -/
theorem Breaks.alike {payloads whole : List Bytes} {stream : Bytes}
    (breaks : Breaks payloads whole stream) (limit : UInt64) :
    Deframer.segments stream = Deframer.segments (0 :: stream) ∧
      Deframer.overflow limit stream = Deframer.overflow limit (0 :: stream) := by
  have again : ∀ back, Deframer.segments (0 :: back) = Deframer.segments (0 :: 0 :: back) ∧
      Deframer.overflow limit (0 :: back) = Deframer.overflow limit (0 :: 0 :: back) := by
    intro back
    refine ⟨(segments_repeated back).symm, ?_⟩
    simp only [Deframer.overflow, unfinished_repeated]
  cases breaks with
  | between => exact ⟨rfl, rfl⟩
  | inside _ => exact again _
  | frame _ => exact again _

theorem deframes_frames {limit : UInt64} {payloads : List Bytes} {stream : Bytes}
    {events : List Event}
    (fit : ∀ payload ∈ payloads, payload.length ≤ limit.toNat)
    (start : stream <+: payloads.flatMap Cobs.frame) (deframes : Deframes limit stream events) :
    ∃ whole, whole <+: payloads ∧ events = whole.map .ok ∧
      ∀ other, other <+: payloads → other.flatMap Cobs.frame <+: stream → other <+: whole := by
  obtain ⟨whole, breaks⟩ := breaks_of_prefix start
  obtain ⟨cut, tail⟩ := breaks.alike limit
  obtain ⟨verdicts, each, same⟩ := deframes
  rw [cut, breaks.segments] at each
  rw [tail, breaks.overflow fit, List.append_nil] at same
  refine ⟨whole, breaks.start, ?_, fun other among came => breaks.most among came⟩
  rw [same]
  exact verdicts_encode_eq (fun payload member => fit payload (breaks.start.subset member)) each

/-- Frames that come in full, in whatever pieces, give their payloads and nothing else. -/
theorem run_whole {limit : UInt64} {payloads : List Bytes} {steps : List Step}
    (fit : ∀ payload ∈ payloads, payload.length ≤ limit.toNat)
    (sent : pushed steps = payloads.flatMap Cobs.frame) :
    (({ limit } : Deframer).run steps).1 = payloads.map .ok := by
  have deframes : Deframes limit (pushed steps) (({ limit } : Deframer).run steps).1 :=
    (run_reads { limit } steps).1
  rw [sent] at deframes
  obtain ⟨whole, among, same, most⟩ := deframes_frames fit List.prefix_rfl deframes
  have all := most payloads List.prefix_rfl List.prefix_rfl
  rw [same, among.eq_of_length_le all.length_le]

end TaskMonitor.Deframer
