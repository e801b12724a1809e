import Mathlib.Data.List.Forall2
import TaskMonitor.Proofs.Framing.Blocks
import TaskMonitor.Proofs.Framing.Segments

/-! Deframing as a function of the stream. However the bytes arrive and however often the
deframer is asked in between, its results are those of the segments of the stream, one for
each, and what it keeps is the end of the stream. -/

set_option autoImplicit false

namespace TaskMonitor.Deframer

abbrev Event := Except FrameError Bytes

/-- The most that a limit from a settings file can be. -/
def mostLimit : Nat := 0x7FFFFFFFFFFFFFFF

/-- The longest segment that is kept while no delimiter ends it. -/
def bound (limit : UInt64) : Nat := Cobs.encodedBound limit.toNat

def Fits (limit : UInt64) : Prop := bound limit < UInt64.size

/-- The result that a segment may have. Only a segment beyond the bound leaves a choice. -/
inductive Verdict (limit : UInt64) (segment : Bytes) : Event → Prop where
  | delivered {payload : Bytes} : Cobs.decode segment = .ok payload →
      payload.length ≤ limit.toNat → Verdict limit segment (.ok payload)
  | oversize {payload : Bytes} : Cobs.decode segment = .ok payload →
      limit.toNat < payload.length → Verdict limit segment (.error (.tooLarge limit.toNat))
  | broken {fault : FrameError} : Cobs.decode segment = .error fault →
      Verdict limit segment (.error fault)
  | overlong {fault : FrameError} : Cobs.decode segment = .error fault →
      bound limit < segment.length → Verdict limit segment (.error (.tooLarge limit.toNat))

/-- The result of the bytes after the last delimiter, once they are too many. -/
def overflow (limit : UInt64) (stream : Bytes) : List Event :=
  match unfinished stream with
  | some tail => if bound limit < tail.length then [.error (.tooLarge limit.toNat)] else []
  | none => []

/-- The results of a whole stream, one for each segment. -/
def Deframes (limit : UInt64) (stream : Bytes) (events : List Event) : Prop :=
  ∃ verdicts, List.Forall₂ (Verdict limit) (segments stream) verdicts ∧
    events = verdicts ++ overflow limit stream

/-- The deframer that has given all results of a stream. -/
def settled (limit : UInt64) (stream : Bytes) : Deframer :=
  match unfinished stream with
  | some tail =>
    if bound limit < tail.length then { limit } else { limit, inStep := true, buffer := tail }
  | none => { limit }

/-- All results that the bytes so far give. -/
def drain (deframer : Deframer) : List Event × Deframer :=
  match _found : deframer.next with
  | (none, left) => ([], left)
  | (some event, left) => (event :: left.drain.1, left.drain.2)
termination_by deframer.buffer.length
decreasing_by all_goals exact next_length _found

inductive Step where
  | push (bytes : Bytes)
  | next
  deriving DecidableEq, Repr

def pushed : List Step → Bytes
  | [] => []
  | .push bytes :: steps => bytes ++ pushed steps
  | .next :: steps => pushed steps

/-- The results of all steps, and of asking on until there are no more. -/
def run (deframer : Deframer) : List Step → List Event × Deframer
  | [] => deframer.drain
  | .push bytes :: steps => (deframer.push bytes).run steps
  | .next :: steps =>
    (deframer.next.1.toList ++ (deframer.next.2.run steps).1, (deframer.next.2.run steps).2)

/-- The stream that a deframer still has to cut. In step, it has just seen a delimiter. -/
def backlog (deframer : Deframer) : Bytes :=
  if deframer.inStep then 0 :: deframer.buffer else deframer.buffer

@[simp] theorem limit_push (deframer : Deframer) (bytes : Bytes) :
    (deframer.push bytes).limit = deframer.limit := rfl

@[simp] theorem backlog_push (deframer : Deframer) (bytes : Bytes) :
    (deframer.push bytes).backlog = deframer.backlog ++ bytes := by
  cases step : deframer.inStep <;> simp [backlog, push, step]

theorem drain_of_none {deframer left : Deframer} (found : deframer.next = (none, left)) :
    deframer.drain = ([], left) := by
  rw [drain]
  split
  · next same => cases found.symm.trans same; rfl
  · next same => cases found.symm.trans same

theorem drain_of_some {deframer left : Deframer} {event : Event}
    (found : deframer.next = (some event, left)) :
    deframer.drain = (event :: left.drain.1, left.drain.2) := by
  rw [drain]
  split
  · next same => cases found.symm.trans same
  · next same => cases found.symm.trans same; rfl

/-! ## One look for a frame -/

def Idle (deframer : Deframer) : Prop :=
  0 ∉ deframer.buffer ∧
    if deframer.inStep then deframer.buffer.length ≤ bound deframer.limit
    else deframer.buffer = []

/-- All that a look for a frame can do: find nothing and drop what has no meaning, take one
segment, or give up bytes beyond the bound. -/
inductive Look (deframer : Deframer) : Option Event × Deframer → Prop where
  | nothing {left : Deframer} : left.limit = deframer.limit → left.Idle →
      Alike deframer.backlog left.backlog → Look deframer (none, left)
  | segment {left : Deframer} {segment rest : Bytes} : left.limit = deframer.limit →
      0 ∉ segment → segment ≠ [] → left.backlog = 0 :: rest →
      Alike deframer.backlog (0 :: segment ++ 0 :: rest) →
      Look deframer (some (payload deframer.limit segment), left)
  | overflow {tail : Bytes} : 0 ∉ tail → bound deframer.limit < tail.length →
      Alike deframer.backlog (0 :: tail) →
      Look deframer (some (.error (.tooLarge deframer.limit.toNat)), deframer.reset)

theorem delimiter_cases (bytes : Bytes) :
    0 ∉ bytes ∨ ∃ front rest, 0 ∉ front ∧ bytes = front ++ 0 :: rest := by
  by_cases member : (0 : Byte) ∈ bytes
  · obtain ⟨front, rest, same, clear⟩ := List.eq_append_cons_of_mem member
    exact .inr ⟨front, rest, clear, same⟩
  · exact .inl member

theorem all_nonzero {bytes : Bytes} (clear : 0 ∉ bytes) : ∀ byte ∈ bytes, decide (byte ≠ 0) := by
  intro byte member
  exact decide_eq_true fun zero => clear (zero ▸ member)

theorem dropWhile_clear {bytes : Bytes} (clear : 0 ∉ bytes) : bytes.dropWhile (· ≠ 0) = [] := by
  rw [← List.append_nil bytes, List.dropWhile_append_of_pos (all_nonzero clear)]
  rfl

theorem dropWhile_front {front : Bytes} (clear : 0 ∉ front) (rest : Bytes) :
    (front ++ 0 :: rest).dropWhile (· ≠ 0) = 0 :: rest := by
  rw [List.dropWhile_append_of_pos (all_nonzero clear)]
  rfl

theorem takeWhile_front {front : Bytes} (clear : 0 ∉ front) (rest : Bytes) :
    (front ++ 0 :: rest).takeWhile (· ≠ 0) = front := by
  rw [List.takeWhile_append_of_pos (all_nonzero clear)]
  exact List.append_nil front

theorem dropWhile_solid {bytes : Bytes} (solid : 0 ∉ bytes.head?) :
    bytes.dropWhile (· = 0) = bytes := by
  cases bytes with
  | nil => rfl
  | cons byte rest =>
    have nonzero : byte ≠ 0 := fun zero => solid (zero ▸ rfl)
    exact List.dropWhile_cons_of_neg (by simpa using nonzero)

theorem head_clear {bytes : Bytes} (clear : 0 ∉ bytes) : 0 ∉ bytes.head? :=
  fun head => clear (List.mem_of_head? head)

/-- Getting in step drops nothing that has a meaning. -/
theorem align_spec (deframer : Deframer) :
    deframer.align.limit = deframer.limit ∧ Alike deframer.backlog deframer.align.backlog ∧
      (deframer.align.inStep = false → deframer.align.buffer = []) := by
  unfold align
  split
  · next step => exact ⟨rfl, .refl _, fun out => by simp [step] at out⟩
  · next step =>
    have plain : deframer.backlog = deframer.buffer := by simp [backlog, step]
    rcases delimiter_cases deframer.buffer with clear | ⟨front, rest, clear, whole⟩
    · rw [dropWhile_clear clear]
      exact ⟨rfl, by simpa [plain, backlog, step] using Alike.skip clear, fun _ => rfl⟩
    · rw [whole, dropWhile_front clear]
      refine ⟨rfl, ?_, fun out => by simp at out⟩
      rw [plain, whole]
      exact .start clear rest

theorem next_spec (deframer : Deframer) : Look deframer deframer.next := by
  obtain ⟨limit, aligned, empty⟩ := deframer.align_spec
  -- In step, a further delimiter decides whether there is a segment; out of step there is none.
  simp only [next]
  split
  · next step =>
    generalize shape : deframer.align.buffer.dropWhile (· = 0) = bytes
    have alike : Alike deframer.backlog (0 :: bytes) := by
      refine aligned.trans ?_
      rw [← shape]
      simpa [backlog, step] using Alike.dropWhile deframer.align.buffer
    rcases delimiter_cases bytes with clear | ⟨front, rest, clear, rfl⟩
    · simp only [dropWhile_clear clear]
      split
      · next large => exact .overflow clear large alike
      · next small =>
        refine .nothing limit ⟨clear, ?_⟩ (by simpa [backlog, step] using alike)
        simpa [step, limit, bound] using small
    · simp only [dropWhile_front clear, takeWhile_front clear]
      refine .segment limit clear ?_ (by simp [backlog, step]) alike
      -- Bytes that start with a delimiter would have been dropped.
      intro none
      have head := List.head?_dropWhile_not (· = 0) deframer.align.buffer
      simp [shape, none] at head
  · next step =>
    have out : deframer.align.inStep = false := by simpa using step
    exact .nothing limit ⟨by simp [empty out], by simp [out, empty out]⟩ aligned

/-! ## Verdicts -/

theorem verdict_payload (limit : UInt64) (segment : Bytes) :
    Verdict limit segment (payload limit segment) := by
  unfold payload
  cases found : Cobs.decode segment with
  | error fault => exact .broken found
  | ok bytes =>
    change Verdict limit segment (if limit.toNat < bytes.length then _ else _)
    split
    · next large => exact .oversize found large
    · next small => exact .delivered found (Nat.le_of_not_lt small)

/-- Giving up early loses nothing: a segment beyond the bound holds no payload within the limit. -/
theorem verdict_tooLarge {limit : UInt64} {segment : Bytes}
    (large : bound limit < segment.length) :
    Verdict limit segment (.error (.tooLarge limit.toNat)) := by
  cases found : Cobs.decode segment with
  | error fault => exact .overlong found large
  | ok bytes =>
    have length := (Cobs.decode_eq_ok_iff.mp found).length_le
    refine .oversize found (Nat.not_le.mp fun fits => ?_)
    exact absurd large (Nat.not_lt.mpr (Nat.le_trans length (Cobs.encodedBound_mono fits)))

/-! ## Runs -/

/-- The results that a stream leads to, and the deframer after them. -/
def Reads (limit : UInt64) (stream : Bytes) (result : List Event × Deframer) : Prop :=
  Deframes limit stream result.1 ∧ result.2 = settled limit stream

theorem Reads.of_same {limit : UInt64} {first second : Bytes} {result : List Event × Deframer}
    (cut : segments first = segments second) (tail : unfinished first = unfinished second)
    (reads : Reads limit second result) : Reads limit first result := by
  simp only [Reads, Deframes, overflow, settled, cut, tail] at reads ⊢
  exact reads

theorem Reads.of_alike {limit : UInt64} {first second : Bytes} {result : List Event × Deframer}
    (alike : Alike first second) {more : Bytes} (reads : Reads limit (second ++ more) result) :
    Reads limit (first ++ more) result :=
  reads.of_same (alike.segments more) (alike.unfinished more)

theorem Reads.cons {limit : UInt64} {segment rest : Bytes} {event : Event}
    {result : List Event × Deframer} (clear : 0 ∉ segment) (some : segment ≠ [])
    (verdict : Verdict limit segment event) (reads : Reads limit (0 :: rest) result) :
    Reads limit (0 :: segment ++ 0 :: rest) (event :: result.1, result.2) := by
  have tail : unfinished (0 :: segment ++ 0 :: rest) = unfinished (0 :: rest) :=
    unfinished_cut (0 :: segment) rest
  obtain ⟨⟨verdicts, each, same⟩, last⟩ := reads
  refine ⟨⟨event :: verdicts, ?_, ?_⟩, ?_⟩
  · rw [segments_cons clear some]
    exact .cons verdict each
  · simp only [overflow, tail, same]
    rfl
  · simpa only [settled, tail] using last

/-- Giving up the bytes `tail` is reported once, whatever becomes of the segment they start. -/
theorem Reads.overflow {limit : UInt64} {tail more : Bytes} {result : List Event × Deframer}
    (clear : 0 ∉ tail) (large : bound limit < tail.length) (reads : Reads limit more result) :
    Reads limit (0 :: tail ++ more) (.error (.tooLarge limit.toNat) :: result.1, result.2) := by
  -- The delimiter that ends the segment comes later or not at all. In step no more, the deframer
  -- passes over the bytes up to it without a further result.
  rcases delimiter_cases more with ends | ⟨front, back, nothing, rfl⟩
  · have open' : 0 ∉ tail ++ more := by simp [clear, ends]
    have larger : bound limit < (tail ++ more).length := by
      simp only [List.length_append]
      omega
    obtain ⟨⟨verdicts, each, same⟩, last⟩ := reads
    rw [segments_of_not_mem ends] at each
    cases each
    simp only [Deframer.overflow, settled, unfinished_of_not_mem ends] at same last
    refine ⟨⟨[], ?_, ?_⟩, ?_⟩
    · rw [List.cons_append, segments_open open']
      exact .nil
    · simp only [Deframer.overflow, List.cons_append, unfinished_open open', if_pos larger, same]
      rfl
    · simp only [settled, List.cons_append, unfinished_open open', if_pos larger, last]
  · have whole : 0 :: tail ++ (front ++ 0 :: back) = 0 :: (tail ++ front) ++ 0 :: back := by simp
    have clear' : 0 ∉ tail ++ front := by simp [clear, nothing]
    have some : tail ++ front ≠ [] := by
      intro none
      simp only [List.append_eq_nil_iff] at none
      simp [none.1] at large
    rw [whole]
    refine .cons clear' some (verdict_tooLarge ?_) (reads.of_same ?_ ?_)
    · simp only [List.length_append]
      omega
    · rw [segments_cut, segments_before nothing, List.nil_append]
    · rw [unfinished_cut]

theorem Look.reads {deframer left : Deframer} {found : Option Event} {more : Bytes}
    {result : List Event × Deframer} (look : Look deframer (found, left))
    (reads : Reads deframer.limit (left.backlog ++ more) result) :
    Reads deframer.limit (deframer.backlog ++ more) (found.toList ++ result.1, result.2) := by
  cases look with
  | nothing limit idle alike => exact .of_alike alike reads
  | segment limit clear some backlog alike =>
    rw [backlog, List.cons_append] at reads
    apply Reads.of_alike alike
    simpa using Reads.cons clear some (verdict_payload _ _) reads
  | overflow clear large alike =>
    apply Reads.of_alike alike
    exact .overflow clear large reads

theorem idle_of_next {earlier deframer : Deframer} (found : earlier.next = (none, deframer)) :
    deframer.Idle := by
  have look := earlier.next_spec
  rw [found] at look
  cases look with
  | nothing limit idle alike => exact idle

theorem Idle.next {deframer : Deframer} (idle : deframer.Idle) :
    deframer.next = (none, deframer) := by
  obtain ⟨clear, kept⟩ := idle
  obtain ⟨limit, inStep, buffer⟩ := deframer
  cases inStep with
  | true =>
    have all : buffer.dropWhile (· = 0) = buffer := dropWhile_solid (head_clear clear)
    simp only [↓reduceIte, bound] at kept clear
    simp only [Deframer.next, align, ↓reduceIte, all, dropWhile_clear clear, Nat.not_lt.mpr kept]
  | false =>
    simp only [Bool.false_eq_true, ↓reduceIte] at kept
    subst kept
    rfl

theorem limit_of_next {deframer left : Deframer} {found : Option Event}
    (next : deframer.next = (found, left)) : left.limit = deframer.limit := by
  have look := deframer.next_spec
  rw [next] at look
  cases look with
  | nothing limit => exact limit
  | segment limit => exact limit
  | overflow => rfl

theorem Idle.reads {deframer : Deframer} (idle : deframer.Idle) :
    Reads deframer.limit deframer.backlog ([], deframer) := by
  obtain ⟨clear, kept⟩ := idle
  obtain ⟨limit, inStep, buffer⟩ := deframer
  cases inStep with
  | true =>
    simp only [↓reduceIte] at clear kept
    refine ⟨⟨[], ?_, ?_⟩, ?_⟩
    · exact segments_open clear ▸ .nil
    · simp [overflow, backlog, unfinished_open clear, Nat.not_lt.mpr kept]
    · simp [settled, backlog, unfinished_open clear, Nat.not_lt.mpr kept]
  | false =>
    simp only [Bool.false_eq_true, ↓reduceIte] at kept
    subst kept
    exact ⟨⟨[], .nil, rfl⟩, rfl⟩

/-- Asking until there are no more results accounts for the difference between two streams. -/
theorem drain_spec (deframer : Deframer) :
    deframer.drain.2.limit = deframer.limit ∧ deframer.drain.2.Idle ∧
      ∀ {more : Bytes} {result : List Event × Deframer},
        Reads deframer.limit (deframer.drain.2.backlog ++ more) result →
          Reads deframer.limit (deframer.backlog ++ more)
            (deframer.drain.1 ++ result.1, result.2) := by
  -- On the results: a look accounts for its own segment, the others for the rest.
  fun_induction drain deframer with
  | case1 deframer left found =>
    have look := deframer.next_spec
    rw [found] at look
    cases look with
    | nothing limit idle alike => exact ⟨limit, idle, fun reads => .of_alike alike reads⟩
  | case2 deframer event left found ih =>
    have look := deframer.next_spec
    have limit := limit_of_next found
    rw [found] at look
    obtain ⟨same, idle, later⟩ := ih
    rw [limit] at same later
    exact ⟨same, idle, fun reads => look.reads (later reads)⟩

theorem drain_reads (deframer : Deframer) :
    Reads deframer.limit deframer.backlog deframer.drain := by
  obtain ⟨limit, idle, later⟩ := deframer.drain_spec
  have reads := idle.reads
  rw [limit, ← List.append_nil deframer.drain.2.backlog] at reads
  simpa using later reads

/-- However a stream is pushed and however often the deframer is asked, the results are those
of the bytes it had and those that came. -/
theorem run_reads (deframer : Deframer) (steps : List Step) :
    Reads deframer.limit (deframer.backlog ++ pushed steps) (deframer.run steps) := by
  -- On the steps: a push moves bytes from the stream to the backlog, a look is a `Look`.
  induction steps generalizing deframer with
  | nil =>
    rw [pushed, List.append_nil]
    exact deframer.drain_reads
  | cons step steps ih =>
    cases step with
    | push bytes =>
      have moved : deframer.backlog ++ pushed (.push bytes :: steps) =
          (deframer.push bytes).backlog ++ pushed steps := by simp [pushed]
      rw [moved]
      exact ih (deframer.push bytes)
    | next =>
      have limit : deframer.next.2.limit = deframer.limit := limit_of_next rfl
      have reads := ih deframer.next.2
      rw [limit] at reads
      exact deframer.next_spec.reads reads

/-! ## Where the program stops -/

theorem next?_of_fits {deframer : Deframer} (fits : Fits deframer.limit) :
    deframer.next? = some deframer.next := by
  have most := Cobs.maxEncodedLength?_eq_none_iff.not.mpr (Nat.not_le.mpr fits)
  have present : (Cobs.maxEncodedLength? deframer.limit).isNone = false :=
    Option.isNone_eq_false_iff.mpr (Option.isSome_iff_ne_none.mpr most)
  simp only [next?, present, Bool.and_false, Bool.false_eq_true, ↓reduceIte]

def NeverStops (limit : UInt64) : Prop :=
  ∀ deframer : Deframer, deframer.limit = limit → deframer.next? = some deframer.next

theorem Fits.neverStops {limit : UInt64} (fits : Fits limit) : NeverStops limit :=
  fun _ same => next?_of_fits (same ▸ fits)

theorem fits_of_allowed {limit : UInt64} (allowed : limit.toNat ≤ mostLimit) : Fits limit :=
  Nat.lt_of_le_of_lt (Cobs.encodedBound_mono allowed) (by decide)

/-- The results are those of the segments of the stream, and the deframer keeps the end of the
stream, however the stream came in pieces. After a reset it starts over with the bytes to come. No
look stops the program. -/
theorem run_deframes (limit : UInt64) (steps : List Step) (allowed : limit.toNat ≤ mostLimit) :
    Deframes limit (pushed steps) (({ limit } : Deframer).run steps).1 ∧
      (({ limit } : Deframer).run steps).2 = settled limit (pushed steps) ∧
      (∀ worn : Deframer, worn.limit = limit →
        worn.reset.run steps = ({ limit } : Deframer).run steps) ∧
      NeverStops limit := by
  obtain ⟨deframes, kept⟩ := run_reads { limit } steps
  refine ⟨deframes, kept, ?_, (fits_of_allowed allowed).neverStops⟩
  intro worn same
  rw [reset, same]

/-- A segment that is given up before its end has come, and a frame after it. -/
theorem run_deframes_overlong :
    (4 : UInt64).toNat ≤ mostLimit ∧
      Deframes 4 [0, 9, 1, 2, 3, 4, 5, 6, 7, 8, 0, 2, 5, 0]
        (({ limit := 4 } : Deframer).run
          [.push [0, 9, 1, 2, 3, 4], .next, .push [5, 6, 7], .next, .push [8, 0, 2, 5, 0]]).1 :=
  ⟨by decide, (run_deframes 4
    [.push [0, 9, 1, 2, 3, 4], .next, .push [5, 6, 7], .next, .push [8, 0, 2, 5, 0]]
    (by decide)).1⟩

end TaskMonitor.Deframer
