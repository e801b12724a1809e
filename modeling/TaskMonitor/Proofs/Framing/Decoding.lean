import TaskMonitor.Proofs.Framing.Blocks

/-! What decoding accepts: the bytes without a zero that split into blocks. Encoding the payload
again gives the same bytes, but for a code byte of its own that may end them. Other bytes are
refused at the first place where they go wrong. -/

set_option autoImplicit false

namespace TaskMonitor.Cobs

def IsBlock (bytes : Bytes) : Prop := ∃ code run, bytes = code :: run ∧ bytes.length = code.toNat

/-- Blocks that make up the bytes. Here a block may hold zeros. -/
structure Splits (encoded : Bytes) (blocks : List Bytes) : Prop where
  each : ∀ bytes ∈ blocks, IsBlock bytes
  whole : blocks.flatten = encoded

/-- No bytes at all, or such as have a full block at their end. -/
def EndsFull (encoded : Bytes) : Prop :=
  encoded = [] ∨ ∃ blocks run, Splits encoded (blocks ++ [0xFF :: run])

/-! ## Splitting into blocks -/

theorem IsBlock.ne_nil {bytes : Bytes} (is : IsBlock bytes) : bytes ≠ [] := by
  obtain ⟨code, run, rfl, _⟩ := is
  exact List.cons_ne_nil _ _

theorem IsBlock.append_inj {first second left right : Bytes} (one : IsBlock first)
    (other : IsBlock second) (same : first ++ left = second ++ right) :
    first = second ∧ left = right := by
  obtain ⟨code, run, rfl, length⟩ := one
  obtain ⟨code', run', rfl, length'⟩ := other
  have codes : code = code' := by
    rw [List.cons_append, List.cons_append] at same
    exact (List.cons.inj same).1
  exact List.append_inj same (by rw [length, length', codes])

theorem isBlock_block {run : Bytes} (valid : Run run) : IsBlock (block run) :=
  ⟨_, run, rfl, by rw [length_block, valid.code_toNat]⟩

theorem IsBlock.eq_block {bytes : Bytes} (is : IsBlock bytes) (nonzero : 0 ∉ bytes) :
    ∃ run, Run run ∧ bytes = block run := by
  obtain ⟨code, run, rfl, length⟩ := is
  have below := code.toNat_lt
  rw [List.length_cons] at length
  refine ⟨run, ⟨fun member => nonzero (List.mem_cons_of_mem _ member), ?_⟩, ?_⟩
  · simp only [fullRun]
    omega
  · rw [block, length, UInt8.ofNat_toNat]

theorem Splits.nil : Splits [] [] := ⟨by simp, rfl⟩

theorem Splits.cons {front encoded : Bytes} {blocks : List Bytes} (first : IsBlock front)
    (splits : Splits encoded blocks) : Splits (front ++ encoded) (front :: blocks) where
  each := by
    intro bytes member
    rcases List.mem_cons.mp member with rfl | later
    · exact first
    · exact splits.each bytes later
  whole := by rw [List.flatten_cons, splits.whole]

theorem Splits.snoc {front back : Bytes} {blocks : List Bytes} (splits : Splits front blocks)
    (last : IsBlock back) : Splits (front ++ back) (blocks ++ [back]) where
  each := by
    intro bytes member
    rcases List.mem_append.mp member with before | same
    · exact splits.each bytes before
    · rw [List.mem_singleton.mp same]
      exact last
  whole := by rw [List.flatten_append, splits.whole, List.flatten_singleton]

theorem Splits.eq_nil {blocks : List Bytes} (splits : Splits [] blocks) : blocks = [] := by
  cases blocks with
  | nil => rfl
  | cons first blocks =>
    have none := (List.append_eq_nil_iff.mp splits.whole).1
    exact absurd none (splits.each first List.mem_cons_self).ne_nil

theorem Splits.of_append {front encoded : Bytes} {blocks : List Bytes} (first : IsBlock front)
    (splits : Splits (front ++ encoded) blocks) :
    ∃ more, blocks = front :: more ∧ Splits encoded more := by
  cases blocks with
  | nil =>
    have none := (List.append_eq_nil_iff.mp splits.whole.symm).1
    exact absurd none first.ne_nil
  | cons bytes more =>
    obtain ⟨rfl, rest⟩ := (splits.each bytes List.mem_cons_self).append_inj first splits.whole
    exact ⟨more, rfl, fun other member => splits.each other (List.mem_cons_of_mem _ member), rest⟩

theorem Blocks.splits {encoded payload : Bytes} (blocks : Blocks encoded payload) :
    ∃ parts, Splits encoded parts := by
  induction blocks with
  | none => exact ⟨[], .nil⟩
  | @last run valid =>
    refine ⟨[block run], ?_⟩
    simpa using Splits.cons (isBlock_block valid) .nil
  | full valid _ _ _ ih =>
    obtain ⟨parts, splits⟩ := ih
    exact ⟨_, .cons (isBlock_block valid) splits⟩
  | short valid _ _ _ ih =>
    obtain ⟨parts, splits⟩ := ih
    exact ⟨_, .cons (isBlock_block valid) splits⟩

theorem Splits.blocks {encoded : Bytes} {parts : List Bytes} (splits : Splits encoded parts)
    (nonzero : 0 ∉ encoded) : ∃ payload, Blocks encoded payload := by
  -- On the parts: each is one block, and its kind depends on what comes after it.
  induction parts generalizing encoded with
  | nil =>
    rw [← splits.whole]
    exact ⟨[], .none⟩
  | cons bytes parts ih =>
    have whole := splits.whole
    rw [List.flatten_cons] at whole
    subst whole
    rw [List.mem_append, not_or] at nonzero
    obtain ⟨run, valid, rfl⟩ := (splits.each bytes List.mem_cons_self).eq_block nonzero.1
    obtain ⟨payload, blocks⟩ := ih
      ⟨fun other member => splits.each other (List.mem_cons_of_mem _ member), rfl⟩ nonzero.2
    by_cases done : parts.flatten = []
    · rw [done, List.append_nil]
      exact ⟨run, .last valid⟩
    · rcases Nat.lt_or_eq_of_le valid.short with room | filled
      · exact ⟨_, .short valid room done blocks⟩
      · exact ⟨_, .full valid filled done blocks⟩

theorem decode_ok_iff_splits (encoded : Bytes) :
    (∃ payload, decode encoded = .ok payload) ↔ 0 ∉ encoded ∧ ∃ parts, Splits encoded parts := by
  constructor
  · rintro ⟨payload, ok⟩
    have blocks := decode_eq_ok_iff.mp ok
    exact ⟨blocks.zero_not_mem, blocks.splits⟩
  · rintro ⟨nonzero, parts, splits⟩
    obtain ⟨payload, blocks⟩ := splits.blocks nonzero
    exact ⟨payload, decode_eq_ok_iff.mpr blocks⟩

/-! ## Encoding again -/

theorem endsFull_append {front encoded : Bytes} (first : IsBlock front) (more : encoded ≠ []) :
    EndsFull (front ++ encoded) ↔ EndsFull encoded := by
  constructor
  · rintro (none | ⟨blocks, run, splits⟩)
    · exact absurd (List.append_eq_nil_iff.mp none).1 first.ne_nil
    · obtain ⟨later, same, rest⟩ := splits.of_append first
      cases blocks with
      | nil =>
        obtain ⟨rfl, rfl⟩ := List.cons.inj same
        exact absurd rest.whole.symm more
      | cons bytes blocks =>
        obtain ⟨rfl, rfl⟩ := List.cons.inj same
        exact .inr ⟨blocks, run, rest⟩
  · rintro (none | ⟨blocks, run, splits⟩)
    · exact absurd none more
    · exact .inr ⟨front :: blocks, run, splits.cons first⟩

theorem endsFull_block {run : Bytes} (valid : Run run) :
    EndsFull (block run) ↔ run.length = fullRun := by
  rw [← valid.code_eq_full]
  constructor
  · rintro (none | ⟨blocks, last, splits⟩)
    · exact absurd none (block_ne_nil run)
    · rw [← List.append_nil (block run)] at splits
      obtain ⟨later, same, rest⟩ := splits.of_append (isBlock_block valid)
      rw [rest.eq_nil] at same
      cases blocks with
      | nil => exact (List.cons.inj (List.cons.inj same).1).1.symm
      | cons bytes blocks => simp at same
  · intro full
    refine .inr ⟨[], run, ?_⟩
    have one := Splits.cons (isBlock_block valid) .nil
    rw [List.append_nil, block, full] at one
    rwa [block, full]

theorem encodeRun_append {front run : Bytes} (nonzero : 0 ∉ run)
    (room : front.length + run.length < fullRun) (data : Bytes) :
    encodeRun front (run ++ data) = encodeRun (front ++ run) data := by
  induction run generalizing front with
  | nil => rw [List.nil_append, List.append_nil]
  | cons byte run ih =>
    rw [List.length_cons] at room
    have open' : front.length + 1 ≠ fullRun := by omega
    have byteNonzero : byte ≠ 0 := fun same => nonzero (same ▸ List.mem_cons_self)
    rw [List.cons_append, encodeRun, if_neg byteNonzero, if_neg open',
      ih (fun among => nonzero (List.mem_cons_of_mem _ among)), List.append_assoc,
      List.singleton_append]
    rw [List.length_append, List.length_singleton]
    omega

theorem encode_short {run : Bytes} (valid : Run run) (room : run.length < fullRun)
    (data : Bytes) : encode (run ++ 0 :: data) = block run ++ encode data := by
  rw [encode, encodeRun_append valid.nonzero (by simpa using room), List.nil_append, encodeRun,
    if_pos rfl]
  rfl

theorem encode_last {run : Bytes} (valid : Run run) (room : run.length < fullRun) :
    encode run = block run := by
  have whole := @encodeRun_append [] run valid.nonzero (by simpa using room) []
  rw [List.append_nil, List.nil_append] at whole
  rw [encode, whole, encodeRun]

theorem encode_full {run : Bytes} (valid : Run run) (filled : run.length = fullRun)
    (data : Bytes) : encode (run ++ data) = block run ++ encode data := by
  rcases List.eq_nil_or_concat run with rfl | ⟨front, last, same⟩
  · cases filled
  · rw [List.concat_eq_append] at same
    subst same
    have nonzero := valid.nonzero
    rw [List.length_append, List.length_singleton] at filled
    rw [List.mem_append, List.mem_singleton, not_or] at nonzero
    have room : ([] : Bytes).length + front.length < fullRun := by
      rw [List.length_nil]
      omega
    rw [List.append_assoc, encode, encodeRun_append nonzero.1 room, List.nil_append,
      List.singleton_append, encodeRun, if_neg fun same => nonzero.2 same.symm, if_pos filled]
    rfl

/-- What encoding the payload of some bytes again makes of them. -/
theorem Blocks.encode_eq {encoded payload : Bytes} (blocks : Blocks encoded payload) :
    EndsFull encoded ∧ encode payload = encoded ++ [1] ∨
      ¬ EndsFull encoded ∧ encode payload = encoded := by
  -- Only the last block decides: the alternative passes through every block before it.
  induction blocks with
  | none => exact .inl ⟨.inl rfl, rfl⟩
  | @last run valid =>
    rw [endsFull_block valid]
    rcases Nat.lt_or_eq_of_le valid.short with room | filled
    · exact .inr ⟨Nat.ne_of_lt room, encode_last valid room⟩
    · have again := encode_full valid filled []
      rw [List.append_nil] at again
      exact .inl ⟨filled, again⟩
  | @full run encoded payload valid filled more _ ih =>
    rw [endsFull_append (isBlock_block valid) more, encode_full valid filled]
    rcases ih with ⟨ends, again⟩ | ⟨ends, again⟩
    · exact .inl ⟨ends, by rw [again, List.append_assoc]⟩
    · exact .inr ⟨ends, by rw [again]⟩
  | @short run encoded payload valid room more _ ih =>
    rw [endsFull_append (isBlock_block valid) more, encode_short valid room]
    rcases ih with ⟨ends, again⟩ | ⟨ends, again⟩
    · exact .inl ⟨ends, by rw [again, List.append_assoc]⟩
    · exact .inr ⟨ends, by rw [again]⟩

/-! ## Refusing -/

/-- The place that a fault names: the first zero byte, or the start of a block that announces
more bytes than there are, with no zero up to there. -/
def Locates (encoded : Bytes) : FrameError → Prop
  | .unexpectedZero offset => encoded[offset]? = some 0 ∧ 0 ∉ encoded.take offset
  | .truncated offset =>
    (∃ blocks, Splits (encoded.take offset) blocks) ∧ 0 ∉ encoded.take (offset + 1) ∧
      ∃ code, encoded[offset]? = some code ∧ encoded.length < offset + code.toNat
  | .tooLarge _ => False

theorem locates_zero {front : Bytes} (nonzero : 0 ∉ front) (rest : Bytes) :
    Locates (front ++ 0 :: rest) (.unexpectedZero front.length) := by
  constructor
  · simp
  · rwa [List.take_left]

theorem locates_cut {front : Bytes} {blocks : List Bytes} {code : Byte} {rest : Bytes}
    (splits : Splits front blocks) (nonzero : 0 ∉ front ++ [code])
    (cut : rest.length + 1 < code.toNat) :
    Locates (front ++ code :: rest) (.truncated front.length) := by
  refine ⟨⟨blocks, ?_⟩, ?_, code, ?_, ?_⟩
  · rwa [List.take_left]
  · rwa [List.append_cons, List.take_left' (by simp)]
  · simp
  · rw [List.length_append, List.length_cons]
    omega

theorem decodeFrom_error {front encoded : Bytes} {blocks : List Bytes} {fault : FrameError}
    (splits : Splits front blocks) (nonzero : 0 ∉ front)
    (failed : decodeFrom front.length encoded = .error fault) :
    Locates (front ++ encoded) fault := by
  -- A good block moves from `encoded` to `front`, so the offset stays the length of `front`.
  induction size : encoded.length using Nat.strongRecOn generalizing front encoded blocks with
  | _ count ih =>
    cases encoded with
    | nil =>
      rw [decodeFrom] at failed
      cases failed
    | cons code rest =>
      obtain ⟨rfl, found⟩ | ⟨solid, cut, found⟩ | ⟨run, left, solid, clear, rfl, found⟩ |
        ⟨run, left, valid, same⟩ := decodeFrom_cases front.length code rest
      · cases failed.symm.trans found
        exact locates_zero nonzero rest
      · cases failed.symm.trans found
        exact locates_cut splits (by simp [nonzero, solid.symm]) cut
      · cases failed.symm.trans found
        have nothing : 0 ∉ front ++ code :: run := by simp [nonzero, solid.symm, clear]
        have zero := locates_zero nothing left
        rw [List.length_append, List.length_cons, List.append_assoc, List.cons_append] at zero
        rwa [Nat.add_right_comm, Nat.add_assoc]
      · rw [same] at failed size ⊢
        rw [decodeFrom_block _ _ valid] at failed
        cases tail : decodeFrom (front.length + (run.length + 1)) left with
        | ok later => simp [tail, Except.map] at failed
        | error later =>
          simp only [tail, Except.map, Except.error.injEq] at failed
          subst failed
          rw [← length_block, ← List.length_append] at tail
          have shorter : left.length < count := by
            simp only [List.length_append, length_block] at size
            omega
          rw [← List.append_assoc]
          refine ih left.length shorter (splits.snoc (isBlock_block valid)) ?_ tail rfl
          simp [nonzero, valid.zero_not_mem_block]

/-! ## The code -/

/-- How bytes stand to the payload that they decode to: encoding it again gives them back, or
them with a code byte of its own at the end, so no other bytes but for that one decode to it. -/
structure Canonical (encoded payload : Bytes) : Prop where
  again : EndsFull encoded ∧ encode payload = encoded ++ [1] ∨
    ¬ EndsFull encoded ∧ encode payload = encoded
  bounded : ∃ most, maxEncodedLength? (.ofNat payload.length) = some most ∧
    encoded.length ≤ most.toNat
  only : ∀ other, decode other = .ok payload →
    other = encoded ∨ other = encoded ++ [1] ∨ other ++ [1] = encoded

theorem canonical_of_decode {encoded payload : Bytes} (fits : encoded.length ≤ mostLength)
    (ok : decode encoded = .ok payload) : Canonical encoded payload := by
  have blocks := decode_eq_ok_iff.mp ok
  have again := blocks.encode_eq
  refine ⟨again, ?_, ?_⟩
  · have shorter : payload.length ≤ encoded.length := by
      by_cases none : encoded = []
      · subst none
        cases (decodeFrom_of_blocks blocks 0).symm.trans (by rw [decodeFrom])
        exact Nat.le_refl _
      · exact Nat.le_of_lt (blocks.length_lt none)
    obtain ⟨most, found, same⟩ := exists_maxEncodedLength (Nat.le_trans shorter fits)
    exact ⟨most, found, same ▸ blocks.length_le⟩
  · intro other same
    have others := (decode_eq_ok_iff.mp same).encode_eq
    rcases again with ⟨_, one⟩ | ⟨_, one⟩ <;> rcases others with ⟨_, two⟩ | ⟨_, two⟩
    · exact .inl (List.append_cancel_right (two.symm.trans one))
    · exact .inr (.inl (two.symm.trans one))
    · exact .inr (.inr (two.symm.trans one))
    · exact .inl (two.symm.trans one)

/-- Decoding accepts the bytes without a zero that split into blocks, each payload in at most
two forms, and says of others where they go wrong. -/
theorem decode_accepts_blocks (encoded : Bytes) (fits : encoded.length ≤ mostLength) :
    ((∃ payload, decode encoded = .ok payload) ↔
      0 ∉ encoded ∧ ∃ blocks, Splits encoded blocks) ∧
    (∀ payload, decode encoded = .ok payload → Canonical encoded payload) ∧
    ∀ fault, decode encoded = .error fault → Locates encoded fault := by
  refine ⟨decode_ok_iff_splits encoded, ?_, ?_⟩
  · intro payload ok
    exact canonical_of_decode fits ok
  · intro fault failed
    exact decodeFrom_error .nil List.not_mem_nil failed

/-- A block that is cut off and holds a zero byte as well: it is the cut that is named. -/
theorem decode_accepts_blocks_cut_at_zero :
    ([2, 5, 4, 0] : Bytes).length ≤ mostLength ∧
      decode [2, 5, 4, 0] = .error (.truncated 2) ∧ Locates [2, 5, 4, 0] (.truncated 2) := by
  have fits : ([2, 5, 4, 0] : Bytes).length ≤ mostLength := by decide
  have failed : decode [2, 5, 4, 0] = .error (.truncated 2) := by
    simp [decode, decodeFrom, Functor.map, Except.map]
  exact ⟨fits, failed, (decode_accepts_blocks [2, 5, 4, 0] fits).2.2 _ failed⟩

end TaskMonitor.Cobs
