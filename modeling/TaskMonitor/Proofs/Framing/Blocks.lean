import TaskMonitor.Framing.Cobs

/-! The blocks of an encoded payload as a grammar. Decoding accepts exactly the sequences of
blocks, encoding gives one of them, and the number of code bytes is bounded by the length of
the payload. -/

set_option autoImplicit false

namespace TaskMonitor.Cobs

structure Run (run : Bytes) : Prop where
  nonzero : 0 ∉ run
  short : run.length ≤ fullRun

/-- A sequence of blocks and the payload it stands for. Only a block that is neither full nor
the last one implies a zero. -/
inductive Blocks : Bytes → Bytes → Prop where
  | none : Blocks [] []
  | last {run : Bytes} : Run run → Blocks (block run) run
  | full {run encoded payload : Bytes} : Run run → run.length = fullRun → encoded ≠ [] →
      Blocks encoded payload → Blocks (block run ++ encoded) (run ++ payload)
  | short {run encoded payload : Bytes} : Run run → run.length < fullRun → encoded ≠ [] →
      Blocks encoded payload → Blocks (block run ++ encoded) (run ++ 0 :: payload)

theorem Run.empty : Run [] := ⟨List.not_mem_nil, Nat.zero_le _⟩

theorem Run.snoc {run : Bytes} {byte : Byte} (valid : Run run) (nonzero : byte ≠ 0)
    (room : run.length < fullRun) : Run (run ++ [byte]) where
  nonzero := by simp [valid.nonzero, nonzero.symm]
  short := by simpa using Nat.succ_le_of_lt room

theorem Run.code_toNat {run : Bytes} (valid : Run run) :
    (UInt8.ofNat (run.length + 1)).toNat = run.length + 1 := by
  have short := valid.short
  simp only [fullRun] at short
  simp only [UInt8.toNat_ofNat']
  omega

theorem Run.code_ne_zero {run : Bytes} (valid : Run run) :
    UInt8.ofNat (run.length + 1) ≠ 0 := by
  intro same
  have code := valid.code_toNat
  rw [same] at code
  simp at code

theorem Run.code_eq_full {run : Bytes} (valid : Run run) :
    UInt8.ofNat (run.length + 1) = 0xFF ↔ run.length = fullRun := by
  rw [← UInt8.toNat_inj, valid.code_toNat]
  simp [fullRun]

@[simp] theorem block_ne_nil (run : Bytes) : block run ≠ [] := by simp [block]

@[simp] theorem length_block (run : Bytes) : (block run).length = run.length + 1 := by
  simp [block]

theorem Run.zero_not_mem_block {run : Bytes} (valid : Run run) : 0 ∉ block run := by
  simp only [block, List.mem_cons, not_or]
  exact ⟨valid.code_ne_zero.symm, valid.nonzero⟩

/-! ## Encoding gives blocks -/

theorem encodeRun_ne_nil (run data : Bytes) : encodeRun run data ≠ [] := by
  fun_induction encodeRun run data with
  | case1 => simp
  | case2 => simp
  | case3 => simp
  | case4 run byte rest nonzero room ih => exact ih

theorem blocks_encodeRun {run : Bytes} (data : Bytes) (valid : Run run)
    (room : run.length < fullRun) : Blocks (encodeRun run data) (run ++ data) := by
  fun_induction encodeRun run data with
  | case1 run => simpa using Blocks.last valid
  | case2 run rest ih =>
    -- The zero that ends the run is the one that its block implies.
    exact .short valid room (encodeRun_ne_nil _ _) (ih .empty (by decide))
  | case3 run byte rest nonzero filled ih =>
    -- The byte fills the run, and a full block implies no zero.
    have next := Blocks.full (valid.snoc nonzero room) (by simpa using filled)
      (encodeRun_ne_nil [] rest) (ih .empty (by decide))
    simpa using next
  | case4 run byte rest nonzero filled ih =>
    have shorter : (run ++ [byte]).length < fullRun := by
      rw [List.length_append, List.length_singleton]
      omega
    have next := ih (valid.snoc nonzero room) shorter
    simpa using next

theorem blocks_encode (data : Bytes) : Blocks (encode data) data :=
  blocks_encodeRun data .empty (by decide)

/-! ## What blocks are -/

theorem Blocks.zero_not_mem {encoded payload : Bytes} (blocks : Blocks encoded payload) :
    0 ∉ encoded := by
  induction blocks with
  | none => simp
  | last valid => exact valid.zero_not_mem_block
  | full valid _ _ _ ih => simp [valid.zero_not_mem_block, ih]
  | short valid _ _ _ ih => simp [valid.zero_not_mem_block, ih]

theorem Blocks.length_le {encoded payload : Bytes} (blocks : Blocks encoded payload) :
    encoded.length ≤ encodedBound payload.length := by
  induction blocks with
  | none => exact Nat.zero_le _
  | last valid =>
    simp only [length_block, encodedBound, fullRun]
    omega
  | full valid filled _ _ ih =>
    simp only [List.length_append, length_block, filled, encodedBound, fullRun] at ih ⊢
    omega
  | short valid _ _ _ ih =>
    simp only [List.length_append, length_block, List.length_cons, encodedBound, fullRun] at ih ⊢
    omega

theorem Blocks.length_lt {encoded payload : Bytes} (blocks : Blocks encoded payload)
    (some : encoded ≠ []) : payload.length < encoded.length := by
  induction blocks with
  | none => exact absurd rfl some
  | last => simp
  | full _ _ more _ ih =>
    have later := ih more
    simp only [List.length_append, length_block]
    omega
  | short _ _ more _ ih =>
    have later := ih more
    simp only [List.length_append, length_block, List.length_cons]
    omega

theorem encode_ne_nil (data : Bytes) : encode data ≠ [] := encodeRun_ne_nil [] data

theorem zero_not_mem_encode (data : Bytes) : 0 ∉ encode data := (blocks_encode data).zero_not_mem

theorem length_encode_le (data : Bytes) : (encode data).length ≤ encodedBound data.length :=
  (blocks_encode data).length_le

theorem encodedBound_mono {first second : Nat} (le : first ≤ second) :
    encodedBound first ≤ encodedBound second :=
  Nat.succ_le_succ (Nat.add_le_add le (Nat.div_le_div_right le))

/-! ## The bound in 64-bit arithmetic -/

theorem checkedSum_eq_some_iff {first second sum : UInt64} :
    checkedSum first second = some sum ↔ sum.toNat = first.toNat + second.toNat := by
  have one := first.toNat_lt
  have two := second.toNat_lt
  have total := sum.toNat_lt
  simp only [checkedSum, UInt64.lt_iff_toNat_lt, UInt64.toNat_add]
  split
  · simp only [reduceCtorEq, false_iff]
    omega
  · simp only [Option.some.injEq, ← UInt64.toNat_inj, UInt64.toNat_add]
    omega

/-- Where there is a sum it is the exact one. -/
theorem maxEncodedLength?_eq_some_iff {length most : UInt64} :
    maxEncodedLength? length = some most ↔ most.toNat = encodedBound length.toNat := by
  simp only [maxEncodedLength?, bind, Option.bind_eq_some_iff, checkedSum_eq_some_iff,
    UInt64.toNat_div, encodedBound, fullRun]
  constructor
  · rintro ⟨part, first, last⟩
    rw [last, first]
    rfl
  · intro whole
    -- The sum without the last byte is smaller, so it fits as well.
    have part : (UInt64.ofNat (length.toNat + length.toNat / 254)).toNat =
        length.toNat + length.toNat / 254 := by
      have fits := most.toNat_lt
      refine UInt64.toNat_ofNat_of_lt' ?_
      simp only [UInt64.size]
      omega
    exact ⟨_, part, by rw [whole, part]; rfl⟩

theorem maxEncodedLength?_eq_none_iff {length : UInt64} :
    maxEncodedLength? length = none ↔ UInt64.size ≤ encodedBound length.toNat := by
  constructor
  · intro stops
    refine Nat.not_lt.mp fun fits => ?_
    have found := maxEncodedLength?_eq_some_iff.mpr (UInt64.toNat_ofNat_of_lt' fits)
    cases stops.symm.trans found
  · intro large
    refine Option.eq_none_iff_forall_ne_some.mpr fun most found => ?_
    have same := maxEncodedLength?_eq_some_iff.mp found
    exact absurd most.toNat_lt (Nat.not_lt.mpr (same ▸ large))

/-- No bytes in memory are more than these. -/
def mostLength : Nat := 0x7FFFFFFFFFFFFFFF

theorem exists_maxEncodedLength {length : Nat} (fits : length ≤ mostLength) :
    ∃ most, maxEncodedLength? (.ofNat length) = some most ∧ most.toNat = encodedBound length := by
  have word : (UInt64.ofNat length).toNat = length :=
    UInt64.toNat_ofNat_of_lt' (Nat.lt_of_le_of_lt fits (by decide))
  have small : encodedBound length < UInt64.size :=
    Nat.lt_of_le_of_lt (encodedBound_mono fits) (by decide)
  have same := UInt64.toNat_ofNat_of_lt' small
  exact ⟨.ofNat (encodedBound length), maxEncodedLength?_eq_some_iff.mpr (word.symm ▸ same), same⟩

/-! ## Decoding accepts blocks and nothing else -/

theorem decodeFrom_block {run : Bytes} (offset : Nat) (left : Bytes) (valid : Run run) :
    decodeFrom offset (block run ++ left) =
      (decodeFrom (offset + (run.length + 1)) left).map fun payload =>
        run ++ if run.length = fullRun ∨ left = [] then payload else 0 :: payload := by
  have clear : run.findIdx? (· = 0) = none := by
    simp only [List.findIdx?_eq_none_iff, decide_eq_false_iff_not]
    intro byte member zero
    exact valid.nonzero (zero ▸ member)
  rw [block, List.cons_append, decodeFrom]
  simp only [valid.code_ne_zero, valid.code_toNat, valid.code_eq_full, Nat.add_sub_cancel,
    List.take_left, List.drop_left, Nat.lt_irrefl, ↓reduceIte, clear]
  rfl

theorem decodeFrom_of_blocks {encoded payload : Bytes} (blocks : Blocks encoded payload)
    (offset : Nat) : decodeFrom offset encoded = .ok payload := by
  induction blocks generalizing offset with
  | none => rw [decodeFrom]
  | @last run valid =>
    have one := decodeFrom_block offset [] valid
    rw [List.append_nil, decodeFrom] at one
    simpa [Except.map] using one
  | full valid filled _ _ ih =>
    rw [decodeFrom_block _ _ valid, ih]
    simp [Except.map, filled]
  | short valid room more _ ih =>
    rw [decodeFrom_block _ _ valid, ih]
    simp [Except.map, Nat.ne_of_lt room, more]

theorem split_at_zero {bytes : Bytes} {place : Nat} (found : bytes.findIdx? (· = 0) = some place) :
    ∃ run left, 0 ∉ run ∧ run.length = place ∧ bytes = run ++ 0 :: left := by
  obtain ⟨inside, hit, before⟩ := List.findIdx?_eq_some_iff_getElem.mp found
  simp only [decide_eq_true_eq] at hit
  refine ⟨bytes.take place, bytes.drop (place + 1), ?_,
    List.length_take_of_le (Nat.le_of_lt inside), ?_⟩
  · intro member
    obtain ⟨index, small, same⟩ := List.mem_take_iff_getElem.mp member
    simpa [same] using before index (by omega)
  · rw [← hit, List.getElem_cons_drop, List.take_append_drop]

/-- What stands in front of the bytes to decode: a zero byte, a block that is cut off, a block
with a zero byte in it, or a block as encoding gives it. -/
theorem decodeFrom_cases (offset : Nat) (code : Byte) (rest : Bytes) :
    (code = 0 ∧ decodeFrom offset (code :: rest) = .error (.unexpectedZero offset)) ∨
    (code ≠ 0 ∧ rest.length + 1 < code.toNat ∧
      decodeFrom offset (code :: rest) = .error (.truncated offset)) ∨
    (∃ run left, code ≠ 0 ∧ 0 ∉ run ∧ rest = run ++ 0 :: left ∧
      decodeFrom offset (code :: rest) = .error (.unexpectedZero (offset + 1 + run.length))) ∨
    ∃ run left, Run run ∧ code :: rest = block run ++ left := by
  rw [decodeFrom]
  by_cases zero : code = 0
  · exact .inl ⟨zero, if_pos zero⟩
  · have positive : code.toNat ≠ 0 := fun same => zero (UInt8.toNat_inj.mp same)
    have below := code.toNat_lt
    have taken : (rest.take (code.toNat - 1)).length = min (code.toNat - 1) rest.length :=
      List.length_take
    rw [if_neg zero]
    simp only
    by_cases cut : (rest.take (code.toNat - 1)).length < code.toNat - 1
    · exact .inr (.inl ⟨zero, by omega, if_pos cut⟩)
    · rw [if_neg cut]
      right; right
      cases found : (rest.take (code.toNat - 1)).findIdx? (· = 0) with
      | some place =>
        left
        obtain ⟨run, left, nonzero, length, same⟩ := split_at_zero found
        refine ⟨run, left ++ rest.drop (code.toNat - 1), zero, nonzero, ?_, by rw [length]⟩
        rw [← List.cons_append, ← List.append_assoc, ← same, List.take_append_drop]
      | none =>
        right
        have length : (rest.take (code.toNat - 1)).length = code.toNat - 1 := by omega
        refine ⟨rest.take (code.toNat - 1), rest.drop (code.toNat - 1), ⟨?_, ?_⟩, ?_⟩
        · intro member
          simp only [List.findIdx?_eq_none_iff, decide_eq_false_iff_not] at found
          exact found 0 member rfl
        · simp only [length, fullRun]
          omega
        · rw [block, length, Nat.sub_add_cancel (Nat.pos_of_ne_zero positive), UInt8.ofNat_toNat,
            List.cons_append, List.take_append_drop]

theorem block_of_decodeFrom {offset : Nat} {code : Byte} {rest payload : Bytes}
    (ok : decodeFrom offset (code :: rest) = .ok payload) :
    ∃ run left, Run run ∧ code :: rest = block run ++ left := by
  obtain ⟨_, failed⟩ | ⟨_, _, failed⟩ | ⟨_, _, _, _, _, failed⟩ | found :=
    decodeFrom_cases offset code rest
  · cases failed.symm.trans ok
  · cases failed.symm.trans ok
  · cases failed.symm.trans ok
  · exact found

theorem blocks_of_decodeFrom {offset : Nat} {encoded payload : Bytes}
    (ok : decodeFrom offset encoded = .ok payload) : Blocks encoded payload := by
  -- On the length, since a whole block goes in one step; the offset only names faults.
  induction size : encoded.length using Nat.strongRecOn generalizing offset encoded payload with
  | _ size ih =>
    cases encoded with
    | nil =>
      rw [decodeFrom] at ok
      cases ok
      exact .none
    | cons code rest =>
      obtain ⟨run, left, valid, same⟩ := block_of_decodeFrom ok
      rw [same] at ok size ⊢
      rw [decodeFrom_block _ _ valid] at ok
      cases tail : decodeFrom (offset + (run.length + 1)) left with
      | error fault => simp [tail, Except.map] at ok
      | ok later =>
        simp only [tail, Except.map, Except.ok.injEq] at ok
        have blocks := ih left.length (by
          simp only [List.length_append, length_block] at size
          omega) tail rfl
        -- Which rule applies is what decides whether a zero is put after the run.
        by_cases done : left = []
        · subst done
          rw [decodeFrom] at tail
          cases tail
          simp only [or_true, ↓reduceIte, List.append_nil] at ok
          simpa [← ok] using Blocks.last valid
        · by_cases filled : run.length = fullRun
          · simp only [filled, true_or, ↓reduceIte] at ok
            exact ok ▸ .full valid filled done blocks
          · simp only [filled, done, or_false, ↓reduceIte] at ok
            exact ok ▸ .short valid (Nat.lt_of_le_of_ne valid.short filled) done blocks

theorem decode_eq_ok_iff {encoded payload : Bytes} :
    decode encoded = .ok payload ↔ Blocks encoded payload :=
  ⟨blocks_of_decodeFrom, fun blocks => decodeFrom_of_blocks blocks 0⟩

theorem decode_encode (data : Bytes) : decode (encode data) = .ok data :=
  decode_eq_ok_iff.mpr (blocks_encode data)

end TaskMonitor.Cobs
