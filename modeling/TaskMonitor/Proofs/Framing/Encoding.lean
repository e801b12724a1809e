import TaskMonitor.Framing.Writer
import TaskMonitor.Proofs.Framing.Blocks

/-! What encoding gives: bytes without a zero, within the announced bound, that decode to the
payload. Writing them in one pass never goes out of range. -/

set_option autoImplicit false

namespace TaskMonitor.Cobs

/-- Bytes that are fit to carry a payload between two delimiters. The bound on their number is
met where the payload has no zero byte. -/
structure Codeword (payload encoded : Bytes) : Prop where
  decodes : decode encoded = .ok payload
  nonzero : 0 ∉ encoded
  longer : payload.length + 1 ≤ encoded.length
  bounded : ∃ most, maxEncodedLength? (.ofNat payload.length) = some most ∧
    encoded.length ≤ most.toNat ∧ (0 ∉ payload → encoded.length = most.toNat)

/-- Without zero bytes only full blocks end before the payload does. -/
theorem length_encodeRun {run : Bytes} (data : Bytes) (room : run.length < fullRun)
    (nonzero : 0 ∉ data) :
    (encodeRun run data).length = encodedBound (run.length + data.length) := by
  -- On the cases of the encoder. Only a filled run ends before the data does.
  fun_induction encodeRun run data with
  | case1 run =>
    simp only [fullRun] at room
    simp only [length_block, List.length_nil, encodedBound, fullRun]
    omega
  | case2 run rest ih => exact absurd List.mem_cons_self nonzero
  | case3 run byte rest _ filled ih =>
    have later := ih (by decide) (fun among => nonzero (List.mem_cons_of_mem _ among))
    simp only [fullRun] at filled
    simp only [List.length_append, length_block, later, List.length_cons, List.length_nil,
      encodedBound, fullRun]
    omega
  | case4 run byte rest _ open' ih =>
    have shorter : (run ++ [byte]).length < fullRun := by
      rw [List.length_append, List.length_singleton]
      omega
    have same : (run ++ [byte]).length + rest.length = run.length + (byte :: rest).length := by
      rw [List.length_append, List.length_singleton, List.length_cons]
      omega
    rw [ih shorter (fun among => nonzero (List.mem_cons_of_mem _ among)), same]

theorem length_encode {data : Bytes} (nonzero : 0 ∉ data) :
    (encode data).length = encodedBound data.length := by
  have whole := @length_encodeRun [] data (by decide) nonzero
  rwa [List.length_nil, Nat.zero_add] at whole

theorem zero_at_frame (data : Bytes) (place : Nat) :
    (frame data)[place]? = some 0 ↔ place = 0 ∨ place + 1 = (frame data).length := by
  cases place with
  | zero => simp [frame]
  | succ place =>
    have inner : (frame data)[place + 1]? = (encode data ++ [0])[place]? := rfl
    have length : (frame data).length = (encode data).length + 2 := by simp [frame]
    rw [inner, length]
    rcases Nat.lt_trichotomy place (encode data).length with before | rfl | after
    · rw [List.getElem?_append_left before]
      constructor
      · intro zero
        exact absurd (List.mem_of_getElem? zero) (zero_not_mem_encode data)
      · omega
    · simp
    · have outside : (encode data ++ [0]).length ≤ place := by
        rw [List.length_append]
        exact after
      rw [List.getElem?_eq_none outside]
      constructor
      · intro none
        cases none
      · omega

/-! ## Writing in one pass -/

namespace Writer

/-- The writer after the blocks `done`, with the bytes `run` in the open block. -/
def holding (done run : Bytes) : Writer :=
  { out := done ++ 0 :: run, gap := done.length, code := .ofNat (run.length + 1) }

theorem fill_holding (done run : Bytes) : (holding done run).fill? = some (done ++ block run) := by
  have inside : (holding done run).gap < (holding done run).out.length := by simp [holding]
  rw [fill?, if_pos inside]
  simp [holding, block]

theorem close_holding (done run : Bytes) :
    (holding done run).close? = some (holding (done ++ block run) []) := by
  rw [close?, fill_holding]
  rfl

theorem put_holding {run : Bytes} (valid : Run run) (done : Bytes) (byte : Byte)
    (room : run.length < fullRun) :
    (holding done run).put? byte = some (holding done (run ++ [byte])) := by
  have fits : (holding done run).code.toNat + 1 < UInt8.size := by
    simp only [fullRun] at room
    simp only [holding, valid.code_toNat, UInt8.size]
    omega
  rw [put?, if_pos fits]
  simp [holding]

theorem write_zero (done run : Bytes) :
    (holding done run).write? 0 = some (holding (done ++ block run) []) := by
  rw [write?, if_pos rfl, close_holding]

theorem write_nonzero {run : Bytes} {byte : Byte} (valid : Run run) (done : Bytes)
    (nonzero : byte ≠ 0) (room : run.length < fullRun) :
    (holding done run).write? byte =
      if run.length + 1 = fullRun then some (holding (done ++ block (run ++ [byte])) [])
      else some (holding done (run ++ [byte])) := by
  have full := (valid.snoc nonzero room).code_eq_full
  rw [write?, if_neg nonzero, put_holding valid done byte room, Option.bind_eq_bind,
    Option.bind_some, close_holding]
  rw [List.length_append, List.length_singleton] at full
  by_cases filled : run.length + 1 = fullRun
  · rw [if_pos filled, if_pos]
    simpa [holding] using full.mpr filled
  · rw [if_neg filled, if_neg]
    · rfl
    · simpa [holding] using fun code => filled (full.mp code)

theorem foldlM_write {writer next : Writer} {byte : Byte} (found : writer.write? byte = some next)
    (rest : Bytes) :
    ((byte :: rest).foldlM write? writer >>= fill?) = (rest.foldlM write? next >>= fill?) := by
  rw [List.foldlM_cons, found]
  rfl

/-- What the writer makes of the bytes to come, whatever it has put down before. -/
theorem foldlM_holding {run : Bytes} (valid : Run run) (done data : Bytes)
    (room : run.length < fullRun) :
    (data.foldlM write? (holding done run) >>= fill?) = some (done ++ encodeRun run data) := by
  -- On the cases of the encoder: the writer holds the run that the encoder carries.
  fun_induction encodeRun run data generalizing done with
  | case1 run => exact fill_holding done run
  | case2 run rest ih =>
    rw [foldlM_write (write_zero done run), ih .empty _ (by decide), List.append_assoc]
  | case3 run byte rest nonzero filled ih =>
    have step := write_nonzero valid done nonzero room
    rw [if_pos filled] at step
    rw [foldlM_write step, ih .empty _ (by decide), List.append_assoc]
  | case4 run byte rest nonzero filled ih =>
    have shorter : (run ++ [byte]).length < fullRun := by
      rw [List.length_append, List.length_singleton]
      omega
    have step := write_nonzero valid done nonzero room
    rw [if_neg filled] at step
    rw [foldlM_write step, ih (valid.snoc nonzero room) _ shorter]

end Writer

theorem encodeInPlace?_eq (data : Bytes) : encodeInPlace? data = some (encode data) :=
  Writer.foldlM_holding .empty [] data (by decide)

/-! ## The code -/

theorem codeword_encode {data : Bytes} (fits : data.length ≤ mostLength) :
    Codeword data (encode data) where
  decodes := decode_encode data
  nonzero := zero_not_mem_encode data
  longer := (blocks_encode data).length_lt (encode_ne_nil data)
  bounded := by
    obtain ⟨most, found, same⟩ := exists_maxEncodedLength fits
    exact ⟨most, found, same ▸ length_encode_le data, fun nonzero => same ▸ length_encode nonzero⟩

/-- Encoding gives a codeword, framing adds the only two zero bytes, at both ends, and writing
in one pass, which counts in a byte and fills in at an index, comes to the same codeword. -/
theorem encode_delimits (data : Bytes) (fits : data.length ≤ mostLength) :
    Codeword data (encode data) ∧
      (∀ place, (frame data)[place]? = some 0 ↔ place = 0 ∨ place + 1 = (frame data).length) ∧
      encodeInPlace? data = some (encode data) :=
  ⟨codeword_encode fits, zero_at_frame data, encodeInPlace?_eq data⟩

/-- A full block at the end, which is where a code byte of its own follows. -/
theorem encode_delimits_full_block :
    (List.replicate fullRun (7 : Byte)).length ≤ mostLength ∧
      Codeword (List.replicate fullRun 7) (encode (List.replicate fullRun 7)) ∧
      (∀ place, (frame (List.replicate fullRun 7))[place]? = some 0 ↔
        place = 0 ∨ place + 1 = (frame (List.replicate fullRun 7)).length) ∧
      encodeInPlace? (List.replicate fullRun 7) = some (encode (List.replicate fullRun 7)) := by
  have fits : (List.replicate fullRun (7 : Byte)).length ≤ mostLength := by
    rw [List.length_replicate]
    decide
  exact ⟨fits, encode_delimits (List.replicate fullRun 7) fits⟩

example : encode [0x11, 0x22, 0, 0x33] = [3, 0x11, 0x22, 2, 0x33] := by decide

end TaskMonitor.Cobs
