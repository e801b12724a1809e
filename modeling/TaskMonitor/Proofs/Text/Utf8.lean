import TaskMonitor.Text.Utf8

/-! Reading back what is written: the bytes of scalar values give the same scalar values. -/

set_option autoImplicit false

namespace TaskMonitor.Utf8

@[simp] theorem encode_nil : encode [] = [] := rfl

@[simp] theorem encode_cons (c : Char) (text : List Char) :
    encode (c :: text) = String.utf8EncodeChar c ++ encode text := List.flatMap_cons

@[simp] theorem encode_append (first second : List Char) :
    encode (first ++ second) = encode first ++ encode second := List.flatMap_append

theorem toNat_valid (c : Char) : c.toNat < 0xD800 ∨ 0xDFFF < c.toNat ∧ c.toNat < 0x110000 := c.valid

theorem byte_toNat {n : Nat} (small : n < 256) : (UInt8.ofNat n).toNat = n :=
  UInt8.toNat_ofNat_of_lt' small

theorem lt_byte {n : Nat} (small : n < 256) (limit : Byte) :
    UInt8.ofNat n < limit ↔ n < limit.toNat := by
  rw [UInt8.lt_iff_toNat_lt, byte_toNat small]

theorem tail?_byte {n : Nat} (small : n < 0x40) : tail? (UInt8.ofNat (n + 0x80)) = some n := by
  have fits : n + 0x80 < 256 := by omega
  rw [tail?, if_pos, byte_toNat fits, Nat.add_sub_cancel]
  rw [UInt8.le_iff_toNat_le, lt_byte fits, byte_toNat fits]
  simp only [UInt8.reduceToNat]
  omega

theorem scalar?_toNat {least : Nat} {c : Char} (enough : least ≤ c.toNat) :
    scalar? least c.toNat = some c := by
  have valid : c.toNat.isValidChar := c.valid
  rw [scalar?, if_pos ⟨enough, valid⟩, Char.ofNat_toNat]

theorem next?_one {c : Char} (small : c.toNat < 0x80) (rest : Bytes) :
    next? (UInt8.ofNat c.toNat) rest = some (c, rest) := by
  have fits : c.toNat < 256 := by omega
  simp only [next?, lt_byte fits, byte_toNat fits, UInt8.reduceToNat, small, ↓reduceIte,
    Char.ofNat_toNat]

theorem next?_two {c : Char} {a b : Nat} (first : a < 0x20) (second : b < 0x40)
    (whole : a * 0x40 + b = c.toNat) (least : 0x80 ≤ c.toNat) (rest : Bytes) :
    next? (UInt8.ofNat (a + 0xC0)) (UInt8.ofNat (b + 0x80) :: rest) = some (c, rest) := by
  have fits : a + 0xC0 < 256 := by omega
  have apart : ¬ a + 0xC0 < 0x80 ∧ ¬ a + 0xC0 < 0xC0 ∧ a + 0xC0 < 0xE0 := by omega
  simp only [next?, lt_byte fits, byte_toNat fits, UInt8.reduceToNat, apart, ↓reduceIte,
    tail?_byte second, Nat.add_sub_cancel, whole, scalar?_toNat least, Option.bind_eq_bind,
    Option.bind_some, Option.pure_def]

theorem next?_three {c : Char} {a b d : Nat} (first : a < 0x10) (second : b < 0x40)
    (third : d < 0x40) (whole : (a * 0x40 + b) * 0x40 + d = c.toNat) (least : 0x800 ≤ c.toNat)
    (rest : Bytes) :
    next? (UInt8.ofNat (a + 0xE0)) (UInt8.ofNat (b + 0x80) :: UInt8.ofNat (d + 0x80) :: rest) =
      some (c, rest) := by
  have fits : a + 0xE0 < 256 := by omega
  have apart : ¬ a + 0xE0 < 0x80 ∧ ¬ a + 0xE0 < 0xC0 ∧ ¬ a + 0xE0 < 0xE0 ∧ a + 0xE0 < 0xF0 := by
    omega
  simp only [next?, lt_byte fits, byte_toNat fits, UInt8.reduceToNat, apart, ↓reduceIte,
    tail?_byte second, tail?_byte third, Nat.add_sub_cancel, whole, scalar?_toNat least,
    Option.bind_eq_bind, Option.bind_some, Option.pure_def]

theorem next?_four {c : Char} {a b d e : Nat} (first : a < 0x08) (second : b < 0x40)
    (third : d < 0x40) (fourth : e < 0x40)
    (whole : ((a * 0x40 + b) * 0x40 + d) * 0x40 + e = c.toNat) (least : 0x10000 ≤ c.toNat)
    (rest : Bytes) :
    next? (UInt8.ofNat (a + 0xF0)) (UInt8.ofNat (b + 0x80) :: UInt8.ofNat (d + 0x80) ::
      UInt8.ofNat (e + 0x80) :: rest) = some (c, rest) := by
  have fits : a + 0xF0 < 256 := by omega
  have apart : ¬ a + 0xF0 < 0x80 ∧ ¬ a + 0xF0 < 0xC0 ∧ ¬ a + 0xF0 < 0xE0 ∧ ¬ a + 0xF0 < 0xF0 ∧
      a + 0xF0 < 0xF8 := by omega
  simp only [next?, lt_byte fits, byte_toNat fits, UInt8.reduceToNat, apart, ↓reduceIte,
    tail?_byte second, tail?_byte third, tail?_byte fourth, Nat.add_sub_cancel, whole,
    scalar?_toNat least, Option.bind_eq_bind, Option.bind_some, Option.pure_def]

theorem next?_encodeChar (c : Char) :
    ∃ first more, String.utf8EncodeChar c = first :: more ∧
      ∀ rest, next? first (more ++ rest) = some (c, rest) := by
  have valid := toNat_valid c
  unfold String.utf8EncodeChar
  change ∃ first more, (if c.toNat ≤ 0x7F then _ else if c.toNat ≤ 0x7FF then _
    else if c.toNat ≤ 0xFFFF then _ else _) = _ ∧ _
  split
  · exact ⟨_, _, rfl, next?_one (by omega)⟩
  split
  · exact ⟨_, _, rfl, next?_two (c := c) (Nat.mod_lt _ (by decide)) (Nat.mod_lt _ (by decide))
      (by simp only [Char.toNat] at *; omega) (by omega)⟩
  split
  · exact ⟨_, _, rfl, next?_three (c := c) (Nat.mod_lt _ (by decide)) (Nat.mod_lt _ (by decide))
      (Nat.mod_lt _ (by decide)) (by simp only [Char.toNat] at *; omega) (by omega)⟩
  · exact ⟨_, _, rfl, next?_four (c := c) (Nat.mod_lt _ (by decide)) (Nat.mod_lt _ (by decide))
      (Nat.mod_lt _ (by decide)) (Nat.mod_lt _ (by decide))
      (by simp only [Char.toNat] at *; omega) (by omega)⟩

theorem decodeOnto_encode (seen text : List Char) :
    decodeOnto seen (encode text) = some (seen.reverse ++ text) := by
  induction text generalizing seen with
  | nil => simp [decodeOnto]
  | cons c text ih =>
    obtain ⟨first, more, bytes, found⟩ := next?_encodeChar c
    rw [encode_cons, bytes, List.cons_append, decodeOnto]
    split
    · next none => cases (found _).symm.trans none
    · next same =>
      cases (found _).symm.trans same
      rw [ih, List.reverse_cons, List.append_assoc, List.singleton_append]

theorem decode?_encode (text : List Char) : decode? (encode text) = some text :=
  decodeOnto_encode [] text

theorem encodeChar_one {c : Char} (small : c.toNat < 0x80) :
    String.utf8EncodeChar c = [UInt8.ofNat c.toNat] :=
  if_pos (Nat.le_of_lt_succ small)

theorem encodeChar_cases (c : Char) :
    c.toNat < 0x80 ∧ String.utf8EncodeChar c = [UInt8.ofNat c.toNat] ∨
      0x80 ≤ c.toNat ∧ ∀ byte ∈ String.utf8EncodeChar c, 0x80 ≤ byte := by
  have valid := toNat_valid c
  unfold String.utf8EncodeChar
  change _ ∧ (if c.toNat ≤ 0x7F then _ else if c.toNat ≤ 0x7FF then _
    else if c.toNat ≤ 0xFFFF then _ else _) = _ ∨ _ ∧ ∀ byte ∈ (if c.toNat ≤ 0x7F then _ else
      if c.toNat ≤ 0x7FF then _ else if c.toNat ≤ 0xFFFF then _ else _), _
  split
  · exact .inl ⟨by omega, rfl⟩
  · refine .inr ⟨by omega, ?_⟩
    have high : ∀ n, 0x80 ≤ n → n < 256 → (0x80 : Byte) ≤ UInt8.ofNat n := fun n enough fits => by
      rw [UInt8.le_iff_toNat_le, byte_toNat fits]
      exact enough
    split
    · simp only [List.forall_mem_cons, List.not_mem_nil, false_imp_iff, implies_true, and_true]
      exact ⟨high _ (by omega) (by omega), high _ (by omega) (by omega)⟩
    · split
      · simp only [List.forall_mem_cons, List.not_mem_nil, false_imp_iff, implies_true, and_true]
        exact ⟨high _ (by omega) (by omega), high _ (by omega) (by omega),
          high _ (by omega) (by omega)⟩
      · simp only [List.forall_mem_cons, List.not_mem_nil, false_imp_iff, implies_true, and_true]
        exact ⟨high _ (by omega) (by omega), high _ (by omega) (by omega),
          high _ (by omega) (by omega), high _ (by omega) (by omega)⟩

end TaskMonitor.Utf8
