import TaskMonitor.Json.Quoted
import TaskMonitor.Proofs.Text.Utf8

/-! Quoted text is read back as it was, whatever characters are in it. -/

set_option autoImplicit false

namespace TaskMonitor.Json

open Utf8 (encode_nil encode_cons encode_append encodeChar_cases encodeChar_one byte_toNat)

def Plain (byte : Byte) : Prop := byte ≠ Token.quote ∧ byte ≠ Token.backslash ∧ ¬ byte < 0x20

theorem quotedOnto_quote (seen rest : Bytes) :
    quotedOnto seen (Token.quote :: rest) = .ok (seen.reverse, rest) := by
  rw [quotedOnto, if_pos rfl]

theorem quotedOnto_plain {bytes : Bytes} (plain : ∀ byte ∈ bytes, Plain byte)
    (seen rest : Bytes) :
    quotedOnto seen (bytes ++ rest) = quotedOnto (bytes.reverse ++ seen) rest := by
  induction bytes generalizing seen with
  | nil => rfl
  | cons byte bytes ih =>
    obtain ⟨noQuote, noSlash, high⟩ := plain byte List.mem_cons_self
    rw [List.cons_append, quotedOnto, if_neg noQuote, if_neg noSlash, if_neg high,
      ih (fun other member => plain other (List.mem_cons_of_mem _ member)),
      List.reverse_cons, List.append_assoc, List.singleton_append]

theorem quotedOnto_escape {text meant rest : Bytes} (found : escape text = .ok (meant, rest))
    (seen : Bytes) :
    quotedOnto seen (Token.backslash :: text) = quotedOnto (meant.reverse ++ seen) rest := by
  rw [quotedOnto, if_neg (by decide), if_pos rfl]
  split
  · next same => cases found.symm.trans same
  · next same =>
    cases found.symm.trans same
    rfl

theorem quotedOnto_error {text : Bytes} {fault : Fault} (found : escape text = .error fault)
    (seen : Bytes) : quotedOnto seen (Token.backslash :: text) = .error fault := by
  rw [quotedOnto, if_neg (by decide), if_pos rfl]
  split
  · next same =>
    cases found.symm.trans same
    rfl
  · next same => cases found.symm.trans same

theorem escape_named {mark byte : Byte} (found : named? mark = some byte) (rest : Bytes) :
    escape (mark :: rest) = .ok ([byte], rest) := by
  simp only [escape, found]

theorem hexDigit_byte : ∀ n < 16,
    String.utf8EncodeChar (hexDigit n) = [UInt8.ofNat (hexDigit n).toNat] ∧
      hexValue? (UInt8.ofNat (hexDigit n).toNat) = some n := by
  decide

theorem escape_control {c : Char} (small : c.toNat < 0x20) (rest : Bytes) :
    escape (Utf8.encode ['u', '0', '0', hexDigit (c.toNat / 16), hexDigit (c.toNat % 16)] ++ rest) =
      .ok (String.utf8EncodeChar c, rest) := by
  obtain ⟨highByte, highValue⟩ := hexDigit_byte (c.toNat / 16) (by omega)
  obtain ⟨lowByte, lowValue⟩ := hexDigit_byte (c.toNat % 16) (by omega)
  have zero : hexValue? 0x30 = some 0 := rfl
  have unit : ((0 * 16 + 0) * 16 + c.toNat / 16) * 16 + c.toNat % 16 = c.toNat := by omega
  have alone : isTrailing c.toNat = false ∧ isLeading c.toNat = false := by
    simp only [isTrailing, isLeading, decide_eq_false_iff_not]
    omega
  simp only [encode_cons, encode_nil, highByte, lowByte]
  change unicodeEscape (0x30 :: 0x30 :: UInt8.ofNat (hexDigit (c.toNat / 16)).toNat ::
    UInt8.ofNat (hexDigit (c.toNat % 16)).toNat :: rest) = _
  simp only [unicodeEscape, codeUnit, zero, highValue, lowValue, unit]
  change (if isTrailing c.toNat then _ else if isLeading c.toNat then _ else _) = _
  rw [alone.1, alone.2, if_neg Bool.false_ne_true, if_neg Bool.false_ne_true, pointBytes,
    Char.ofNat_toNat]
  rfl

theorem quotedOnto_named {c : Char} {mark : Byte}
    (found : named? mark = some (UInt8.ofNat c.toNat)) (small : c.toNat < 0x80)
    (seen rest : Bytes) :
    quotedOnto seen (Token.backslash :: mark :: rest) =
      quotedOnto ((String.utf8EncodeChar c).reverse ++ seen) rest := by
  rw [quotedOnto_escape (escape_named found rest), encodeChar_one small]

theorem plain_encodeChar {c : Char} (noQuote : c ≠ '"') (noSlash : c ≠ '\\')
    (high : ¬ c.toNat < 0x20) : ∀ byte ∈ String.utf8EncodeChar c, Plain byte := by
  -- Only a character of one byte could be mistaken for one with a meaning of its own.
  rcases encodeChar_cases c with ⟨small, bytes⟩ | ⟨_, bytes⟩
  · have fits : c.toNat < 256 := by omega
    rw [bytes, List.forall_mem_singleton, Plain, Utf8.lt_byte fits]
    refine ⟨fun same => noQuote ?_, fun same => noSlash ?_, high⟩
    · have same := congrArg UInt8.toNat same
      rw [byte_toNat fits] at same
      exact Char.ext (UInt32.toNat_inj.mp same)
    · have same := congrArg UInt8.toNat same
      rw [byte_toNat fits] at same
      exact Char.ext (UInt32.toNat_inj.mp same)
  · intro byte member
    have above := bytes byte member
    simp only [Plain, Token.quote, Token.backslash, ← UInt8.toNat_inj, ne_eq,
      UInt8.lt_iff_toNat_lt, UInt8.le_iff_toNat_le, UInt8.reduceToNat] at above ⊢
    omega

theorem quotedOnto_escapeChar (c : Char) (seen rest : Bytes) :
    quotedOnto seen (Utf8.encode (escapeChar c) ++ rest) =
      quotedOnto ((String.utf8EncodeChar c).reverse ++ seen) rest := by
  unfold escapeChar
  -- The seven characters with a name of their own.
  iterate 7
    split
    · next same => exact quotedOnto_named (by rw [same]; rfl) (by rw [same]; decide) seen rest
  split
  · next small => exact quotedOnto_escape (escape_control small rest) seen
  · next noQuote noSlash _ _ _ _ _ high =>
    rw [encode_cons, encode_nil, List.append_nil]
    exact quotedOnto_plain (plain_encodeChar noQuote noSlash high) seen rest

theorem quotedOnto_escaped (text : List Char) (seen rest : Bytes) :
    quotedOnto seen (Utf8.encode (text.flatMap escapeChar) ++ Token.quote :: rest) =
      .ok (seen.reverse ++ Utf8.encode text, rest) := by
  induction text generalizing seen with
  | nil => simpa using quotedOnto_quote seen rest
  | cons c text ih =>
    rw [List.flatMap_cons, encode_append, List.append_assoc, quotedOnto_escapeChar, ih]
    simp

theorem quoted_quote (value : String) (rest : Bytes) :
    quoted (Utf8.encode (value.toList.flatMap escapeChar) ++ Token.quote :: rest) =
      .ok (value, rest) := by
  have bytes := quotedOnto_escaped value.toList [] rest
  rw [List.reverse_nil, List.nil_append] at bytes
  simp only [quoted, bytes, bind, Except.bind, Utf8.decode?_encode, String.ofList_toList]
  rfl

end TaskMonitor.Json
