import TaskMonitor.Proofs.Json.Step

/-! The tokens of JSON as the grammar has them: blanks, quoted texts with escapes of each kind, and
numbers with a fraction and an exponent. What they hold makes their bytes well-formed. -/

set_option autoImplicit false

namespace TaskMonitor.Json

open Utf8 (encode_nil encode_cons encode_append)

structure Blanks where
  bytes : Bytes
  blank : ∀ byte ∈ bytes, isBlank byte

theorem skipBlanks_blanks (blanks : Blanks) (text : Bytes) :
    skipBlanks (blanks.bytes ++ text) = skipBlanks text :=
  List.dropWhile_append_of_pos blanks.blank

theorem peek_blanks (blanks : Blanks) (text : Bytes) : peek (blanks.bytes ++ text) = peek text := by
  rw [peek, skipBlanks_blanks, ← peek]

theorem expect_blanks (blanks : Blanks) {byte : Byte} (solid : ¬ isBlank byte) (rest : Bytes) :
    expect byte (blanks.bytes ++ byte :: rest) = .ok ((), rest) := by
  have found := expect_cons solid rest
  unfold expect at found ⊢
  change Except.bind (peek _) _ = _ at found ⊢
  rw [peek_blanks]
  exact found

theorem stops_blanks (blanks : Blanks) {rest : Bytes} (stops : Stops rest) :
    Stops (blanks.bytes ++ rest) := by
  intro byte head
  cases shape : blanks.bytes with
  | nil =>
    rw [shape] at head
    exact stops byte head
  | cons first more =>
    rw [shape] at head
    cases head
    exact .inr (.inr (.inr (blanks.blank _ (by simp [shape]))))

/-! ## Quoted texts -/

structure HexDigit where
  byte : Byte
  value : Nat
  known : hexValue? byte = some value

structure CodeUnit where
  first : HexDigit
  second : HexDigit
  third : HexDigit
  fourth : HexDigit

def CodeUnit.bytes (unit : CodeUnit) : Bytes :=
  [unit.first.byte, unit.second.byte, unit.third.byte, unit.fourth.byte]

def CodeUnit.value (unit : CodeUnit) : Nat :=
  ((unit.first.value * 16 + unit.second.value) * 16 + unit.third.value) * 16 + unit.fourth.value

/-- A piece of a quoted text: a character that stands for itself, an escape of one letter, or one
with a code unit. -/
inductive Piece where
  | plain (c : Char) (stands : c ≠ '"' ∧ c ≠ '\\' ∧ ¬ c.toNat < 0x20)
  | named (mark meant : Byte) (known : named? mark = some meant)
  | coded (code : CodeUnit)

def Piece.bytes : Piece → Bytes
  | .plain c _ => String.utf8EncodeChar c
  | .named mark _ _ => [Token.backslash, mark]
  | .coded code => Token.backslash :: 0x75 :: code.bytes

def pieceBytes (pieces : List Piece) : Bytes := pieces.flatMap Piece.bytes

/-- The characters that pieces stand for. Only a leading code unit and a trailing one right after
it stand for a character together. -/
def meaning : List Piece → Option (List Char)
  | [] => some []
  | .plain c _ :: pieces => (meaning pieces).map (c :: ·)
  | .named _ meant _ :: pieces => (meaning pieces).map (Char.ofNat meant.toNat :: ·)
  | .coded code :: pieces =>
    if isTrailing code.value then none
    else if isLeading code.value then
      match pieces with
      | .coded second :: pieces =>
        if isTrailing second.value then
          (meaning pieces).map
            (Char.ofNat (0x10000 + (code.value - 0xD800) * 0x400 + (second.value - 0xDC00)) :: ·)
        else none
      | _ => none
    else (meaning pieces).map (Char.ofNat code.value :: ·)

theorem pieceBytes_cons (piece : Piece) (pieces : List Piece) (rest : Bytes) :
    pieceBytes (piece :: pieces) ++ rest = piece.bytes ++ (pieceBytes pieces ++ rest) := by
  rw [pieceBytes, List.flatMap_cons, List.append_assoc, ← pieceBytes]

theorem codeUnit_bytes (unit : CodeUnit) (rest : Bytes) :
    codeUnit (unit.bytes ++ rest) = .ok (unit.value, rest) := by
  obtain ⟨first, second, third, fourth⟩ := unit
  change codeUnit (first.byte :: second.byte :: third.byte :: fourth.byte :: rest) = _
  simp only [codeUnit, first.known, second.known, third.known, fourth.known]
  rfl

theorem named?_letter {mark meant : Byte} (known : named? mark = some meant) :
    String.utf8EncodeChar (Char.ofNat meant.toNat) = [meant] ∧ mark ≠ 0x75 := by
  unfold named? at known
  split at known
  · next same =>
    cases known
    rcases same with rfl | rfl | rfl <;> decide
  iterate 5
    split at known
    · next same =>
      cases known
      subst same
      decide
  · cases known

theorem trailingUnit_coded (code : CodeUnit) (rest : Bytes) :
    trailingUnit (Token.backslash :: 0x75 :: (code.bytes ++ rest)) = .ok (code.value, rest) := by
  simp only [trailingUnit, and_self, ↓reduceIte]
  exact codeUnit_bytes code rest

theorem trailingUnit_other {byte : Byte} (other : byte ≠ Token.backslash) (rest : Bytes) :
    trailingUnit (byte :: rest) = .error .malformed := by
  cases rest with
  | nil => simp only [trailingUnit, other, ↓reduceIte]
  | cons mark rest => simp only [trailingUnit, other, false_and, ↓reduceIte]

/-- What comes after a leading code unit that has no partner. -/
theorem trailingUnit_pieces {pieces : List Piece}
    (alone : ∀ code more, pieces ≠ .coded code :: more) (rest : Bytes) :
    trailingUnit (pieceBytes pieces ++ Token.quote :: rest) = .error .malformed := by
  cases pieces with
  | nil => exact trailingUnit_other (by decide) rest
  | cons piece pieces =>
    cases piece with
    | plain c stands =>
      obtain ⟨first, more, bytes, _⟩ := Utf8.next?_encodeChar c
      have plain := plain_encodeChar stands.1 stands.2.1 stands.2.2 first (by simp [bytes])
      rw [pieceBytes_cons, Piece.bytes, bytes]
      exact trailingUnit_other plain.2.1 _
    | named mark meant known =>
      rw [pieceBytes_cons, Piece.bytes]
      change trailingUnit (Token.backslash :: mark :: _) = _
      simp only [trailingUnit, (named?_letter known).2, and_false, ↓reduceIte]
    | coded code => exact absurd rfl (alone code pieces)

def meant {α : Type} (make : List Char → α) : Option (List Char) → Except Fault α
  | some chars => .ok (make chars)
  | none => .error .malformed

theorem escape_coded (unit : CodeUnit) (rest : Bytes) :
    escape (0x75 :: (unit.bytes ++ rest)) =
      if isTrailing unit.value then .error .malformed
      else if isLeading unit.value then do
        let (second, rest) ← trailingUnit rest
        if isTrailing second then
          return (pointBytes (0x10000 + (unit.value - 0xD800) * 0x400 + (second - 0xDC00)), rest)
        else throw .malformed
      else .ok (pointBytes unit.value, rest) := by
  change unicodeEscape _ = _
  simp only [unicodeEscape, codeUnit_bytes, bind, Except.bind, pure, Except.pure, throw, throwThe,
    MonadExceptOf.throw]

theorem meant_map (c : Char) (seen rest : Bytes) (found : Option (List Char)) :
    meant (fun chars => (seen.reverse ++ Utf8.encode chars, rest)) (found.map (c :: ·)) =
      meant (fun chars => (((String.utf8EncodeChar c).reverse ++ seen).reverse ++ Utf8.encode chars,
        rest)) found := by
  cases found with
  | none => rfl
  | some chars => simp [meant, encode_cons]

theorem quotedOnto_pieces (pieces : List Piece) (seen rest : Bytes) :
    quotedOnto seen (pieceBytes pieces ++ Token.quote :: rest) =
      meant (fun chars => (seen.reverse ++ Utf8.encode chars, rest)) (meaning pieces) := by
  -- A case for each piece, and for a code unit one for each way to be part of a pair.
  fun_induction meaning pieces generalizing seen with
  | case1 =>
    rw [meant, encode_nil, List.append_nil]
    exact quotedOnto_quote seen rest
  | case2 c stands pieces ih =>
    rw [pieceBytes_cons, Piece.bytes,
      quotedOnto_plain (plain_encodeChar stands.1 stands.2.1 stands.2.2), ih, meant_map]
  | case3 mark byte known pieces ih =>
    rw [pieceBytes_cons, Piece.bytes, List.cons_append, List.singleton_append,
      quotedOnto_escape (escape_named known _), meant_map, (named?_letter known).1, ih]
  | case4 code pieces trailing =>
    have found := escape_coded code (pieceBytes pieces ++ Token.quote :: rest)
    rw [if_pos trailing] at found
    rw [pieceBytes_cons]
    exact quotedOnto_error found seen
  | case5 code alone leading second pieces trailing ih =>
    have found := escape_coded code
      (Token.backslash :: 0x75 :: (second.bytes ++ (pieceBytes pieces ++ Token.quote :: rest)))
    simp only [alone, leading, trailingUnit_coded, bind, Except.bind, trailing, ↓reduceIte] at found
    rw [pieceBytes_cons, pieceBytes_cons, meant_map, ← ih]
    exact quotedOnto_escape found seen
  | case6 code alone leading second pieces other =>
    have found := escape_coded code
      (Token.backslash :: 0x75 :: (second.bytes ++ (pieceBytes pieces ++ Token.quote :: rest)))
    simp only [alone, leading, trailingUnit_coded, bind, Except.bind, other, ↓reduceIte] at found
    rw [pieceBytes_cons, pieceBytes_cons]
    exact quotedOnto_error found seen
  | case7 code pieces alone leading single =>
    have found := escape_coded code (pieceBytes pieces ++ Token.quote :: rest)
    rw [if_neg alone, if_pos leading, trailingUnit_pieces single] at found
    rw [pieceBytes_cons]
    exact quotedOnto_error found seen
  | case8 code pieces alone single ih =>
    have found := escape_coded code (pieceBytes pieces ++ Token.quote :: rest)
    rw [if_neg alone, if_neg single] at found
    rw [pieceBytes_cons, meant_map, ← ih]
    exact quotedOnto_escape found seen

/-- A quoted text is read as what its pieces stand for, and refused if they stand for nothing. -/
theorem quoted_pieces (pieces : List Piece) (rest : Bytes) :
    quoted (pieceBytes pieces ++ Token.quote :: rest) =
      meant (fun chars => (String.ofList chars, rest)) (meaning pieces) := by
  have found := quotedOnto_pieces pieces [] rest
  simp only [quoted, found]
  cases meaning pieces with
  | none => rfl
  | some chars =>
    simp only [meant, List.reverse_nil, List.nil_append, bind, Except.bind, Utf8.decode?_encode]
    rfl

theorem passQuoted_plain {bytes : Bytes} (plain : ∀ byte ∈ bytes, Plain byte) (rest : Bytes) :
    passQuoted (bytes ++ rest) = passQuoted rest := by
  induction bytes with
  | nil => rfl
  | cons byte bytes ih =>
    obtain ⟨noQuote, noSlash, high⟩ := plain byte List.mem_cons_self
    rw [List.cons_append, passQuoted, if_neg noQuote, if_neg noSlash, if_neg high,
      ih (fun other member => plain other (List.mem_cons_of_mem _ member))]

theorem passQuoted_escape {text rest : Bytes} (found : passEscape text = .ok rest) :
    passQuoted (Token.backslash :: text) = passQuoted rest := by
  rw [passQuoted, if_neg (by decide), if_pos rfl]
  split
  · next same => cases found.symm.trans same
  · next same =>
    cases found.symm.trans same
    rfl

theorem passEscape_named {mark meant : Byte} (known : named? mark = some meant) (rest : Bytes) :
    passEscape (mark :: rest) = .ok rest := by
  rw [passEscape, if_neg (named?_letter known).2, escape_named known]
  rfl

theorem passEscape_coded (code : CodeUnit) (rest : Bytes) :
    passEscape (0x75 :: (code.bytes ++ rest)) = .ok rest := by
  rw [passEscape, if_pos rfl, codeUnit_bytes]
  rfl

/-- A quoted text is passed over whether or not it has a meaning. -/
theorem passQuoted_pieces (pieces : List Piece) (rest : Bytes) :
    passQuoted (pieceBytes pieces ++ Token.quote :: rest) = .ok rest := by
  induction pieces with
  | nil =>
    change passQuoted (Token.quote :: rest) = _
    rw [passQuoted, if_pos rfl]
  | cons piece pieces ih =>
    rw [pieceBytes_cons]
    cases piece with
    | plain c stands =>
      rw [Piece.bytes, passQuoted_plain (plain_encodeChar stands.1 stands.2.1 stands.2.2), ih]
    | named mark byte known =>
      exact (passQuoted_escape (passEscape_named known _)).trans ih
    | coded code => exact (passQuoted_escape (passEscape_coded code _)).trans ih

/-! ## Numbers -/

structure Digits where
  first : Byte
  more : Bytes
  each : ∀ byte ∈ first :: more, isDigit byte

def Digits.bytes (digits : Digits) : Bytes := digits.first :: digits.more

structure Exponent where
  mark : Byte
  sign : Option Byte
  power : Digits
  marks : isExponentMark mark
  signs : ∀ byte ∈ sign, byte = Token.plus ∨ byte = Token.minus

def Exponent.bytes (exponent : Exponent) : Bytes :=
  exponent.mark :: (exponent.sign.toList ++ exponent.power.bytes)

/-- A number of any size. A zero in front stands alone. -/
structure Decimal where
  negative : Bool
  whole : Digits
  fraction : Option Digits
  exponent : Option Exponent
  zero : whole.first = 0x30 → whole.more = []

def fractionBytes : Option Digits → Bytes
  | none => []
  | some digits => Token.point :: digits.bytes

def exponentBytes : Option Exponent → Bytes
  | none => []
  | some exponent => exponent.bytes

def Decimal.tail (decimal : Decimal) : Bytes :=
  fractionBytes decimal.fraction ++ exponentBytes decimal.exponent

def Decimal.bytes (decimal : Decimal) : Bytes :=
  (if decimal.negative then [Token.minus] else []) ++ (decimal.whole.bytes ++ decimal.tail)

theorem head_exponent (exponent : Option Exponent) {rest : Bytes} (stops : Stops rest) :
    ∀ byte ∈ (exponentBytes exponent ++ rest).head?, isDigit byte = false ∧ byte ≠ Token.point := by
  intro byte head
  cases exponent with
  | none =>
    cases rest with
    | nil => cases head
    | cons first rest =>
      cases head
      exact ⟨stops.not_digit.1, stops.not_digit.2.1⟩
  | some exponent =>
    cases head
    have marks := exponent.marks
    simp only [isExponentMark, decide_eq_true_eq] at marks
    rcases marks with same | same <;> rw [same] <;> decide

theorem noDigit_exponent (exponent : Option Exponent) {rest : Bytes} (stops : Stops rest) :
    NoDigit (exponentBytes exponent ++ rest) :=
  fun byte head => (head_exponent exponent stops byte head).1

theorem noDigit_tail (decimal : Decimal) {rest : Bytes} (stops : Stops rest) :
    NoDigit (decimal.tail ++ rest) := by
  rw [Decimal.tail, List.append_assoc]
  cases decimal.fraction with
  | none => exact noDigit_exponent _ stops
  | some digits =>
    intro byte head
    cases head
    decide

theorem digit_not_sign {byte : Byte} (digit : isDigit byte) :
    ¬ (byte = Token.plus ∨ byte = Token.minus) := by
  rintro (rfl | rfl)
  · exact absurd digit (by decide)
  · exact absurd digit (by decide)

theorem passExponent_bytes (exponent : Exponent) {rest : Bytes} (ends : NoDigit rest) :
    passExponent (exponent.sign.toList ++ (exponent.power.bytes ++ rest)) = .ok rest := by
  obtain ⟨mark, sign, power, marks, signs⟩ := exponent
  have span := span_digits power.each ends
  cases sign with
  | none =>
    have first := digit_not_sign (power.each power.first List.mem_cons_self)
    change passExponent (power.first :: (power.more ++ rest)) = _
    simp only [passExponent, first, ↓reduceIte]
    rw [← List.cons_append, span]
  | some byte =>
    change passExponent (byte :: (power.first :: power.more ++ rest)) = _
    simp only [passExponent, signs byte rfl, ↓reduceIte]
    rw [span]

theorem passExponent?_bytes (exponent : Option Exponent) {rest : Bytes} (stops : Stops rest) :
    passExponent? (exponentBytes exponent ++ rest) = .ok rest := by
  cases exponent with
  | none =>
    cases rest with
    | nil => rfl
    | cons byte rest =>
      change passExponent? (byte :: rest) = _
      rw [passExponent?, stops.not_digit.2.2, if_neg Bool.false_ne_true]
  | some exponent =>
    have found := passExponent_bytes exponent stops.noDigit
    rw [exponentBytes, Exponent.bytes, List.cons_append, List.append_assoc, passExponent?,
      if_pos exponent.marks, found]

theorem passTail_bytes (decimal : Decimal) {rest : Bytes} (stops : Stops rest) :
    passTail (decimal.tail ++ rest) = .ok rest := by
  have found := passExponent?_bytes decimal.exponent stops
  rw [Decimal.tail, List.append_assoc]
  cases decimal.fraction with
  | none =>
    change passTail (exponentBytes decimal.exponent ++ rest) = _
    cases shape : exponentBytes decimal.exponent ++ rest with
    | nil =>
      rw [shape] at found
      exact found
    | cons byte more =>
      have noPoint := (head_exponent decimal.exponent stops byte (by rw [shape]; rfl)).2
      rw [passTail, if_neg noPoint, ← shape, found]
  | some digits =>
    have span := span_digits digits.each (noDigit_exponent decimal.exponent stops)
    change passTail (Token.point :: (digits.first :: digits.more ++
      (exponentBytes decimal.exponent ++ rest))) = _
    simp only [passTail, ↓reduceIte]
    rw [span]
    exact found

theorem passNumeral_bytes (decimal : Decimal) {rest : Bytes} (stops : Stops rest) :
    passNumeral (decimal.bytes ++ rest) = .ok rest := by
  have span := span_digits decimal.whole.each (noDigit_tail decimal stops)
  have zero : ¬ (decimal.whole.first = 0x30 ∧ decimal.whole.more ≠ []) :=
    fun both => both.2 (decimal.zero both.1)
  have found := passTail_bytes decimal stops
  have first := digit_not_sign (decimal.whole.each decimal.whole.first List.mem_cons_self)
  rw [not_or] at first
  cases sign : decimal.negative with
  | true =>
    rw [Decimal.bytes, sign, if_pos rfl, List.append_assoc, List.append_assoc]
    change passNumeral (Token.minus :: (decimal.whole.first :: decimal.whole.more ++
      (decimal.tail ++ rest))) = _
    simp only [passNumeral, ↓reduceIte, span, zero, found]
  | false =>
    rw [Decimal.bytes, sign, if_neg Bool.false_ne_true, List.append_assoc, List.append_assoc]
    change passNumeral (decimal.whole.first :: (decimal.whole.more ++ (decimal.tail ++ rest))) = _
    simp only [passNumeral, first.2, ↓reduceIte]
    rw [← List.cons_append, span]
    simp only [zero, found, ↓reduceIte]

end TaskMonitor.Json
