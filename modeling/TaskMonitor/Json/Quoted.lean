import TaskMonitor.Json.Reader

/-! Quoted text in JSON: how it is written, read, and passed over in a value that has no use. -/

set_option autoImplicit false

namespace TaskMonitor.Json

def hexDigit (n : Nat) : Char := if n < 10 then Char.ofNat (48 + n) else Char.ofNat (87 + n)

def escapeChar (c : Char) : List Char :=
  if c = '"' then ['\\', '"']
  else if c = '\\' then ['\\', '\\']
  else if c.toNat = 0x08 then ['\\', 'b']
  else if c.toNat = 0x09 then ['\\', 't']
  else if c.toNat = 0x0A then ['\\', 'n']
  else if c.toNat = 0x0C then ['\\', 'f']
  else if c.toNat = 0x0D then ['\\', 'r']
  else if c.toNat < 0x20 then
    ['\\', 'u', '0', '0', hexDigit (c.toNat / 16), hexDigit (c.toNat % 16)]
  else [c]

def quote (text : String) : List Char := '"' :: text.toList.flatMap escapeChar ++ ['"']

def hexValue? (byte : Byte) : Option Nat :=
  let n := byte.toNat
  if 48 ≤ n ∧ n ≤ 57 then some (n - 48)
  else if 97 ≤ n ∧ n ≤ 102 then some (n - 87)
  else if 65 ≤ n ∧ n ≤ 70 then some (n - 55)
  else none

def codeUnit : Bytes → Except Fault (Nat × Bytes)
  | a :: b :: c :: d :: rest =>
    match hexValue? a, hexValue? b, hexValue? c, hexValue? d with
    | some a, some b, some c, some d => .ok (((a * 16 + b) * 16 + c) * 16 + d, rest)
    | _, _, _, _ => .error .malformed
  | _ => .error .endOfText

def isLeading (unit : Nat) : Bool := 0xD800 ≤ unit ∧ unit ≤ 0xDBFF

def isTrailing (unit : Nat) : Bool := 0xDC00 ≤ unit ∧ unit ≤ 0xDFFF

def pointBytes (point : Nat) : Bytes := String.utf8EncodeChar (Char.ofNat point)

def trailingUnit : Bytes → Except Fault (Nat × Bytes)
  | [] => .error .endOfText
  | [slash] => if slash = Token.backslash then .error .endOfText else .error .malformed
  | slash :: mark :: rest =>
    if slash = Token.backslash ∧ mark = 0x75 then codeUnit rest else .error .malformed

/-- The scalar value of one code unit, or of two that form a pair. -/
def unicodeEscape (text : Bytes) : Except Fault (Bytes × Bytes) := do
  let (unit, rest) ← codeUnit text
  if isTrailing unit then throw .malformed
  else if isLeading unit then
    let (second, rest) ← trailingUnit rest
    if isTrailing second then
      return (pointBytes (0x10000 + (unit - 0xD800) * 0x400 + (second - 0xDC00)), rest)
    else throw .malformed
  else return (pointBytes unit, rest)

def named? (mark : Byte) : Option Byte :=
  if mark = Token.quote ∨ mark = Token.backslash ∨ mark = 0x2F then some mark
  else if mark = 0x62 then some 0x08
  else if mark = 0x66 then some 0x0C
  else if mark = 0x6E then some 0x0A
  else if mark = 0x72 then some 0x0D
  else if mark = 0x74 then some 0x09
  else none

def escape : Bytes → Except Fault (Bytes × Bytes)
  | [] => .error .endOfText
  | mark :: rest =>
    match named? mark with
    | some byte => .ok ([byte], rest)
    | none => if mark = 0x75 then unicodeEscape rest else .error .malformed

theorem codeUnit_length {text rest : Bytes} {unit : Nat} (found : codeUnit text = .ok (unit, rest)) :
    rest.length + 4 = text.length := by
  unfold codeUnit at found
  split at found
  · split at found
    · simp_all
    · simp at found
  · simp at found

theorem trailingUnit_length {text rest : Bytes} {unit : Nat}
    (found : trailingUnit text = .ok (unit, rest)) : rest.length < text.length := by
  unfold trailingUnit at found
  split at found
  · simp at found
  · split at found <;> simp at found
  · split at found
    · have := codeUnit_length found
      simp only [List.length_cons]
      omega
    · simp at found

theorem unicodeEscape_length {text meant rest : Bytes}
    (found : unicodeEscape text = .ok (meant, rest)) : rest.length < text.length := by
  simp only [unicodeEscape, bind, Except.bind] at found
  split at found
  · simp at found
  · next first unit =>
    have first := codeUnit_length unit
    split at found
    · simp [throw, throwThe, MonadExceptOf.throw] at found
    · split at found
      · split at found
        · simp at found
        · next second unit =>
          have second := trailingUnit_length unit
          split at found
          · simp only [pure, Except.pure, Except.ok.injEq, Prod.mk.injEq] at found
            obtain ⟨_, same⟩ := found
            subst same
            omega
          · simp [throw, throwThe, MonadExceptOf.throw] at found
      · simp only [pure, Except.pure, Except.ok.injEq, Prod.mk.injEq] at found
        obtain ⟨_, same⟩ := found
        subst same
        omega

theorem escape_length {text meant rest : Bytes} (found : escape text = .ok (meant, rest)) :
    rest.length < text.length := by
  unfold escape at found
  split at found
  · simp at found
  · split at found
    · simp only [Except.ok.injEq, Prod.mk.injEq] at found
      simp [found.2]
    · split at found
      · exact Nat.lt_succ_of_lt (unicodeEscape_length found)
      · simp at found

def quotedOnto (seen : Bytes) : Bytes → Except Fault (Bytes × Bytes)
  | [] => .error .endOfText
  | byte :: rest =>
    if byte = Token.quote then .ok (seen.reverse, rest)
    else if byte = Token.backslash then
      match _found : escape rest with
      | .error fault => .error fault
      | .ok (meant, left) => quotedOnto (meant.reverse ++ seen) left
    else if byte < 0x20 then .error .malformed
    else quotedOnto (byte :: seen) rest
termination_by text => text.length
decreasing_by
  · exact Nat.lt_succ_of_lt (escape_length _found)
  · exact Nat.lt_succ_self _

/-- A quoted text after its opening quote. It has to be UTF-8 once its escapes are gone. -/
def quoted : Reader String := fun text => do
  let (bytes, rest) ← quotedOnto [] text
  match Utf8.decode? bytes with
  | some chars => return (String.ofList chars, rest)
  | none => throw .malformed

def passEscape : Bytes → Except Fault Bytes
  | [] => .error .endOfText
  | mark :: rest =>
    if mark = 0x75 then (codeUnit rest).map Prod.snd else (escape (mark :: rest)).map Prod.snd

theorem passEscape_length {text rest : Bytes} (found : passEscape text = .ok rest) :
    rest.length < text.length := by
  unfold passEscape at found
  split at found
  · simp at found
  · next mark left =>
    split at found
    · cases unit : codeUnit left with
      | error => simp [unit, Except.map] at found
      | ok result =>
        simp only [unit, Except.map, Except.ok.injEq] at found
        subst found
        have := codeUnit_length unit
        simp only [List.length_cons]
        omega
    · cases meant : escape (mark :: left) with
      | error => simp [meant, Except.map] at found
      | ok result =>
        simp only [meant, Except.map, Except.ok.injEq] at found
        subst found
        exact escape_length meant

def passQuoted : Bytes → Except Fault Bytes
  | [] => .error .endOfText
  | byte :: rest =>
    if byte = Token.quote then .ok rest
    else if byte = Token.backslash then
      match _found : passEscape rest with
      | .error fault => .error fault
      | .ok left => passQuoted left
    else if byte < 0x20 then .error .malformed
    else passQuoted rest
termination_by text => text.length
decreasing_by
  · exact Nat.lt_succ_of_lt (passEscape_length _found)
  · exact Nat.lt_succ_self _

end TaskMonitor.Json
