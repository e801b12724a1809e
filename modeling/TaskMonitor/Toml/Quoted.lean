import TaskMonitor.Number.Digits

/-! The six written forms of a TOML string: basic, literal and their multi-line variants, with
escapes in the basic ones where nothing simpler fits. -/

set_option autoImplicit false

namespace TaskMonitor.Toml

def isPlain (c : Char) : Bool := c.toNat = 0x09 ∨ (0x20 ≤ c.toNat ∧ c.toNat ≠ 0x7F)

/-- A form of a string: its quotation mark, whether it has escapes, whether it has lines. -/
structure Form where
  mark : Char
  escapes : Bool
  lines : Bool
  deriving DecidableEq, Repr

def Form.basic : Form := ⟨'"', true, false⟩
def Form.literal : Form := ⟨'\'', false, false⟩
def Form.basicLines : Form := ⟨'"', true, true⟩
def Form.literalLines : Form := ⟨'\'', false, true⟩

def longestRun (c : Char) (current : Nat) : List Char → Nat
  | [] => current
  | d :: rest => if d = c then longestRun c (current + 1) rest else max current (longestRun c 0 rest)

/-- Characters that only an escape can stand for, tabs apart, which have both ways. -/
def needsEscape (c : Char) : Bool := !isPlain c && c ≠ '\n'

def Form.fits (form : Form) (text : List Char) : Bool :=
  !text.any needsEscape && (form.lines || !text.contains '\n') &&
    (!form.escapes || !text.contains '\\') &&
    decide (longestRun form.mark 0 text ≤ if form.lines then 2 else 0)

def Form.choose (text : List Char) : Form :=
  match [Form.basic, .literal, .basicLines, .literalLines].find? (·.fits text) with
  | some form => form
  | none => if text.contains '\n' then .basicLines else .basic

def hexDigit (n : Nat) : Char := if n < 10 then Char.ofNat (48 + n) else Char.ofNat (55 + n)

def escapeChar (lines : Bool) (c : Char) : List Char :=
  if c.toNat = 0x08 then ['\\', 'b']
  else if c.toNat = 0x09 then ['\\', 't']
  else if c = '\n' then if lines then ['\n'] else ['\\', 'n']
  else if c.toNat = 0x0C then ['\\', 'f']
  else if c.toNat = 0x0D then ['\\', 'r']
  else if c = '\\' then ['\\', '\\']
  else if isPlain c then [c]
  else ['\\', 'u', '0', '0', hexDigit (c.toNat / 16), hexDigit (c.toNat % 16)]

/-- A text in a basic form, after a run of `quotes` quotation marks. In a form with lines only
every third quotation mark of a run is escaped. -/
def escaped (lines : Bool) (quotes : Nat) : List Char → List Char
  | [] => []
  | c :: rest =>
    if c = '"' then
      if quotes < (if lines then 2 else 0) then '"' :: escaped lines (quotes + 1) rest
      else '\\' :: '"' :: escaped lines 0 rest
    else escapeChar lines c ++ escaped lines 0 rest

/-- A string in a form. Over lines, a text with line feeds starts on a line of its own. -/
def Form.write (form : Form) (text : List Char) : List Char :=
  let delimiter := List.replicate (if form.lines then 3 else 1) form.mark
  let start := if form.lines && text.contains '\n' then ['\n'] else []
  delimiter ++ start ++ (if form.escapes then escaped form.lines 0 text else text) ++ delimiter

def quote (text : String) : List Char := (Form.choose text.toList).write text.toList

abbrev Reader := StateT (List Char) Option

def hexValue? (c : Char) : Option Nat :=
  let n := c.toNat
  if 48 ≤ n ∧ n ≤ 57 then some (n - 48)
  else if 97 ≤ n ∧ n ≤ 102 then some (n - 87)
  else if 65 ≤ n ∧ n ≤ 70 then some (n - 55)
  else none

def scalarEscape (point : Nat) : Nat → List Char → Option (Char × List Char)
  | 0, text => if point.isValidChar then some (Char.ofNat point, text) else none
  | _ + 1, [] => none
  | count + 1, c :: rest => do
    let digit ← hexValue? c
    scalarEscape (point * 16 + digit) count rest

def escape : List Char → Option (Char × List Char)
  | [] => none
  | c :: rest =>
    if c = 'b' then some (Char.ofNat 0x08, rest)
    else if c = 't' then some (Char.ofNat 0x09, rest)
    else if c = 'n' then some ('\n', rest)
    else if c = 'f' then some (Char.ofNat 0x0C, rest)
    else if c = 'r' then some (Char.ofNat 0x0D, rest)
    else if c = '"' ∨ c = '\\' then some (c, rest)
    else if c = 'u' then scalarEscape 0 4 rest
    else if c = 'U' then scalarEscape 0 8 rest
    else none

theorem scalarEscape_length {point count : Nat} {text rest : List Char} {c : Char}
    (found : scalarEscape point count text = some (c, rest)) :
    rest.length + count = text.length := by
  induction count generalizing point text with
  | zero =>
    simp only [scalarEscape] at found
    split at found <;> simp_all
  | succ count ih =>
    cases text with
    | nil => simp [scalarEscape] at found
    | cons d text =>
      simp only [scalarEscape] at found
      cases value : hexValue? d with
      | none => simp [value] at found
      | some digit =>
        simp only [value, Option.bind_eq_bind, Option.bind_some] at found
        have := ih found
        simp only [List.length_cons]
        omega

theorem escape_length {text rest : List Char} {c : Char} (found : escape text = some (c, rest)) :
    rest.length < text.length := by
  unfold escape at found
  split at found
  · simp at found
  · next d left =>
    have four := @scalarEscape_length 0 4 left rest c
    have eight := @scalarEscape_length 0 8 left rest c
    repeat' split at found
    all_goals simp_all
    all_goals omega

def lineEnd? : List Char → Option (List Char)
  | '\n' :: rest => some rest
  | '\r' :: '\n' :: rest => some rest
  | _ => none

theorem lineEnd?_length {text rest : List Char} (found : lineEnd? text = some rest) :
    rest.length < text.length := by
  unfold lineEnd? at found
  split at found
  · cases found
    exact Nat.lt_succ_self _
  · cases found
    exact Nat.lt_add_of_pos_right (Nat.zero_lt_succ 1)
  · cases found

def isBlank (c : Char) : Bool := c = ' ' ∨ c = '\t'

def skipLines (text : List Char) : List Char :=
  match _skipped : text.dropWhile isBlank with
  | '\n' :: rest => skipLines rest
  | '\r' :: '\n' :: rest => skipLines rest
  | rest => rest
termination_by text.length
decreasing_by
  · have shorter := (List.dropWhile_suffix isBlank (l := text)).length_le
    rw [_skipped] at shorter
    exact shorter
  · have shorter := (List.dropWhile_suffix isBlank (l := text)).length_le
    rw [_skipped] at shorter
    exact Nat.lt_of_succ_lt shorter

/-- A backslash at the end of a line hides the line end and all blanks and line ends after it. -/
def continuation? (text : List Char) : Option (List Char) :=
  (lineEnd? (text.dropWhile isBlank)).map skipLines

def lineOnto (form : Form) (seen : List Char) : List Char → Option (List Char × List Char)
  | [] => none
  | c :: rest =>
    if c = form.mark then some (seen.reverse, rest)
    else if form.escapes && c = '\\' then
      match _found : escape rest with
      | some (meant, left) => lineOnto form (meant :: seen) left
      | none => none
    else if isPlain c then lineOnto form (c :: seen) rest
    else none
termination_by text => text.length
decreasing_by
  · exact Nat.lt_succ_of_lt (escape_length _found)
  · exact Nat.lt_succ_self _

theorem skipLines_length (text : List Char) : (skipLines text).length ≤ text.length := by
  fun_induction skipLines text with
  | case1 text rest skipped ih =>
    have := (List.dropWhile_suffix isBlank (l := text)).length_le
    simp_all
    omega
  | case2 text rest skipped ih =>
    have := (List.dropWhile_suffix isBlank (l := text)).length_le
    simp_all
    omega
  | case3 text rest skipped => exact (List.dropWhile_suffix isBlank).length_le

theorem continuation?_length {text rest : List Char} (found : continuation? text = some rest) :
    rest.length ≤ text.length := by
  unfold continuation? at found
  obtain ⟨left, same, rfl⟩ := Option.map_eq_some_iff.mp found
  have first := (List.dropWhile_suffix isBlank (l := text)).length_le
  have second := lineEnd?_length same
  have third := skipLines_length left
  omega

/-- The characters of a string over lines, put after the reversed characters `seen`. Up to two
quotation marks before the closing three belong to the text, as do shorter runs of them. -/
def linesOnto (form : Form) (seen : List Char) : List Char → Option (List Char × List Char)
  | [] => none
  | c :: rest =>
    if c = form.mark then
      let run := rest.takeWhile (· = form.mark)
      let left := rest.dropWhile (· = form.mark)
      if run.length < 2 then linesOnto form (run ++ c :: seen) left
      else
        let extra := min (run.length - 2) 2
        some ((List.replicate extra c ++ seen).reverse, rest.drop (extra + 2))
    else if form.escapes && c = '\\' then
      match _found : continuation? rest with
      | some left => linesOnto form seen left
      | none =>
        match _found : escape rest with
        | some (meant, left) => linesOnto form (meant :: seen) left
        | none => none
    else if isPlain c then linesOnto form (c :: seen) rest
    else
      match _found : lineEnd? (c :: rest) with
      | some left => linesOnto form ('\n' :: seen) left
      | none => none
termination_by text => text.length
decreasing_by
  · exact Nat.lt_succ_of_le (List.dropWhile_suffix _).length_le
  · exact Nat.lt_succ_of_le (continuation?_length _found)
  · exact Nat.lt_succ_of_lt (escape_length _found)
  · exact Nat.lt_succ_self _
  · exact lineEnd?_length _found

/-- A string whose first quotation mark is `mark`, in either form with that mark. Over lines, a
line end right after the opening marks is dropped. -/
def string (mark : Char) (text : List Char) : Option (List Char × List Char) :=
  let escapes := decide (mark = '"')
  match text with
  | a :: b :: c :: rest =>
    if a = mark ∧ b = mark ∧ c = mark then
      linesOnto ⟨mark, escapes, true⟩ [] ((lineEnd? rest).getD rest)
    else if a = mark then lineOnto ⟨mark, escapes, false⟩ [] (b :: c :: rest)
    else none
  | a :: rest => if a = mark then lineOnto ⟨mark, escapes, false⟩ [] rest else none
  | [] => none

end TaskMonitor.Toml
