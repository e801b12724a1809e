import Mathlib.Data.List.TakeDrop
import TaskMonitor.Proofs.Number.Spelled
import TaskMonitor.Proofs.Toml.Quoted
import TaskMonitor.Toml.Scalar

/-! Integers are read back from their digits, and texts from their written forms, up to the end
of the line. An integer that is read lies in the range of TOML. -/

set_option autoImplicit false

namespace TaskMonitor.Toml

open Number (Figures figures_digits isDigit_ne)

variable {α β : Type}

/-! ## Readers -/

theorem bind_some {reader : Reader α} {text rest : List Char} {value : α}
    (found : reader text = some (value, rest)) (next : α → Reader β) :
    (reader >>= next) text = next value rest := by
  change Option.bind (reader text) _ = _
  rw [found]
  rfl

theorem bind_none {reader : Reader α} {text : List Char} (none : reader text = none)
    (next : α → Reader β) : (reader >>= next) text = .none := by
  change Option.bind (reader text) _ = _
  rw [none]
  rfl

theorem bind_eq_some {reader : Reader α} {next : α → Reader β} {text rest : List Char} {value : β}
    (found : (reader >>= next) text = some (value, rest)) :
    ∃ first left, reader text = some (first, left) ∧ next first left = some (value, rest) := by
  obtain ⟨⟨first, left⟩, one, two⟩ := Option.bind_eq_some_iff.mp found
  exact ⟨first, left, one, two⟩

theorem orElse_none {first second : Reader α} {text : List Char} (none : first text = none) :
    (first <|> second) text = second text := by
  change (first text <|> second text) = _
  rw [none]
  rfl

theorem orElse_eq_some {first second : Reader α} {text : List Char} {result : α × List Char}
    (found : (first <|> second) text = some result) :
    first text = some result ∨ second text = some result := by
  change (first text <|> second text) = _ at found
  cases one : first text with
  | none => exact .inr (by rwa [one] at found)
  | some result => exact .inl (by rwa [one] at found)

theorem optional_none {reader : Reader α} {text : List Char} (none : reader text = none) :
    optional reader text = some (.none, text) := by
  rw [optional, none]

/-! ## Digits -/

theorem readDigits_digits (n : Nat) : Number.readDigits 0 (Number.digits n) = n :=
  Nat.ofDigitChars_toDigits (by decide) (by decide)

theorem first_digit (n : Nat) : ∃ first more, Number.digits n = first :: more ∧ first.isDigit := by
  cases shape : Number.digits n with
  | nil => exact absurd shape Nat.toDigits_ne_nil
  | cons first more => exact ⟨first, more, rfl, figures_digits n first (shape ▸ List.mem_cons_self)⟩

theorem digits_zero {n : Nat} {more : List Char} (same : Number.digits n = '0' :: more) :
    more = [] := by
  have zero : ∀ digit < 10, Nat.digitChar digit = '0' → digit = 0 := by decide
  have positive : ∀ n more, Number.digits n = '0' :: more → n = 0 := by
    intro n
    induction n using Nat.strongRecOn with
    | ind n ih =>
      intro more same
      by_cases small : n < 10
      · rw [Number.digits, Nat.toDigits_of_lt_base small] at same
        exact zero n small (List.cons.inj same).1
      · rw [Number.digits, Nat.toDigits_of_base_le (by decide) (by omega), ← Number.digits] at same
        obtain ⟨c, rest, front, _⟩ := first_digit (n / 10)
        rw [front] at same
        rw [(List.cons.inj same).1] at front
        have none := ih (n / 10) (by omega) rest front
        omega
  rw [positive n more same] at same
  exact (List.cons.inj same).2.symm

theorem moreDigits_figures {digits : List Char} (figures : Figures digits) (rest : List Char) :
    moreDigits Char.isDigit (digits ++ '\n' :: rest) = (digits, '\n' :: rest) := by
  induction digits with
  | nil => rfl
  | cons c digits ih =>
    have digit := figures c List.mem_cons_self
    have later := ih fun d member => figures d (List.mem_cons_of_mem _ member)
    rw [List.cons_append, moreDigits, if_pos digit, later]
    intro d more same _
    exact isDigit_ne digit (by decide) same

theorem wholeDigits_digits (n : Nat) (rest : List Char) :
    wholeDigits (Number.digits n ++ '\n' :: rest) = some (Number.digits n, '\n' :: rest) := by
  have figures := figures_digits n
  obtain ⟨first, more, shape, digit⟩ := first_digit n
  rw [shape] at figures ⊢
  by_cases zero : first = '0'
  · subst zero
    rw [digits_zero shape]
    rfl
  · have satisfied : satisfy Char.isDigit (first :: (more ++ '\n' :: rest)) =
        some (first, more ++ '\n' :: rest) := by
      rw [satisfy, if_pos digit]
    have others := moreDigits_figures
      (fun c member => figures c (List.mem_cons_of_mem _ member)) rest
    rw [List.cons_append, wholeDigits]
    · rw [digitRun, bind_some satisfied, bind_some (congrArg some others)]
      rfl
    · intro more same
      exact zero (List.cons.inj same).1

/-! ## Integers -/

theorem sign_digit {first : Char} (digit : first.isDigit) (rest : List Char) :
    sign (first :: rest) = some ([], first :: rest) := by
  rw [sign]
  · intro rest same
    exact isDigit_ne digit (by decide) (List.cons.inj same).1
  · intro rest same
    exact isDigit_ne digit (by decide) (List.cons.inj same).1

theorem word_digit {first : Char} (digit : first.isDigit) {letter : Char}
    (other : letter.isDigit = false) (letters rest : List Char) :
    word (letter :: letters) (first :: rest) = none := by
  simp [word, List.isPrefixOf, (isDigit_ne digit other).symm]

theorem satisfy_other {property : Char → Bool} {first : Char} (other : property first = false)
    (rest : List Char) : satisfy property (first :: rest) = none := by
  rw [satisfy, other]
  rfl

theorem bool_digit {first : Char} (digit : first.isDigit) (rest : List Char) :
    bool (first :: rest) = none := by
  have yes : word "true".toList (first :: rest) = none := word_digit digit rfl _ _
  have no : word "false".toList (first :: rest) = none := word_digit digit rfl _ _
  rw [bool, orElse_none (bind_none yes _), bind_none no]

theorem namedReal_digit {first : Char} (digit : first.isDigit) (rest : List Char) :
    namedReal (first :: rest) = none := by
  have infinity : word "inf".toList (first :: rest) = none := word_digit digit rfl _ _
  have nan : word "nan".toList (first :: rest) = none := word_digit digit rfl _ _
  rw [namedReal, bind_some (sign_digit digit rest)]
  refine bind_none ?_ _
  rw [orElse_none (bind_none infinity _), bind_none nan]

theorem decimalReal_digits (n : Nat) (rest : List Char) :
    decimalReal (Number.digits n ++ '\n' :: rest) = none := by
  obtain ⟨first, more, shape, digit⟩ := first_digit n
  have signed := sign_digit digit (more ++ '\n' :: rest)
  rw [← List.cons_append, ← shape] at signed
  have noFraction : fraction ('\n' :: rest) = none := bind_none (satisfy_other rfl rest) _
  have noExponent : exponent ('\n' :: rest) = none := bind_none (satisfy_other rfl rest) _
  rw [decimalReal, bind_some signed, bind_some (wholeDigits_digits n rest),
    bind_some (optional_none noFraction), bind_some (optional_none noExponent)]
  rfl

/-- After so many digits the next character is a digit or the end of the line. -/
theorem numberOf_satisfy {digits : List Char} (figures : Figures digits) {mark : Char}
    (solid : mark.isDigit = false ∧ mark ≠ '\n') (count least most : Nat) (rest : List Char)
    (next : Nat → Char → Reader α) :
    (numberOf count least most >>= fun value => satisfy (· = mark) >>= next value)
      (digits ++ '\n' :: rest) = none := by
  cases found : numberOf count least most (digits ++ '\n' :: rest) with
  | none => exact bind_none found _
  | some result =>
    obtain ⟨value, left⟩ := result
    rw [bind_some found]
    refine bind_none ?_ _
    simp only [numberOf] at found
    split at found
    · next taken =>
      obtain ⟨length, all, _⟩ := taken
      cases found
      have enough : count ≤ digits.length := by
        -- Otherwise the end of the line would be among the digits.
        by_contra short
        have among : '\n' ∈ (digits ++ '\n' :: rest).take count := by
          rw [List.take_append, List.take_of_length_le (by omega)]
          obtain ⟨more, enough⟩ := Nat.exists_eq_add_of_lt (Nat.lt_of_not_le short)
          have some : count - digits.length = more + 1 := by omega
          simp [some]
        have digit := List.all_eq_true.mp all _ among
        cases digit
      rw [List.drop_append_of_le_length enough]
      cases shape : digits.drop count with
      | nil => exact satisfy_other (by simpa using solid.2.symm) rest
      | cons c back =>
        have digit := figures c (List.mem_of_mem_drop (shape ▸ List.mem_cons_self))
        exact satisfy_other (by simpa using isDigit_ne digit solid.1) _
    · cases found

theorem date_figures {digits : List Char} (figures : Figures digits) (rest : List Char) :
    date (digits ++ '\n' :: rest) = none :=
  numberOf_satisfy figures (by decide) 4 0 9999 rest _

theorem time_figures {digits : List Char} (figures : Figures digits) (rest : List Char) :
    time (digits ++ '\n' :: rest) = none :=
  numberOf_satisfy figures (by decide) 2 0 23 rest _

theorem moment_figures {digits : List Char} (figures : Figures digits) (rest : List Char) :
    moment (digits ++ '\n' :: rest) = none := by
  have neither : ∀ reader : Reader Unit,
      (date *> reader <|> time) (digits ++ '\n' :: rest) = none := by
    intro reader
    have dated : (date *> reader) (digits ++ '\n' :: rest) = none :=
      bind_none (date_figures figures rest) _
    rw [orElse_none dated, time_figures figures rest]
  simp only [moment, neither]
  rfl

theorem decimalInteger_digits {n : Nat} (fits : n ≤ mostInteger) (rest : List Char) :
    decimalInteger (Number.digits n ++ '\n' :: rest) = some (.integer n, '\n' :: rest) := by
  obtain ⟨first, more, shape, digit⟩ := first_digit n
  have signed := sign_digit digit (more ++ '\n' :: rest)
  rw [← List.cons_append, ← shape] at signed
  rw [decimalInteger, bind_some signed, bind_some (wholeDigits_digits n rest), readDigits_digits,
    bounded, if_pos rfl, if_pos]
  · rfl
  · omega

theorem integer_digits {n : Nat} (fits : n ≤ mostInteger) (rest : List Char) :
    integer (Number.digits n ++ '\n' :: rest) = some (.integer n, '\n' :: rest) := by
  have decimal := decimalInteger_digits fits rest
  obtain ⟨first, more, shape, _⟩ := first_digit n
  rw [shape] at decimal ⊢
  by_cases zero : first = '0'
  · subst zero
    rw [digits_zero shape] at decimal ⊢
    rw [← decimal]
    rfl
  · rw [List.cons_append, integer]
    · exact decimal
    · intro mark rest same
      exact zero (List.cons.inj same).1

theorem scalar_digits {n : Nat} (fits : n ≤ mostInteger) (rest : List Char) :
    scalar (Number.digits n ++ '\n' :: rest) = some (.integer n, '\n' :: rest) := by
  obtain ⟨first, more, shape, digit⟩ := first_digit n
  have figures := figures_digits n
  have noMoment := moment_figures figures rest
  have noReal := decimalReal_digits n rest
  have found := integer_digits fits rest
  rw [shape, List.cons_append] at noMoment noReal found ⊢
  have noQuote : ¬ (first = '"' ∨ first = '\'') := by
    rintro (same | same)
    · exact isDigit_ne digit (by decide) same
    · exact isDigit_ne digit (by decide) same
  rw [scalar, if_neg noQuote, orElse_none (bool_digit digit _), orElse_none noMoment,
    orElse_none noReal, orElse_none (namedReal_digit digit _), found]

/-! ## Texts -/

theorem quote_head (text : String) : ∃ mark more, quote text = mark :: more ∧
    mark = (Form.choose text.toList).mark ∧ (mark = '"' ∨ mark = '\'') := by
  have valid := (choose_stands text.toList).1
  refine ⟨(Form.choose text.toList).mark, (quote text).tail, ?_, rfl, valid.mark⟩
  rw [quote, Form.write]
  split <;> rfl

theorem scalar_quote (text : String) (rest : List Char) :
    scalar (quote text ++ '\n' :: rest) = some (.text text, '\n' :: rest) := by
  obtain ⟨mark, more, shape, same, quoted⟩ := quote_head text
  have stop : ('\n' :: rest).head? ≠ some (Form.choose text.toList).mark := by
    rw [← same, List.head?_cons]
    rcases quoted with rfl | rfl <;> decide
  have found := string_quote text stop
  rw [← same, shape, List.cons_append] at found
  rw [shape, List.cons_append, scalar, if_pos quoted, found, Option.map_some]
  simp only [String.ofList_toList]

/-! ## The range of integers -/

def Gives (property : α → Prop) (reader : Reader α) : Prop :=
  ∀ text value rest, reader text = some (value, rest) → property value

theorem Gives.after {before : α → Prop} {property : β → Prop} {reader : Reader α}
    {next : α → Reader β} (first : Gives before reader)
    (each : ∀ value, before value → Gives property (next value)) :
    Gives property (reader >>= next) := by
  intro text value rest found
  obtain ⟨start, left, read, found⟩ := bind_eq_some found
  exact each start (first text start left read) left value rest found

theorem Gives.bind {property : β → Prop} {reader : Reader α} {next : α → Reader β}
    (each : ∀ value, Gives property (next value)) : Gives property (reader >>= next) := by
  intro text value rest found
  obtain ⟨start, left, _, found⟩ := bind_eq_some found
  exact each start left value rest found

theorem Gives.pure {property : α → Prop} {value : α} (holds : property value) :
    Gives property (pure value) := by
  intro text found rest same
  cases same
  exact holds

theorem Gives.failure (property : α → Prop) : Gives property (failure : Reader α) := by
  intro text value rest found
  cases found

theorem Gives.orElse {property : α → Prop} {first second : Reader α}
    (one : Gives property first) (two : Gives property second) :
    Gives property (first <|> second) := by
  intro text value rest found
  rcases orElse_eq_some found with found | found
  · exact one text value rest found
  · exact two text value rest found

def Ranged : Node → Prop
  | .integer value => value ≤ mostInteger
  | _ => True

theorem ranged_bounded (value : Int) : Gives Ranged (bounded value) := by
  unfold bounded
  split
  · next range => exact .pure range.2
  · exact .failure _

theorem ranged_integer : Gives Ranged integer := by
  have decimal : Gives Ranged decimalInteger :=
    .bind fun _ => .bind fun _ => ranged_bounded _
  have based : Gives Ranged basedInteger := by
    refine .orElse ?_ (.orElse ?_ ?_)
    · exact .bind fun _ => .bind fun _ => ranged_bounded _
    · exact .bind fun _ => .bind fun _ => ranged_bounded _
    · exact .bind fun _ => .bind fun _ => ranged_bounded _
  intro text value rest found
  unfold integer at found
  split at found
  · split at found
    · exact based _ _ _ found
    · exact decimal _ _ _ found
  · exact decimal _ _ _ found

theorem ranged_decimalReal : Gives Ranged decimalReal := by
  unfold decimalReal
  refine .bind fun _ => .bind fun _ => .bind fun fraction => .bind fun power => ?_
  -- The digits may stand for no double, or there may be nothing that makes them a real.
  split
  · dsimp only
    split
    · exact .bind fun _ => .failure _
    · exact .failure _
  · next value _ =>
    have real : Gives Ranged (if value = .infinity then failure else pure (.real value)) := by
      split
      · exact .failure _
      · exact .pure trivial
    dsimp only
    split
    · exact .bind fun _ => real
    · exact real

theorem ranged_scalar : Gives Ranged scalar := by
  have bool : Gives Ranged bool :=
    .orElse (.bind fun _ => .pure trivial) (.bind fun _ => .pure trivial)
  have named : Gives Ranged namedReal := .bind fun _ => .bind fun _ => .pure trivial
  have moment : Gives Ranged moment := by
    intro text value rest found
    obtain ⟨_, _, same⟩ := Option.bind_eq_some_iff.mp found
    cases same
    trivial
  intro text value rest found
  unfold scalar at found
  split at found
  · cases found
  · split at found
    · obtain ⟨_, _, same⟩ := Option.map_eq_some_iff.mp found
      cases same
      trivial
    · exact (bool.orElse (moment.orElse (ranged_decimalReal.orElse
        (named.orElse ranged_integer)))) _ _ _ found

end TaskMonitor.Toml
