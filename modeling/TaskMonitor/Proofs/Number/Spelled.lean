import Mathlib.Data.List.TakeDrop
import Mathlib.Data.List.TakeWhile
import TaskMonitor.Number.Reading

/-! The texts that are read as finite doubles, by their grammar: a sign, digits around a point, and
a power of ten. -/

set_option autoImplicit false

namespace TaskMonitor.Number

def Figures (text : List Char) : Prop := ∀ c ∈ text, c.isDigit

instance (text : List Char) : Decidable (Figures text) :=
  decidable_of_iff (text.all Char.isDigit) List.all_eq_true

theorem isDigit_ne {c d : Char} (digit : c.isDigit) (other : d.isDigit = false) : c ≠ d := by
  rintro rfl
  simp [digit] at other

theorem Figures.head {c : Char} {more : List Char} (each : Figures (c :: more)) :
    ∀ d ∈ (c :: more).head?, d ≠ '-' ∧ d ≠ '+' := by
  rintro _ ⟨⟩
  have digit := each c List.mem_cons_self
  exact ⟨isDigit_ne digit (by decide), isDigit_ne digit (by decide)⟩

theorem figures_digits (n : Nat) : Figures (digits n) := fun _ member =>
  Nat.isDigit_of_mem_toDigits (by decide) (by decide) member

inductive Sign : List Char → Bool → Prop where
  | none : Sign [] false
  | plus : Sign ['+'] false
  | minus : Sign ['-'] true

inductive Power : List Char → Int → Prop where
  | none : Power [] 0
  | marked {mark : Char} {sign figures : List Char} {negative : Bool} :
      mark = 'e' ∨ mark = 'E' → Sign sign negative → Figures figures → figures ≠ [] →
      Power (mark :: (sign ++ figures))
        (if negative then -(readDigits 0 figures : Int) else readDigits 0 figures)

/-- Digits before and after a point. Without any after it the point may be left out. -/
inductive Pointed : List Char → List Char → List Char → Prop where
  | bare {whole : List Char} : Figures whole → whole ≠ [] → Pointed whole whole []
  | pointed {whole fraction : List Char} : Figures whole → Figures fraction →
      ¬ (whole = [] ∧ fraction = []) → Pointed (whole ++ '.' :: fraction) whole fraction

/-- Digits and a power, for so many times a power of ten. -/
inductive Unsigned : List Char → Nat → Int → Prop where
  | mk {text whole fraction power : List Char} {exponent : Int} :
      Pointed text whole fraction → Power power exponent →
      Unsigned (text ++ power) (readDigits 0 (whole ++ fraction)) (exponent - fraction.length)

inductive Spells : List Char → Bool → Nat → Int → Prop where
  | mk {sign text : List Char} {negative : Bool} {mantissa : Nat} {exponent : Int} :
      Sign sign negative → Unsigned text mantissa exponent →
      Spells (sign ++ text) negative mantissa exponent

/-! ## Digits up to another character -/

def Stops (rest : List Char) : Prop := ∀ c ∈ rest.head?, ¬ c.isDigit

theorem spanDigits_append {figures rest : List Char} (each : Figures figures) (stops : Stops rest) :
    spanDigits (figures ++ rest) = (figures, rest) := by
  rw [spanDigits, List.span_eq_takeWhile_dropWhile, List.takeWhile_append_of_pos each,
    List.dropWhile_append_of_pos each]
  cases rest with
  | nil => simp
  | cons c rest =>
    have other := stops c rfl
    rw [List.takeWhile_cons_of_neg other, List.dropWhile_cons_of_neg other, List.append_nil]

theorem spanDigits_eq {text figures rest : List Char} (split : spanDigits text = (figures, rest)) :
    text = figures ++ rest ∧ Figures figures := by
  rw [spanDigits, List.span_eq_takeWhile_dropWhile] at split
  cases split
  exact ⟨List.takeWhile_append_dropWhile.symm, fun c member => List.mem_takeWhile_imp member⟩

theorem Figures.spanDigits {figures : List Char} (each : Figures figures) :
    spanDigits figures = (figures, []) := by
  have split := @spanDigits_append figures [] each (by simp [Stops])
  rwa [List.append_nil] at split

/-! ## Signs -/

theorem spanSign_eq {text rest : List Char} {negative : Bool}
    (split : spanSign text = (negative, rest)) :
    ∃ sign, Sign sign negative ∧ text = sign ++ rest := by
  unfold spanSign at split
  split at split <;> cases split
  · exact ⟨['-'], .minus, rfl⟩
  · exact ⟨['+'], .plus, rfl⟩
  · exact ⟨[], .none, rfl⟩

theorem Sign.spanSign {sign rest : List Char} {negative : Bool} (signed : Sign sign negative)
    (unsigned : ∀ c ∈ rest.head?, c ≠ '-' ∧ c ≠ '+') :
    spanSign (sign ++ rest) = (negative, rest) := by
  cases signed with
  | none =>
    cases rest with
    | nil => rfl
    | cons c rest =>
      obtain ⟨minus, plus⟩ := unsigned c rfl
      rw [List.nil_append, Number.spanSign]
      · rintro _ ⟨⟩
        exact minus rfl
      · rintro _ ⟨⟩
        exact plus rfl
  | plus => rfl
  | minus => rfl

/-! ## Powers -/

theorem exponent?_eq_some {text : List Char} {exponent : Int} :
    exponent? text = some exponent ↔ Power text exponent := by
  constructor
  · intro read
    cases text with
    | nil =>
      cases read
      exact .none
    | cons mark rest =>
      rw [exponent?] at read
      split at read
      · next marked =>
        cases signed : spanSign rest with | mk negative rest' =>
        obtain ⟨sign, isSign, rfl⟩ := spanSign_eq signed
        simp only [signed] at read
        split at read
        · next c figures found =>
          obtain ⟨rfl, each⟩ := spanDigits_eq found
          cases read
          rw [List.append_nil]
          exact .marked marked isSign each (List.cons_ne_nil _ _)
        · cases read
      · cases read
  · intro power
    cases power with
    | none => rfl
    | @marked mark sign figures negative marked isSign each some =>
      obtain ⟨c, more, rfl⟩ := List.exists_cons_of_ne_nil some
      rw [exponent?, if_pos marked]
      simp only [isSign.spanSign each.head, each.spanDigits]

theorem Power.stops {text : List Char} {exponent : Int} (power : Power text exponent) :
    Stops text := by
  cases power with
  | none => simp [Stops]
  | marked marked =>
    rintro c ⟨⟩
    rcases marked with rfl | rfl <;> decide

/-! ## Numbers -/

theorem spanFraction_eq {text fraction rest : List Char}
    (split : spanFraction text = (fraction, rest)) :
    (fraction = [] ∧ text = rest) ∨ (text = '.' :: (fraction ++ rest) ∧ Figures fraction) := by
  unfold spanFraction at split
  split at split
  · obtain ⟨rfl, each⟩ := spanDigits_eq split
    exact .inr ⟨rfl, each⟩
  · cases split
    exact .inl ⟨rfl, rfl⟩

theorem Power.spanFraction {text : List Char} {exponent : Int} (power : Power text exponent) :
    spanFraction text = ([], text) := by
  cases power with
  | none => rfl
  | marked marked => rcases marked with rfl | rfl <;> rfl

theorem unsigned?_eq_some {text : List Char} {x : Binary64} :
    unsigned? text = some x ↔
      ∃ mantissa exponent, Unsigned text mantissa exponent ∧ nearest mantissa exponent = x := by
  constructor
  · intro read
    cases split : spanDigits text with | mk whole rest =>
    obtain ⟨rfl, each⟩ := spanDigits_eq split
    cases splitFraction : spanFraction rest with | mk fraction power =>
    simp only [unsigned?, split, splitFraction] at read
    split at read
    · cases read
    next some =>
    obtain ⟨exponent, isPower, rfl⟩ := Option.map_eq_some_iff.mp read
    have power := exponent?_eq_some.mp isPower
    refine ⟨_, _, ?_, rfl⟩
    -- Without a point there are no digits after it, and the power follows at once.
    rcases spanFraction_eq splitFraction with ⟨rfl, rfl⟩ | ⟨rfl, eachFraction⟩
    · exact .mk (.bare each fun none => some ⟨none, rfl⟩) power
    · rw [← List.cons_append, ← List.append_assoc]
      exact .mk (.pointed each eachFraction some) power
  · rintro ⟨_, _, @⟨_, whole, fraction, power, exponent, pointed, isPower⟩, rfl⟩
    have read := exponent?_eq_some.mpr isPower
    cases pointed with
    | bare each some =>
      simp only [unsigned?, spanDigits_append each isPower.stops, isPower.spanFraction, some, read,
        false_and, if_false, Option.map_some]
    | pointed each eachFraction some =>
      have stops : Stops ('.' :: (fraction ++ power)) := by
        rintro _ ⟨⟩
        decide
      simp only [unsigned?, List.append_assoc, List.cons_append, spanDigits_append each stops,
        spanFraction, spanDigits_append eachFraction isPower.stops, some, read, if_false,
        Option.map_some]

/-! ## Signed numbers -/

theorem Unsigned.head {text : List Char} {mantissa : Nat} {exponent : Int}
    (unsigned : Unsigned text mantissa exponent) : ∀ c ∈ text.head?, c ≠ '-' ∧ c ≠ '+' := by
  obtain @⟨_, whole, _, _, _, pointed, _⟩ := unsigned
  cases pointed with
  | bare each some =>
    obtain ⟨c, more, rfl⟩ := List.exists_cons_of_ne_nil some
    exact fun _ same => each.head _ same
  | pointed each =>
    cases whole with
    | nil =>
      rintro _ ⟨⟩
      decide
    | cons c more => exact fun _ same => each.head _ same

def signed (negative : Bool) (x : Binary64) : Binary64 := if negative then x.negate else x

@[simp] theorem signed_false (x : Binary64) : signed false x = x := rfl

@[simp] theorem signed_true (x : Binary64) : signed true x = x.negate := rfl

def Named (x : Binary64) : Prop := x = .infinity ∨ x = .notANumber

theorem named?_eq_some {text : List Char} {x : Binary64} (read : named? text = some x) :
    Named x := by
  simp only [named?] at read
  split at read
  · cases read
    exact .inl rfl
  · split at read <;> cases read
    exact .inr rfl

/-- A number is read as the double nearest to it. -/
theorem Spells.read {text : List Char} {negative : Bool} {mantissa : Nat} {exponent : Int}
    (spells : Spells text negative mantissa exponent) :
    readBinary64? text = some (signed negative (nearest mantissa exponent)) := by
  obtain ⟨isSign, unsigned⟩ := spells
  have read := unsigned?_eq_some.mpr ⟨mantissa, exponent, unsigned, rfl⟩
  simp only [readBinary64?, isSign.spanSign unsigned.head, read, Option.some_or, Option.map_some]
  rfl

/-- With a sign, a point and a power. -/
example : Spells "+2.5e-3".toList false 25 (-4) :=
  @Spells.mk ['+'] _ _ _ _ .plus (@Unsigned.mk _ ['2'] ['5'] _ _
    (.pointed (by decide) (by decide) (by decide))
    (@Power.marked 'e' ['-'] ['3'] _ (.inl rfl) .minus (by decide) (by decide)))

/-- Only numbers and the words are read. -/
theorem readBinary64?_eq_some {text : List Char} {x : Binary64}
    (read : readBinary64? text = some x) :
    (∃ negative mantissa exponent, Spells text negative mantissa exponent ∧
      x = signed negative (nearest mantissa exponent)) ∨
    ∃ negative word, Named word ∧ x = signed negative word := by
  cases split : spanSign text with | mk negative rest =>
  obtain ⟨sign, isSign, rfl⟩ := spanSign_eq split
  simp only [readBinary64?, split] at read
  obtain ⟨word, found, rfl⟩ := Option.map_eq_some_iff.mp read
  rcases Option.or_eq_some_iff.mp found with number | ⟨_, name⟩
  · obtain ⟨mantissa, exponent, unsigned, rfl⟩ := unsigned?_eq_some.mp number
    exact .inl ⟨negative, mantissa, exponent, .mk isSign unsigned, rfl⟩
  · exact .inr ⟨negative, word, named?_eq_some name, rfl⟩

end TaskMonitor.Number
