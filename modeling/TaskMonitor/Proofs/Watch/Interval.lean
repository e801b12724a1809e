import Mathlib.Algebra.Order.Field.Basic
import Mathlib.Algebra.Order.Field.Power
import TaskMonitor.Proofs.Number.Nearest
import TaskMonitor.Proofs.Number.Spelled
import TaskMonitor.Proofs.Watch.Reports

/-! Intervals and the texts they are read from. What a text spells is rounded twice, to a double and
to nanoseconds, so the bounds of what can be waited lie in the middle between two doubles. -/

set_option autoImplicit false

namespace TaskMonitor.Duration

open Number

def SpellsSeconds (text : String) (seconds : ℚ) : Prop :=
  ∃ negative mantissa exponent, Spells (Text.trim text.toList) negative mantissa exponent ∧
    seconds = (if negative then -1 else 1) * (mantissa * 10 ^ exponent)

/-- The middle between zero and the least double. -/
def vanishing : ℚ := 1 / 2 ^ 1075

/-- The middle between the last double up to half a nanosecond and the first one beyond it. -/
def instant : ℚ := 9671406556917033 / 2 ^ 84

/-- The middle between `2 ^ 64` and the double before it. -/
def longest : ℚ := 2 ^ 64 - 2 ^ 10

/-- The middle between the largest double and the power of two after it. -/
def unbounded : ℚ := 2 ^ 1024 - 2 ^ 970

/-- What a number of seconds comes to as an interval. -/
inductive Outcome (text : String) (seconds : ℚ) : Except IntervalError Duration → Prop where
  | none : seconds ≤ vanishing → Outcome text seconds (.error (.notPositive text))
  | period {nanoseconds : Nat} : vanishing < seconds → seconds < longest →
      (0 < nanoseconds ↔ instant < seconds) → Outcome text seconds (.ok ⟨nanoseconds⟩)
  | tooLong : longest ≤ seconds → seconds < unbounded → Outcome text seconds (.error .tooLong)
  | infinite : unbounded ≤ seconds → Outcome text seconds (.error (.notPositive text))

/-! ## From a double -/

theorem ofBinary64_of_infinite {x : Binary64} (text : String) (unmeasured : x.units? = none) :
    ofBinary64 text x = .error (.notPositive text) := by
  unfold ofBinary64
  split
  · next shape => simp [Binary64.units?, shape] at unmeasured
  · rfl

theorem ofBinary64_zero {x : Binary64} (text : String) (zero : x.units? = some 0) :
    ofBinary64 text x = .error (.notPositive text) := by
  unfold ofBinary64
  split
  · next shape => simp [Binary64.units?, shape] at zero
  · rfl

theorem tooLong_iff {significand places : Nat} (canonical : Canonical significand places) :
    let exponent := (places : Int) + Binary64.leastExponent
    UInt64.size * Nat.pow 2 (-exponent).toNat ≤ significand * Nat.pow 2 exponent.toNat ↔
      (2 ^ 53 - 1) * 2 ^ 1085 < significand * 2 ^ places := by
  intro exponent
  have last : Canonical (2 ^ 53 - 1) 1085 := ⟨by norm_num, .inl (by norm_num), by norm_num⟩
  have below : 1074 = (-exponent).toNat + min places 1074 := by
    simp only [exponent, Binary64.leastExponent]
    omega
  have above : places = exponent.toNat + min places 1074 := by
    simp only [exponent, Binary64.leastExponent]
    omega
  have limit : (2 ^ 53 - 1 + 1) * 2 ^ 1085 = UInt64.size * 2 ^ 1074 := by
    rw [show UInt64.size = 2 ^ 64 from rfl, Nat.sub_add_cancel Nat.one_le_two_pow, ← pow_add,
      ← pow_add]
  -- One side is the other times a power of two, which depends on the sign of the exponent.
  rw [last.lt_iff canonical.lt.le canonical.full.symm, limit]
  generalize min places 1074 = shared at below above
  rw [below, above, pow_add, pow_add, ← mul_assoc, ← mul_assoc,
    Nat.mul_le_mul_right_iff (Nat.two_pow_pos shared)]
  rfl

theorem half_nanosecond_lt_iff {significand places : Nat}
    (canonical : Canonical significand places) :
    (1 / 2 : ℚ) < (significand * 2 ^ places : Nat) / 2 ^ 1074 * 10 ^ 9 ↔
      4835703278458516 * 2 ^ 991 < significand * 2 ^ places := by
  have last : Canonical 4835703278458516 991 := ⟨by norm_num, .inl (by norm_num), by norm_num⟩
  have gap := last.lt_iff canonical.lt.le canonical.full.symm
  have scale : (0 : ℚ) < 2 ^ 991 := by positivity
  rw [show 1074 = 83 + 991 from rfl, pow_add, div_mul_eq_mul_div, lt_div_iff₀ (by positivity)]
  constructor
  · intro more
    by_contra less
    have most : ((significand * 2 ^ places : Nat) : ℚ) ≤ 4835703278458516 * 2 ^ 991 := by
      exact_mod_cast Nat.not_lt.mp less
    generalize (2 : ℚ) ^ 991 = scale at *
    linarith
  · intro more
    have least : (4835703278458516 + 1 : ℚ) * 2 ^ 991 ≤ (significand * 2 ^ places : Nat) := by
      exact_mod_cast gap.mp more
    generalize (2 : ℚ) ^ 991 = scale at *
    linarith

theorem ofBinary64_of_units? {x : Binary64} {own : Nat} (text : String)
    (measured : x.units? = some own) (positive : 0 < own) :
    ∃ nanoseconds, Rounded nanoseconds (own / 2 ^ 1074 * 10 ^ 9) ∧
      ofBinary64 text x =
        if (2 ^ 53 - 1) * 2 ^ 1085 < own then .error .tooLong else .ok ⟨nanoseconds⟩ := by
  obtain ⟨significand, places, canonical, shape, rfl⟩ := Binary64.canonical_of_units? measured
  have seconds : ((significand * 2 ^ places : Nat) / 2 ^ 1074 : ℚ) =
      significand * 2 ^ ((places : Int) + Binary64.leastExponent) := by
    rw [Binary64.leastExponent, zpow_add₀ two_ne_zero, zpow_natCast, zpow_neg, ← div_eq_mul_inv,
      mul_div_assoc', zpow_ofNat]
    simp only [Nat.cast_mul, Nat.cast_pow, Nat.cast_ofNat]
  -- Nanoseconds are made of a significand that is a successor.
  obtain ⟨rest, rfl⟩ := Nat.exists_eq_succ_of_ne_zero (Nat.pos_of_mul_pos_right positive).ne'
  refine ⟨scaled 9 (rest + 1) (places + Binary64.leastExponent), ?_, ?_⟩
  · rw [seconds]
    exact scaled_rounded 9 (rest + 1) (places + Binary64.leastExponent)
  · rw [ofBinary64, shape]
    simp only [tooLong_iff canonical]

/-! ## From a number of seconds -/

section
variable {x : Binary64} {seconds : ℚ} (near : Rounds (seconds * 2 ^ 1074) x)
include near

theorem exceeds_iff_lt {significand places : Nat} {bound : ℚ}
    (canonical : Canonical significand places) (even : Even significand)
    (middle : bound * 2 ^ 1074 = (significand + 1 / 2) * 2 ^ places) :
    x.Exceeds (significand * 2 ^ places) ↔ bound < seconds := by
  rw [near.exceeds_even canonical even, ← middle, mul_lt_mul_iff_left₀ (by positivity)]

theorem exceeds_iff_le {significand places : Nat} {bound : ℚ}
    (canonical : Canonical significand places) (odd : Odd significand)
    (middle : bound * 2 ^ 1074 = (significand + 1 / 2) * 2 ^ places) :
    x.Exceeds (significand * 2 ^ places) ↔ bound ≤ seconds := by
  rw [near.exceeds_odd canonical odd, ← middle, mul_le_mul_iff_left₀ (by positivity)]

theorem exceeds_vanishing : x.Exceeds 0 ↔ vanishing < seconds := by
  have last : Canonical 0 0 := ⟨by norm_num, .inr rfl, by norm_num⟩
  refine exceeds_iff_lt near last (by decide) ?_
  rw [vanishing, pow_succ, one_div_mul_eq_div, div_mul_cancel_left₀ (by positivity)]
  norm_num

theorem exceeds_instant : x.Exceeds (4835703278458516 * 2 ^ 991) ↔ instant < seconds := by
  have last : Canonical 4835703278458516 991 := ⟨by norm_num, .inl (by norm_num), by norm_num⟩
  refine exceeds_iff_lt near last (by decide) ?_
  rw [instant, show 1074 = 83 + 991 from rfl, pow_add, ← mul_assoc]
  norm_num

theorem exceeds_longest : x.Exceeds ((2 ^ 53 - 1) * 2 ^ 1085) ↔ longest ≤ seconds := by
  have last : Canonical (2 ^ 53 - 1) 1085 := ⟨by norm_num, .inl (by norm_num), by norm_num⟩
  refine exceeds_iff_le near last (by decide) ?_
  rw [longest, show 1085 = 11 + 1074 from rfl, pow_add _ 11, ← mul_assoc]
  norm_num

theorem exceeds_unbounded : x.Exceeds ((2 ^ 53 - 1) * 2 ^ 2045) ↔ unbounded ≤ seconds := by
  have last : Canonical (2 ^ 53 - 1) 2045 := ⟨by norm_num, .inl (by norm_num), by norm_num⟩
  refine exceeds_iff_le near last (by decide) ?_
  rw [unbounded, show 2045 = 971 + 1074 from rfl, pow_add _ 971, ← mul_assoc,
    show 1024 = 54 + 970 from rfl, pow_add, pow_succ _ 970]
  congr 1
  generalize (2 : ℚ) ^ 970 = scale
  norm_num
  ring

theorem ofBinary64_near (text : String) : Outcome text seconds (ofBinary64 text x) := by
  rcases near.measured with rfl | ⟨own, measured⟩
  · exact .infinite ((exceeds_unbounded near).mp (.inl rfl))
  have bounded : seconds < unbounded := by
    rw [← not_le, ← exceeds_unbounded near, Binary64.exceeds_of_units? measured, not_lt]
    exact Binary64.units?_le measured
  have some := (Binary64.exceeds_of_units? measured 0).symm.trans (exceeds_vanishing near)
  have long := (Binary64.exceeds_of_units? measured _).symm.trans (exceeds_longest near)
  rcases Nat.eq_zero_or_pos own with rfl | positive
  · rw [ofBinary64_zero text measured]
    exact .none (not_lt.mp (mt some.mpr (lt_irrefl 0)))
  obtain ⟨nanoseconds, rounded, result⟩ := ofBinary64_of_units? text measured positive
  rw [result]
  by_cases tooLong : (2 ^ 53 - 1) * 2 ^ 1085 < own
  · rw [if_pos tooLong]
    exact .tooLong (long.mp tooLong) bounded
  · rw [if_neg tooLong]
    refine .period (some.mp positive) (not_le.mp (mt long.mpr tooLong)) ?_
    rw [rounded.pos_iff, ← exceeds_instant near, Binary64.exceeds_of_units? measured]
    obtain ⟨significand, places, canonical, -, rfl⟩ := Binary64.canonical_of_units? measured
    exact half_nanosecond_lt_iff canonical

end

/-! ## From a text -/

theorem ofInterval_spelled {text : String} {seconds : ℚ} (spells : SpellsSeconds text seconds) :
    Outcome text seconds (ofInterval text) := by
  obtain ⟨negative, mantissa, exponent, number, rfl⟩ := spells
  have rounds := nearest_rounds mantissa exponent
  rw [ofInterval, number.read]
  cases negative with
  | false =>
    rw [signed_false, if_neg Bool.false_ne_true, one_mul]
    exact ofBinary64_near rounds text
  | true =>
    -- What is negative is no period, whatever its magnitude.
    have magnitude : (0 : ℚ) ≤ mantissa * 10 ^ exponent := by positivity
    have least : 0 < vanishing := by
      rw [vanishing]
      positivity
    rw [signed_true, if_pos rfl, neg_one_mul]
    have result := ofBinary64_of_infinite text rounds.units?_negate
    simp only [result]
    exact .none ((neg_nonpos_of_nonneg magnitude).trans least.le)

theorem ofInterval_unspelled {text : String} (nothing : ∀ seconds, ¬ SpellsSeconds text seconds) :
    ofInterval text = .error (.notANumber text) ∨ ofInterval text = .error (.notPositive text) := by
  rw [ofInterval]
  cases read : readBinary64? (Text.trim text.toList) with
  | none => exact .inl rfl
  | some x =>
    right
    rcases readBinary64?_eq_some read with
      ⟨negative, mantissa, exponent, number, -⟩ | ⟨negative, word, named, rfl⟩
    · exact absurd ⟨negative, mantissa, exponent, number, rfl⟩ (nothing _)
    · rcases named with rfl | rfl <;> cases negative <;> rfl

theorem vanishing_lt_instant : vanishing < instant := by
  rw [vanishing, instant]
  calc (1 : ℚ) / 2 ^ 1075 ≤ 1 / 2 ^ 84 := by gcongr <;> norm_num
    _ < 9671406556917033 / 2 ^ 84 := by norm_num

theorem instant_lt_longest : instant < longest := by
  rw [instant, longest]
  norm_num

theorem longest_lt_unbounded : longest < unbounded := by
  have scale : (1 : ℚ) ≤ 2 ^ 900 := one_le_pow₀ one_le_two
  rw [longest, unbounded, show 1024 = 124 + 900 from rfl, show 970 = 70 + 900 from rfl, pow_add,
    pow_add]
  generalize (2 : ℚ) ^ 900 = scale at *
  norm_num
  linarith

/-- Only a text that spells a number has a period, or is too long. -/
theorem spelled_of_ofInterval {text : String}
    (number : ofInterval text ≠ .error (.notANumber text))
    (positive : ofInterval text ≠ .error (.notPositive text)) :
    ∃ seconds, SpellsSeconds text seconds ∧ Outcome text seconds (ofInterval text) := by
  by_contra nothing
  have unspelled : ∀ seconds, ¬ SpellsSeconds text seconds := fun seconds spells =>
    nothing ⟨seconds, spells, ofInterval_spelled spells⟩
  rcases ofInterval_unspelled unspelled with same | same
  · exact number same
  · exact positive same

theorem ofInterval_eq_ok {text : String} {period : Duration}
    (accepted : ofInterval text = .ok period) :
    ∃ seconds, SpellsSeconds text seconds ∧ vanishing < seconds ∧ seconds < longest ∧
      (0 < period.nanoseconds ↔ instant < seconds) := by
  obtain ⟨seconds, spells, outcome⟩ := @spelled_of_ofInterval text (by simp [accepted])
    (by simp [accepted])
  rw [accepted] at outcome
  cases outcome with
  | period some short usable => exact ⟨seconds, spells, some, short, usable⟩

theorem ofInterval_ok {text : String} {seconds : ℚ} (spells : SpellsSeconds text seconds)
    (some : vanishing < seconds) (short : seconds < longest) :
    ∃ period, ofInterval text = .ok period ∧ (0 < period.nanoseconds ↔ instant < seconds) := by
  have outcome := ofInterval_spelled spells
  generalize ofInterval text = result at outcome
  cases outcome with
  | none nothing => exact absurd some nothing.not_gt
  | @period nanoseconds _ _ usable => exact ⟨⟨nanoseconds⟩, rfl, usable⟩
  | tooLong long => exact absurd short long.not_gt
  | infinite large => exact absurd (short.trans longest_lt_unbounded) large.not_gt

theorem report_unfit_iff {format : Format} {period : Duration} {cycles : Nat}
    {fetch : Nat → Except FetchError Snapshot} :
    Command.report format (some period) cycles fetch = .unfit ↔ period.nanoseconds = 0 := by
  by_cases zero : period.nanoseconds = 0
  · simp only [Command.report, Command.Schedule.ofPeriod, zero, ↓reduceIte]
  · rw [report_watch (Nat.pos_of_ne_zero zero)]
    refine iff_of_false (fun same => ?_) zero
    have status := congrArg Command.Ending.status same
    rw [Command.Ending.ofPrinted] at status
    split at status <;> cases status

/-- A text has a period that can be waited exactly if it spells more than half a nanosecond, as far
as doubles tell it, and less than `2 ^ 64` seconds. What is at most half a nanosecond and still more
than nothing is accepted too, as a period of no time with which every run ends without a report. -/
theorem ofInterval_usable_iff (text : String) :
    ((∃ period, ofInterval text = .ok period ∧ 0 < period.nanoseconds) ↔
      ∃ seconds, SpellsSeconds text seconds ∧ instant < seconds ∧ seconds < longest) ∧
    ((∃ period, ofInterval text = .ok period ∧
        ∀ format cycles fetch, Command.report format (some period) cycles fetch = .unfit) ↔
      ∃ seconds, SpellsSeconds text seconds ∧ vanishing < seconds ∧ seconds ≤ instant) := by
  refine ⟨⟨?_, ?_⟩, ?_, ?_⟩
  · rintro ⟨period, accepted, positive⟩
    obtain ⟨seconds, spells, -, short, usable⟩ := ofInterval_eq_ok accepted
    exact ⟨seconds, spells, usable.mp positive, short⟩
  · rintro ⟨seconds, spells, more, short⟩
    have some := vanishing_lt_instant.trans more
    obtain ⟨period, accepted, usable⟩ := ofInterval_ok spells some short
    exact ⟨period, accepted, usable.mpr more⟩
  · rintro ⟨period, accepted, unfit⟩
    obtain ⟨seconds, spells, some, -, usable⟩ := ofInterval_eq_ok accepted
    have zero := report_unfit_iff.mp (unfit .table 0 fun _ => .error .closed)
    exact ⟨seconds, spells, some, not_lt.mp (mt usable.mpr (by omega))⟩
  · rintro ⟨seconds, spells, some, less⟩
    have short := less.trans_lt instant_lt_longest
    obtain ⟨period, accepted, usable⟩ := ofInterval_ok spells some short
    have zero := mt usable.mp less.not_gt
    exact ⟨period, accepted, fun _ _ _ => report_unfit_iff.mpr (by omega)⟩

/-- A tenth of a nanosecond is accepted as a period of no time. -/
theorem accepted_not_usable :
    ¬ ∀ text period, ofInterval text = .ok period → 0 < period.nanoseconds := fun all =>
  absurd (all "1e-10" ⟨0⟩ (by decide +kernel)) (by decide)

/-- A text is left without an answer exactly if the double nearest to what it spells is `2 ^ 64` or
more and finite. -/
theorem ofInterval_tooLong_iff (text : String) :
    ofInterval text = .error .tooLong ↔
      ∃ seconds, SpellsSeconds text seconds ∧ longest ≤ seconds ∧ seconds < unbounded := by
  constructor
  · intro tooLong
    obtain ⟨seconds, spells, outcome⟩ := @spelled_of_ofInterval text (by simp [tooLong])
      (by simp [tooLong])
    rw [tooLong] at outcome
    cases outcome with
    | tooLong long bounded => exact ⟨seconds, spells, long, bounded⟩
  · rintro ⟨seconds, spells, long, bounded⟩
    have some := (vanishing_lt_instant.trans instant_lt_longest).trans_le long
    have outcome := ofInterval_spelled spells
    generalize ofInterval text = result at outcome
    cases outcome with
    | none nothing => exact absurd some nothing.not_gt
    | period _ short => exact absurd short long.not_gt
    | tooLong => rfl
    | infinite large => exact absurd bounded large.not_gt

/-- A hundred billion billion seconds are not answered. -/
theorem not_all_answered : ¬ ∀ text error, ofInterval text = .error error → error.message?.isSome :=
  fun all => absurd (all "1e20" .tooLong (by decide +kernel)) (by decide)

end TaskMonitor.Duration
