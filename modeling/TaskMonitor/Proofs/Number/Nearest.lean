import TaskMonitor.Number.Reading
import TaskMonitor.Proofs.Number.Rounding

/-! Decimals and the doubles nearest to them. A magnitude is counted in least doubles, so that
every double is a whole number. The double that is read from a decimal exceeds another double
exactly if the decimal is beyond the middle between that one and the next. -/

set_option autoImplicit false

namespace TaskMonitor.Number

/-- A double that is finite and not negative, as so many times the least one. -/
def Binary64.units? (x : Binary64) : Option Nat :=
  match x.value with
  | .finite false significand exponent =>
    some (significand * 2 ^ (exponent - leastExponent).toNat)
  | _ => none

/-- A significand that a double may have, with its last place `2 ^ places` units. -/
structure Canonical (significand places : Nat) : Prop where
  lt : significand < 2 ^ 53
  full : 2 ^ 52 ≤ significand ∨ places = 0
  le : places ≤ 2045

/-- A number of units beyond the middle between a double and the next, or in the middle if the
next double is the even one. -/
def Beyond (units : ℚ) (significand places : Nat) : Prop :=
  (significand + 1 / 2) * 2 ^ places < units ∨
    units = (significand + 1 / 2) * 2 ^ places ∧ Odd significand

/-- A double above so many units. Infinity is above them all. -/
def Binary64.Exceeds (x : Binary64) (units : Nat) : Prop :=
  x = infinity ∨ ∃ own, x.units? = some own ∧ units < own

/-- The double nearest to a number of units: it is known by the doubles that it exceeds. -/
structure Rounds (units : ℚ) (x : Binary64) : Prop where
  measured : x = .infinity ∨ ∃ own, x.units? = some own
  exceeds_iff {significand places : Nat} : Canonical significand places →
    (x.Exceeds (significand * 2 ^ places) ↔ Beyond units significand places)

theorem Rounds.exceeds_even {units : ℚ} {x : Binary64} {m k : Nat} (rounds : Rounds units x)
    (canonical : Canonical m k) (even : Even m) :
    x.Exceeds (m * 2 ^ k) ↔ (m + 1 / 2) * 2 ^ k < units := by
  have notOdd := Nat.not_odd_iff_even.mpr even
  simp only [rounds.exceeds_iff canonical, Beyond, notOdd, and_false, or_false]

theorem Rounds.exceeds_odd {units : ℚ} {x : Binary64} {m k : Nat} (rounds : Rounds units x)
    (canonical : Canonical m k) (odd : Odd m) :
    x.Exceeds (m * 2 ^ k) ↔ (m + 1 / 2) * 2 ^ k ≤ units := by
  simp only [rounds.exceeds_iff canonical, Beyond, odd, and_true, le_iff_lt_or_eq, eq_comm]

/-! ## Significands in order -/

/-- A significand at higher places is larger than all at lower places. -/
theorem next_le_of_places_lt {m k s p : Nat} (small : m < 2 ^ 53) (full : 2 ^ 52 ≤ s)
    (less : k < p) : (m + 1) * 2 ^ k ≤ s * 2 ^ p := by
  calc (m + 1) * 2 ^ k ≤ 2 ^ 53 * 2 ^ k := Nat.mul_le_mul_right _ small
    _ = 2 ^ 52 * 2 ^ (k + 1) := by ring
    _ ≤ s * 2 ^ p := Nat.mul_le_mul full (Nat.pow_le_pow_right two_pos less)

theorem le_of_places_lt {m k s p : Nat} (small : s ≤ 2 ^ 53) (full : 2 ^ 52 ≤ m)
    (less : p < k) : s * 2 ^ p ≤ m * 2 ^ k := by
  calc s * 2 ^ p ≤ 2 ^ 53 * 2 ^ p := Nat.mul_le_mul_right _ small
    _ = 2 ^ 52 * 2 ^ (p + 1) := by ring
    _ ≤ m * 2 ^ k := Nat.mul_le_mul full (Nat.pow_le_pow_right two_pos less)

theorem Canonical.lt_iff {m k s p : Nat} (canonical : Canonical m k) (small : s ≤ 2 ^ 53)
    (full : p = 0 ∨ 2 ^ 52 ≤ s) : m * 2 ^ k < s * 2 ^ p ↔ (m + 1) * 2 ^ k ≤ s * 2 ^ p := by
  have step : m * 2 ^ k < (m + 1) * 2 ^ k := by
    rw [Nat.succ_mul]
    exact Nat.lt_add_of_pos_right (Nat.two_pow_pos k)
  refine ⟨fun less => ?_, fun le => Nat.lt_of_lt_of_le step le⟩
  rcases Nat.lt_trichotomy k p with lower | rfl | higher
  · exact next_le_of_places_lt canonical.lt (full.resolve_left (by omega)) lower
  · exact Nat.mul_le_mul_right _ (Nat.lt_of_mul_lt_mul_right less)
  · exact absurd (le_of_places_lt small (canonical.full.resolve_right (by omega)) higher)
      (Nat.not_le.mpr less)

/-! ## Rounding to a significand -/

/-- A significand and its places that a number of units rounds to. It is rounded up to the next
power of two at most. -/
structure Placed (units : ℚ) (s p : Nat) : Prop where
  rounded : Rounded s (units / 2 ^ p)
  lt : units < 2 ^ (53 + p)
  full : p = 0 ∨ 2 ^ (52 + p) ≤ units

theorem Placed.quotient_lt {units : ℚ} {s p : Nat} (placed : Placed units s p) :
    units / 2 ^ p < 2 ^ 53 := by
  rw [div_lt_iff₀ (by positivity), ← pow_add]
  exact placed.lt

theorem Placed.quotient_full {units : ℚ} {s p : Nat} (placed : Placed units s p) :
    p = 0 ∨ 2 ^ 52 ≤ units / 2 ^ p := by
  refine placed.full.imp_right fun full => ?_
  rw [le_div_iff₀ (by positivity), ← pow_add]
  exact full

theorem Placed.significand_le {units : ℚ} {s p : Nat} (placed : Placed units s p) :
    s ≤ 2 ^ 53 := by
  have less := placed.quotient_lt
  refine Nat.not_lt.mp fun more => ?_
  rcases (placed.rounded.lt_iff _).mp more with beyond | ⟨middle, _⟩
  · push_cast at beyond
    linarith
  · push_cast at middle
    linarith

theorem Placed.significand_full {units : ℚ} {s p : Nat} (placed : Placed units s p) :
    p = 0 ∨ 2 ^ 52 ≤ s := by
  refine placed.quotient_full.imp_right fun full => ?_
  have more := (placed.rounded.lt_iff (2 ^ 52 - 1)).mpr (.inl (by norm_num at full ⊢; linarith))
  omega

theorem Placed.lt_iff {units : ℚ} {s p m k : Nat} (placed : Placed units s p)
    (canonical : Canonical m k) : m * 2 ^ k < s * 2 ^ p ↔ Beyond units m k := by
  have scale : (0 : ℚ) < 2 ^ k := by positivity
  rcases Nat.lt_trichotomy k p with lower | rfl | higher
  · -- At higher places both sides hold.
    have nonzero : p ≠ 0 := by omega
    have next : ((m + 1) * 2 ^ k : ℚ) ≤ 2 ^ 52 * 2 ^ p := by
      exact_mod_cast next_le_of_places_lt canonical.lt le_rfl lower
    have most := placed.full.resolve_left nonzero
    rw [pow_add] at most
    refine iff_of_true ?_ (.inl (by linarith))
    rw [canonical.lt_iff placed.significand_le placed.significand_full]
    exact next_le_of_places_lt canonical.lt (placed.significand_full.resolve_left nonzero) lower
  · rw [Nat.mul_lt_mul_right (Nat.two_pow_pos k), placed.rounded.lt_iff, lt_div_iff₀ scale,
      div_eq_iff scale.ne']
    rfl
  · -- At lower places neither does.
    have full := canonical.full.resolve_right (by omega)
    have most : (2 ^ 53 * 2 ^ p : ℚ) ≤ m * 2 ^ k := by
      exact_mod_cast le_of_places_lt le_rfl full higher
    have less := placed.lt
    rw [pow_add] at less
    refine iff_of_false (Nat.not_lt.mpr (le_of_places_lt placed.significand_le full higher)) ?_
    rintro (beyond | ⟨middle, _⟩) <;> linarith

theorem placed_roundDiv {num den places : Nat} (positive : 0 < den)
    (least : places = Nat.log2 (num / den) - 52) :
    Placed (num / den) (roundDiv num (den * Nat.pow 2 places)) places := by
  have scale : (0 : ℚ) < den := Nat.cast_pos.mpr positive
  refine ⟨?_, ?_, ?_⟩
  · -- The division by the last place is made together with the other.
    have same : (num / den / 2 ^ places : ℚ) = num / (den * Nat.pow 2 places : Nat) := by
      rw [div_div]
      norm_num
    rw [same]
    exact roundDiv_rounded (Nat.mul_pos positive (Nat.two_pow_pos places))
  · rw [div_lt_iff₀ scale]
    have less : num < 2 ^ (53 + places) * den := by
      refine (Nat.div_lt_iff_lt_mul positive).mp (Nat.lt_log2_self.trans_le ?_)
      exact Nat.pow_le_pow_right two_pos (by omega)
    exact_mod_cast less
  · refine (Nat.eq_zero_or_pos places).imp_right fun more => ?_
    rw [le_div_iff₀ scale]
    have le : 2 ^ (52 + places) * den ≤ num := by
      refine (Nat.le_div_iff_mul_le positive).mp ?_
      rw [show 52 + places = Nat.log2 (num / den) by omega]
      refine Nat.log2_self_le fun zero => ?_
      simp [least, zero] at more
    exact_mod_cast le

/-! ## Patterns -/

theorem Binary64.units?_ofBits {bits : Nat} (finite : bits < 2047 * 2 ^ 52) :
    (Binary64.mk bits.toUInt64).units? =
      some (if bits < 2 ^ 52 then bits
        else (2 ^ 52 + bits % 2 ^ 52) * 2 ^ (bits / 2 ^ 52 - 1)) := by
  have same : bits.toUInt64.toNat = bits := UInt64.toNat_ofNat_of_lt' (by
    rw [UInt64.size]
    omega)
  have positive : ¬ signBit ≤ bits := by
    rw [signBit]
    omega
  have biased : bits / hiddenBit % 2048 = bits / 2 ^ 52 := by
    rw [hiddenBit]
    omega
  have fraction : bits % hiddenBit = bits % 2 ^ 52 := rfl
  rw [units?, value, same, biased, fraction, decide_eq_false positive, if_neg (by omega)]
  by_cases small : bits < 2 ^ 52
  · rw [if_pos (by omega), if_pos small, Nat.mod_eq_of_lt small]
    simp
  · rw [if_neg (by omega), if_neg small]
    have places : ((bits / 2 ^ 52 : Nat) - 1075 - leastExponent : Int).toNat =
        bits / 2 ^ 52 - 1 := by
      rw [leastExponent]
      omega
    simp only [places]
    rfl

/-- A significand at its places is its own pattern, and one more at the next power of two is the
pattern of the next exponent. -/
theorem Binary64.units?_pattern {s p : Nat} (small : s ≤ 2 ^ 53) (full : p = 0 ∨ 2 ^ 52 ≤ s)
    (finite : p * hiddenBit + s < 2047 * 2 ^ 52) :
    (Binary64.mk (p * hiddenBit + s).toUInt64).units? = some (s * 2 ^ p) := by
  rw [units?_ofBits finite]
  rw [hiddenBit] at finite ⊢
  rcases Nat.lt_or_ge s (2 ^ 52) with subnormal | normal
  · obtain rfl := full.resolve_right (Nat.not_le.mpr subnormal)
    rw [if_pos (by omega)]
    simp
  · rw [if_neg (by omega)]
    rcases Nat.lt_or_ge s (2 ^ 53) with less | carried
    · have fraction : (p * 0x10000000000000 + s) % 2 ^ 52 = s - 2 ^ 52 := by omega
      have places : (p * 0x10000000000000 + s) / 2 ^ 52 - 1 = p := by omega
      rw [fraction, places, Nat.add_sub_cancel' normal]
    · obtain rfl := Nat.le_antisymm small carried
      have fraction : (p * 0x10000000000000 + 2 ^ 53) % 2 ^ 52 = 0 := by omega
      have places : (p * 0x10000000000000 + 2 ^ 53) / 2 ^ 52 - 1 = p + 1 := by omega
      rw [fraction, places, Nat.add_zero, ← pow_add, ← pow_add,
        show 52 + (p + 1) = 53 + p by omega]

theorem Binary64.units?_of_not_finite {x : Binary64}
    (infinite : x.bits.toNat / hiddenBit % 2048 = 2047) : x.units? = none := by
  rw [units?, value, if_pos infinite]
  by_cases zero : x.bits.toNat % hiddenBit = 0
  · rw [if_pos zero]
  · rw [if_neg zero]

theorem Binary64.value_canonical {x : Binary64}
    (finite : x.bits.toNat / hiddenBit % 2048 ≠ 2047) :
    ∃ significand places : Nat, Canonical significand places ∧
      x.value = .finite (decide (signBit ≤ x.bits.toNat)) significand
        (places + leastExponent) := by
  have fraction : x.bits.toNat % hiddenBit < 2 ^ 52 := Nat.mod_lt _ (by decide)
  have biased : x.bits.toNat / hiddenBit % 2048 < 2048 := Nat.mod_lt _ (by decide)
  rw [value, if_neg finite]
  generalize x.bits.toNat % hiddenBit = low at *
  generalize x.bits.toNat / hiddenBit % 2048 = high at *
  by_cases subnormal : high = 0
  · rw [if_pos subnormal]
    exact ⟨low, 0, ⟨by omega, .inr rfl, by omega⟩, by simp⟩
  · have places : (high : Int) - 1075 = (high - 1 : Nat) + leastExponent := by
      rw [leastExponent]
      omega
    rw [if_neg subnormal, places]
    exact ⟨2 ^ 52 + low, high - 1, ⟨by omega, .inl (by omega), by omega⟩, rfl⟩

theorem Binary64.canonical_of_units? {x : Binary64} {own : Nat} (measured : x.units? = some own) :
    ∃ significand places : Nat, Canonical significand places ∧
      x.value = .finite false significand (places + leastExponent) ∧
      own = significand * 2 ^ places := by
  by_cases infinite : x.bits.toNat / hiddenBit % 2048 = 2047
  · rw [units?_of_not_finite infinite] at measured
    cases measured
  · obtain ⟨significand, places, canonical, shape⟩ := value_canonical infinite
    rw [units?, shape] at measured
    generalize decide (signBit ≤ x.bits.toNat) = negative at measured shape
    cases negative with
    | true => cases measured
    | false =>
      cases measured
      exact ⟨significand, places, canonical, shape, by rw [Int.add_sub_cancel]; rfl⟩

theorem Binary64.units?_le {x : Binary64} {own : Nat} (measured : x.units? = some own) :
    own ≤ (2 ^ 53 - 1) * 2 ^ 2045 := by
  obtain ⟨significand, places, canonical, -, rfl⟩ := canonical_of_units? measured
  gcongr
  · exact Nat.le_sub_one_of_lt canonical.lt
  · norm_num
  · exact canonical.le

theorem Binary64.units?_infinity : Binary64.infinity.units? = none := rfl

theorem Binary64.exceeds_of_units? {x : Binary64} {own : Nat} (measured : x.units? = some own)
    (units : Nat) : x.Exceeds units ↔ units < own := by
  refine ⟨?_, fun less => .inr ⟨own, measured, less⟩⟩
  rintro (rfl | ⟨other, same, less⟩)
  · simp [units?_infinity] at measured
  · obtain rfl : own = other := by simpa [measured] using same
    exact less

theorem Binary64.units?_of_signed {x : Binary64} (sign : signBit ≤ x.bits.toNat) :
    x.units? = none := by
  by_cases infinite : x.bits.toNat / hiddenBit % 2048 = 2047
  · exact units?_of_not_finite infinite
  · obtain ⟨significand, places, -, shape⟩ := value_canonical infinite
    rw [units?, shape, decide_eq_true sign]

theorem Binary64.bits_lt_of_units? {x : Binary64} {own : Nat} (measured : x.units? = some own) :
    x.bits.toNat < signBit := by
  refine Nat.not_le.mp fun sign => ?_
  rw [units?_of_signed sign] at measured
  cases measured

theorem Rounds.units?_negate {units : ℚ} {x : Binary64} (rounds : Rounds units x) :
    x.negate.units? = none := by
  rcases rounds.measured with rfl | ⟨own, measured⟩
  · rfl
  · have small : x.bits.toNat < 2 ^ 63 := Binary64.bits_lt_of_units? measured
    have high : (x.bits.toNat ^^^ 2 ^ 63) / 2 ^ 63 = 1 := by
      rw [Nat.xor_div_two_pow, Nat.div_eq_of_lt small, Nat.div_self (Nat.two_pow_pos 63)]
      rfl
    refine Binary64.units?_of_signed ?_
    rw [Binary64.negate, UInt64.toNat_xor, Binary64.signBit]
    change _ ≤ x.bits.toNat ^^^ 2 ^ 63
    omega

/-- A number of units that has all doubles below it rounds to infinity. -/
theorem rounds_infinity {units : ℚ}
    (large : ∀ {m k : Nat}, Canonical m k → Beyond units m k) : Rounds units .infinity :=
  ⟨.inl rfl, fun canonical => iff_of_true (.inl rfl) (large canonical)⟩

theorem rounds_of_units? {units : ℚ} {x : Binary64} {own : Nat} (measured : x.units? = some own)
    (lt_iff : ∀ {m k : Nat}, Canonical m k → (m * 2 ^ k < own ↔ Beyond units m k)) :
    Rounds units x :=
  ⟨.inr ⟨own, measured⟩, fun canonical =>
    (Binary64.exceeds_of_units? measured _).trans (lt_iff canonical)⟩

theorem ofUnits_rounds {num den : Nat} (positive : 0 < den) :
    Rounds (num / den) (.ofUnits num den) := by
  rw [Binary64.ofUnits]
  generalize least : Nat.log2 (num / den) - 52 = p
  have placed := placed_roundDiv positive least.symm
  generalize roundDiv num (den * Nat.pow 2 p) = s at placed ⊢
  have small := placed.significand_le
  simp only [show Binary64.infinity.bits.toNat = 2047 * 2 ^ 52 from rfl]
  by_cases finite : p * Binary64.hiddenBit + s < 2047 * 2 ^ 52
  · rw [if_pos finite]
    exact rounds_of_units? (Binary64.units?_pattern small placed.significand_full finite)
      placed.lt_iff
  · -- What overflows is the carry of the largest significand, or has too many places.
    rw [if_neg finite]
    refine rounds_infinity fun {m k} canonical => (placed.lt_iff canonical).mp ?_
    rw [Binary64.hiddenBit] at finite
    calc m * 2 ^ k < 2 ^ 53 * 2 ^ k := by
          exact Nat.mul_lt_mul_of_pos_right canonical.lt (Nat.two_pow_pos k)
      _ ≤ s * 2 ^ p := by
          rcases Nat.lt_or_ge k p with lower | same
          · exact next_le_of_places_lt (m := 2 ^ 53 - 1) (by norm_num)
              (placed.significand_full.resolve_left (by omega)) lower
          · have := canonical.le
            obtain ⟨rfl, rfl⟩ : s = 2 ^ 53 ∧ k = p := by omega
            exact le_rfl

/-! ## Decimals -/

theorem lt_pow_length_digits (n : Nat) : n < 10 ^ (digits n).length :=
  (Nat.length_toDigits_le_iff (by decide) Nat.length_toDigits_pos).mp le_rfl

theorem pow_length_digits_le {n : Nat} (nonzero : n ≠ 0) : 10 ^ ((digits n).length - 1) ≤ n := by
  refine Nat.not_lt.mp fun less => ?_
  rcases Nat.eq_zero_or_pos ((digits n).length - 1) with single | more
  · simp [single, nonzero] at less
  · have shorter := (Nat.length_toDigits_le_iff (by decide) more).mpr less
    rw [← digits] at shorter
    omega

/-- At most half of the least double: in the middle, zero is the even one. -/
theorem rounds_zero {units : ℚ} (small : units ≤ 1 / 2) : Rounds units .zero := by
  refine @rounds_of_units? _ _ 0 rfl fun {m k} _ => iff_of_false (Nat.not_lt_zero _) ?_
  have scale : (1 : ℚ) ≤ 2 ^ k := one_le_pow₀ one_le_two
  rintro (beyond | ⟨middle, odd⟩)
  · have : (1 / 2 : ℚ) * 1 ≤ (m + 1 / 2) * 2 ^ k := by gcongr; linarith [m.cast_nonneg (α := ℚ)]
    linarith
  · have one : (1 : ℚ) ≤ m := by exact_mod_cast odd.pos
    have : (1 + 1 / 2 : ℚ) * 1 ≤ (m + 1 / 2) * 2 ^ k := by gcongr
    linarith

theorem rounds_infinity_of_le {units : ℚ} (large : 2 ^ 53 * 2 ^ 2045 ≤ units) :
    Rounds units .infinity := by
  refine rounds_infinity fun {m k} canonical => .inl (lt_of_lt_of_le ?_ large)
  have most : (m : ℚ) + 1 ≤ 2 ^ 53 := by exact_mod_cast canonical.lt
  have scale : (2 : ℚ) ^ k ≤ 2 ^ 2045 := pow_le_pow_right₀ one_le_two canonical.le
  calc ((m : ℚ) + 1 / 2) * 2 ^ k < 2 ^ 53 * 2 ^ k := by gcongr; linarith
    _ ≤ 2 ^ 53 * 2 ^ 2045 := by gcongr

theorem two_pow_le_ten_pow {n : Nat} (small : n ≤ 3 * 400) : (2 : ℚ) ^ n ≤ 10 ^ 400 := by
  calc (2 : ℚ) ^ n ≤ 2 ^ (3 * 400) := pow_le_pow_right₀ one_le_two small
    _ = (2 ^ 3) ^ 400 := pow_mul 2 3 400
    _ ≤ 10 ^ 400 := by gcongr; norm_num

theorem decimal_lt (mantissa : Nat) (exponent : Int) :
    (mantissa : ℚ) * 10 ^ exponent < 10 ^ ((digits mantissa).length + exponent) := by
  rw [zpow_add₀ (by norm_num), zpow_natCast]
  refine mul_lt_mul_of_pos_right ?_ (zpow_pos (by norm_num) exponent)
  exact_mod_cast lt_pow_length_digits mantissa

theorem le_decimal {mantissa : Nat} (nonzero : mantissa ≠ 0) (exponent : Int) :
    (10 : ℚ) ^ ((digits mantissa).length + exponent - 1) ≤ mantissa * 10 ^ exponent := by
  have some : 0 < (digits mantissa).length := Nat.length_toDigits_pos
  have places : ((digits mantissa).length : Int) + exponent - 1 =
      ((digits mantissa).length - 1 : Nat) + exponent := by omega
  rw [places, zpow_add₀ (by norm_num), zpow_natCast]
  refine mul_le_mul_of_nonneg_right ?_ (zpow_pos (by norm_num) exponent).le
  exact_mod_cast pow_length_digits_le nonzero

theorem tiny_units {decimal : ℚ} (small : decimal ≤ 10 ^ (-400 : Int)) :
    decimal * 2 ^ 1074 ≤ 1 / 2 := by
  calc decimal * 2 ^ 1074 ≤ 10 ^ (-400 : Int) * 2 ^ 1074 := by gcongr
    _ ≤ 1 / 2 := by
      rw [zpow_neg, inv_mul_le_iff₀ (zpow_pos (by norm_num) _), zpow_ofNat,
        ← div_eq_mul_one_div, le_div_iff₀ two_pos, ← pow_succ]
      exact two_pow_le_ten_pow (by norm_num)

theorem huge_units {decimal : ℚ} (large : 10 ^ (400 : Int) ≤ decimal) :
    2 ^ 53 * 2 ^ 2045 ≤ decimal * 2 ^ 1074 := by
  calc (2 : ℚ) ^ 53 * 2 ^ 2045 = 2 ^ 1024 * 2 ^ 1074 := by rw [← pow_add, ← pow_add]
    _ ≤ 10 ^ (400 : Int) * 2 ^ 1074 := by
      rw [zpow_ofNat]
      gcongr
      exact two_pow_le_ten_pow (by norm_num)
    _ ≤ decimal * 2 ^ 1074 := by gcongr

/-- A decimal in units as a quotient, with one power of ten above and one below. -/
theorem decimal_units (mantissa : Nat) (exponent : Int) :
    (mantissa * 10 ^ exponent * 2 ^ 1074 : ℚ) =
      (mantissa * Nat.pow 10 exponent.toNat * Nat.pow 2 (-Binary64.leastExponent).toNat : Nat) /
        (Nat.pow 10 (-exponent).toNat : Nat) := by
  have ten : (10 : ℚ) ≠ 0 := by norm_num
  rw [zpow_eq_div ten, show (-Binary64.leastExponent).toNat = 1074 from rfl]
  simp only [Nat.pow_eq, Nat.cast_mul, Nat.cast_pow, Nat.cast_ofNat]
  rw [mul_div_assoc', div_mul_eq_mul_div]

/-- A decimal is read as the double nearest to it. What the bounds on its places cut off is far
from every double but zero, or beyond them all. -/
theorem nearest_rounds (mantissa : Nat) (exponent : Int) :
    Rounds (mantissa * 10 ^ exponent * 2 ^ 1074) (nearest mantissa exponent) := by
  have one_le : (1 : ℚ) ≤ 10 := by norm_num
  unfold nearest
  generalize places : (digits mantissa).length + exponent = magnitude
  by_cases tiny : mantissa = 0 ∨ magnitude < -400
  · rw [if_pos tiny]
    refine rounds_zero (tiny_units ?_)
    rcases tiny with rfl | tiny
    · rw [Nat.cast_zero, zero_mul]
      exact (zpow_pos (by norm_num) _).le
    · exact (decimal_lt mantissa exponent).le.trans
        (zpow_le_zpow_right₀ one_le (places ▸ tiny.le))
  rw [if_neg tiny]
  by_cases huge : 400 < magnitude
  · rw [if_pos huge]
    have nonzero := (not_or.mp tiny).1
    refine rounds_infinity_of_le (huge_units (le_trans ?_ (le_decimal nonzero exponent)))
    exact zpow_le_zpow_right₀ one_le (by omega)
  · rw [if_neg huge, decimal_units]
    exact ofUnits_rounds (Nat.pow_pos (by decide))

end TaskMonitor.Number
