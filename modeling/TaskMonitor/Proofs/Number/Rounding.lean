import Mathlib.Algebra.Order.Field.Rat
import Mathlib.Algebra.Ring.Parity
import Mathlib.Tactic.FieldSimp
import Mathlib.Tactic.Linarith
import Mathlib.Tactic.Ring
import TaskMonitor.Number.Fixed

/-! Rounding as a property of rational numbers: what is rounded is compared with whole numbers by
the middles between them. -/

set_option autoImplicit false

namespace TaskMonitor.Number

/-- The nearest whole number, of two the even one. -/
structure Rounded (n : Nat) (x : ℚ) : Prop where
  near : |x - n| ≤ 1 / 2
  even : |x - n| = 1 / 2 → Even n

theorem roundDiv_even {num den : Nat} (positive : 0 < den)
    (half : 2 * num = (2 * roundDiv num den + 1) * den ∨
      2 * (roundDiv num den * den) = 2 * num + den) : Even (roundDiv num den) := by
  have split := Nat.div_add_mod num den
  have small := Nat.mod_lt num positive
  have comm : num / den * den = den * (num / den) := Nat.mul_comm _ _
  rw [Nat.even_iff]
  unfold roundDiv at half ⊢
  generalize num / den = floor at *
  generalize num % den = left at *
  by_cases below : 2 * left < den ∨ (2 * left = den ∧ floor % 2 = 0)
  · simp only [if_pos below, Nat.add_mul, Nat.mul_assoc, Nat.one_mul] at half ⊢
    omega
  · simp only [if_neg below, Nat.add_mul, Nat.mul_add, Nat.mul_assoc, Nat.one_mul] at half ⊢
    omega

theorem roundDiv_rounded {num den : Nat} (positive : 0 < den) :
    Rounded (roundDiv num den) (num / den) := by
  obtain ⟨above, below⟩ := @roundDiv_near num den positive
  have even := @roundDiv_even num den positive
  generalize roundDiv num den = n at above below even
  have scale : (0 : ℚ) < den := Nat.cast_pos.mpr positive
  have above' : (2 * num : ℚ) ≤ (2 * n + 1) * den := by exact_mod_cast above
  have below' : (2 * (n * den) : ℚ) ≤ 2 * num + den := by exact_mod_cast below
  have most : (num : ℚ) / den - n ≤ 1 / 2 := by
    rw [sub_le_iff_le_add, div_le_iff₀ scale]
    linarith
  have least : -(1 / 2) ≤ (num : ℚ) / den - n := by
    rw [le_sub_iff_add_le, le_div_iff₀ scale]
    linarith
  refine ⟨abs_le.mpr ⟨least, most⟩, fun half => even ?_⟩
  rcases (abs_eq (by norm_num)).mp half with up | down
  · left
    rw [sub_eq_iff_eq_add, div_eq_iff scale.ne'] at up
    have : (2 * num : ℚ) = (2 * n + 1) * den := by linarith
    exact_mod_cast this
  · right
    rw [sub_eq_iff_eq_add, div_eq_iff scale.ne'] at down
    have : (2 * (n * den) : ℚ) = 2 * num + den := by linarith
    exact_mod_cast this

/-- What is rounded is beyond a whole number exactly if it was beyond the middle between that
number and the next, or in the middle and the next is even. -/
theorem Rounded.lt_iff {n : Nat} {x : ℚ} (rounded : Rounded n x) (m : Nat) :
    m < n ↔ m + 1 / 2 < x ∨ x = m + 1 / 2 ∧ Odd m := by
  obtain ⟨least, most⟩ := abs_le.mp rounded.near
  constructor
  · intro less
    have next : (m + 1 : ℚ) ≤ n := by exact_mod_cast less
    rcases (show m + 1 / 2 ≤ x by linarith).lt_or_eq with more | middle
    · exact .inl more
    · have single : (n : ℚ) = m + 1 := by linarith
      have same : n = m + 1 := by exact_mod_cast single
      have even := rounded.even (by rw [← middle, single]; norm_num)
      rw [same] at even
      exact .inr ⟨middle.symm, by simpa using Nat.even_add_one.mp even⟩
  · rintro (more | ⟨middle, odd⟩)
    · have : (m : ℚ) < n := by linarith
      exact_mod_cast this
    · by_contra notLess
      have below : (n : ℚ) ≤ m := by exact_mod_cast Nat.not_lt.mp notLess
      have single : (n : ℚ) = m := by linarith
      have same : n = m := by exact_mod_cast single
      have even := rounded.even (by rw [middle, single]; norm_num)
      rw [same] at even
      exact Nat.not_even_iff_odd.mpr odd even

theorem Rounded.pos_iff {n : Nat} {x : ℚ} (rounded : Rounded n x) : 0 < n ↔ 1 / 2 < x := by
  rw [rounded.lt_iff 0]
  norm_num

theorem zpow_eq_div {base : ℚ} (nonzero : base ≠ 0) (exponent : Int) :
    base ^ exponent = base ^ exponent.toNat / base ^ (-exponent).toNat := by
  rw [← zpow_natCast, ← zpow_natCast, ← zpow_sub₀ nonzero]
  congr 1
  omega

theorem scaled_rounded (places significand : Nat) (exponent : Int) :
    Rounded (scaled places significand exponent) (significand * 2 ^ exponent * 10 ^ places) := by
  have same : (significand * 2 ^ exponent * 10 ^ places : ℚ) =
      (significand * 10 ^ places * 2 ^ exponent.toNat : Nat) / (2 ^ (-exponent).toNat : Nat) := by
    rw [zpow_eq_div two_ne_zero]
    push_cast
    ring
  rw [same]
  exact roundDiv_rounded (Nat.two_pow_pos (-exponent).toNat)

end TaskMonitor.Number
