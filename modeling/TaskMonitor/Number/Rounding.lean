/-! Quotients rounded to the nearest whole number, halves going to the even neighbour. -/

set_option autoImplicit false

namespace TaskMonitor.Number

/-- The whole number nearest to `num / den`; of two equally near the even one. -/
def roundDiv (num den : Nat) : Nat :=
  let floor := num / den
  let twice := 2 * (num % den)
  if twice < den ∨ (twice = den ∧ floor % 2 = 0) then floor else floor + 1

theorem roundDiv_near {num den : Nat} (positive : 0 < den) :
    2 * num ≤ (2 * roundDiv num den + 1) * den ∧ 2 * (roundDiv num den * den) ≤ 2 * num + den := by
  have split := Nat.div_add_mod num den
  have small := Nat.mod_lt num positive
  unfold roundDiv
  generalize num / den = floor at *
  generalize num % den = left at *
  have comm : floor * den = den * floor := Nat.mul_comm _ _
  by_cases below : 2 * left < den ∨ (2 * left = den ∧ floor % 2 = 0)
  · simp only [if_pos below, Nat.add_mul, Nat.mul_assoc, Nat.one_mul]
    omega
  · simp only [if_neg below, Nat.add_mul, Nat.mul_add, Nat.mul_assoc, Nat.one_mul]
    omega

example : roundDiv 5 2 = 2 ∧ roundDiv 7 2 = 4 ∧ roundDiv 8 3 = 3 := by decide

end TaskMonitor.Number
