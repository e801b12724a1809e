import Mathlib.Logic.ExistsUnique
import TaskMonitor.Session.Basic

/-! The order of sequence numbers. They wrap around, so that each of them has as many numbers
behind it as ahead of it, and one opposite, which is neither. -/

set_option autoImplicit false

namespace TaskMonitor.Session

/-! ## Counting on from a number -/

/-- How far the first number lies behind the second, counting on and around. -/
def lag (first second : UInt32) : Nat :=
  (UInt32.size - first.toNat + second.toNat) % UInt32.size

theorem lag_lt (first second : UInt32) : lag first second < UInt32.size :=
  Nat.mod_lt _ (by decide)

theorem toNat_sub_eq_lag (first second : UInt32) : (second - first).toNat = lag first second :=
  UInt32.toNat_sub second first

theorem lag_eq_iff {first second : UInt32} {distance : Nat} (small : distance < UInt32.size) :
    lag first second = distance ↔ first + .ofNat distance = second := by
  rw [← toNat_sub_eq_lag, ← UInt32.toNat_ofNat_of_lt' small, UInt32.toNat_inj,
    UInt32.ofNat_toNat, eq_comm, UInt32.eq_sub_iff_add_eq, UInt32.add_comm]

theorem add_lag (first second : UInt32) : first + .ofNat (lag first second) = second :=
  (lag_eq_iff (lag_lt first second)).mp rfl

theorem lag_sub (number : UInt32) {distance : Nat} (small : distance < UInt32.size) :
    lag (number - .ofNat distance) number = distance :=
  (lag_eq_iff small).mpr (UInt32.sub_add_cancel number _)

theorem lag_shift (first second shift : UInt32) :
    lag (first + shift) (second + shift) = lag first second := by
  refine (lag_eq_iff (lag_lt first second)).mpr ?_
  rw [UInt32.add_assoc, UInt32.add_comm shift, ← UInt32.add_assoc, add_lag]

/-- The numbers of two calls of a session lie as far apart as the calls, but for full turns. -/
theorem lag_ofNat {earlier number : Nat} (before : earlier ≤ number) :
    lag (.ofNat earlier) (.ofNat number) = (number - earlier) % UInt32.size := by
  refine (lag_eq_iff (Nat.mod_lt _ (by decide))).mpr ?_
  rw [UInt32.ofNat_mod_size, ← UInt32.ofNat_add, Nat.add_sub_cancel' before]

theorem lag_eq_zero_iff (first second : UInt32) : lag first second = 0 ↔ first = second := by
  rw [lag_eq_iff (by decide)]
  exact Iff.of_eq (congrArg (· = second) (UInt32.add_zero first))

theorem lag_add_lag {first second : UInt32} (apart : first ≠ second) :
    lag first second + lag second first = UInt32.size := by
  have low := first.toNat_lt_size
  have high := second.toNat_lt_size
  rw [ne_eq, ← UInt32.toNat_inj] at apart
  simp only [lag, UInt32.size] at low high ⊢
  omega

theorem lag_eq_half_iff (first second : UInt32) : lag first second = 0x80000000 ↔
    ((first.toNat : Int) - second.toNat).natAbs = 0x80000000 := by
  have low := first.toNat_lt_size
  have high := second.toNat_lt_size
  simp only [lag, UInt32.size] at low high ⊢
  omega

/-! ## Half of the numbers -/

theorem stale_iff_lag (got expected : UInt32) :
    isStale got expected ↔ 0 < lag got expected ∧ lag got expected < 0x80000000 := by
  simp only [isStale, decide_eq_true_eq, ne_eq, ← UInt32.toNat_inj, UInt32.le_iff_toNat_le,
    toNat_sub_eq_lag, UInt32.toNat_zero]
  exact and_congr Nat.pos_iff_ne_zero.symm Nat.lt_succ_iff.symm

theorem stale_iff_lag_back (got expected : UInt32) :
    isStale got expected ↔ 0x80000000 < lag expected got := by
  rw [stale_iff_lag]
  by_cases same : got = expected
  · rw [same, (lag_eq_zero_iff expected expected).mpr rfl]
    omega
  · have around := lag_add_lag same
    have short := lag_lt expected got
    simp only [UInt32.size] at around short
    omega

theorem stale_ofNat_iff {earlier number : Nat} (before : earlier ≤ number) :
    isStale (.ofNat earlier) (.ofNat number) ↔
      0 < (number - earlier) % UInt32.size ∧ (number - earlier) % UInt32.size < 0x80000000 := by
  rw [stale_iff_lag, lag_ofNat before]

theorem stale_ofNat {earlier number : Nat} (before : earlier < number)
    (near : number - earlier < 0x80000000) : isStale (.ofNat earlier) (.ofNat number) := by
  have turn : (number - earlier) % UInt32.size = number - earlier :=
    Nat.mod_eq_of_lt (Nat.lt_trans near (by decide))
  rw [stale_ofNat_iff (Nat.le_of_lt before), turn]
  exact ⟨Nat.sub_pos_of_lt before, near⟩

/-! ## How two numbers stand to each other -/

/-- Where the first of two numbers lies, seen from the second. -/
inductive Bearing where
  | same
  | behind
  | opposite
  | ahead
  deriving DecidableEq, Repr

/-- The numbers behind are the stale ones. Opposite numbers differ by half of all numbers. -/
def Bearing.Holds (first second : UInt32) : Bearing → Prop
  | .same => first = second
  | .behind => isStale first second
  | .opposite => ((first.toNat : Int) - second.toNat).natAbs = 0x80000000
  | .ahead => isStale second first

def Bearing.ofLag (lag : Nat) : Bearing :=
  if lag = 0 then .same
  else if lag < 0x80000000 then .behind
  else if lag = 0x80000000 then .opposite
  else .ahead

theorem Bearing.holds_iff (first second : UInt32) (bearing : Bearing) :
    bearing.Holds first second ↔ bearing = ofLag (lag first second) := by
  -- Each bearing is a range of the lag, and the ranges do not overlap.
  cases bearing with
  | same =>
    simp only [Holds, ofLag, ← lag_eq_zero_iff]
    grind
  | behind =>
    simp only [Holds, ofLag, stale_iff_lag]
    grind
  | opposite =>
    simp only [Holds, ofLag, ← lag_eq_half_iff]
    grind
  | ahead =>
    simp only [Holds, ofLag, stale_iff_lag_back]
    grind

/-- Staleness orders sequence numbers as far as counting that wraps around allows. The stale numbers
are those less than half of all numbers back. Of two different numbers exactly one is stale to the
other, unless they lie opposite each other, where neither is. Where the counting starts makes no
difference. -/
theorem stale_half_window :
    (∀ (expected : UInt32) (distance : Nat), 0 < distance → distance < UInt32.size →
      (isStale (expected - .ofNat distance) expected ↔ distance ≤ 0x7FFFFFFF)) ∧
    (∀ first second, ∃! bearing : Bearing, bearing.Holds first second) ∧
    ∀ first second shift, isStale (first + shift) (second + shift) = isStale first second := by
  refine ⟨fun expected distance positive small => ?_, fun first second => ?_,
    fun first second shift => ?_⟩
  · rw [stale_iff_lag, lag_sub expected small]
    omega
  · refine ⟨.ofLag (lag first second), ?_, fun bearing holds => ?_⟩
    · exact (Bearing.holds_iff first second _).mpr rfl
    · exact (Bearing.holds_iff first second bearing).mp holds
  · rw [Bool.eq_iff_iff, stale_iff_lag, stale_iff_lag, lag_shift]

/-- Back from a number after the wrap, the last stale number and the one before it. -/
theorem stale_half_window_wrapped :
    isStale (5 - .ofNat 0x7FFFFFFF) 5 ∧ ¬ isStale (5 - .ofNat 0x80000000) 5 := by
  have window := stale_half_window.1 5
  exact ⟨(window 0x7FFFFFFF (by decide) (by decide)).mpr (by decide),
    mt (window 0x80000000 (by decide) (by decide)).mp (by decide)⟩

end TaskMonitor.Session
