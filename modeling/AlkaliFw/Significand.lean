import Mathlib

/-! Positive numbers, rounded to a number of significant bits. -/

namespace Significand

variable {K : Type*} [Field K] [LinearOrder K] [IsStrictOrderedRing K] [FloorRing K]

/-- The number with its first bit moved to place `b`. -/
def scaled (b : ℕ) (u : K) : K := u * 2 ^ ((b : ℤ) - Int.log 2 u)

/-- The number rounded to `b + 1` bits. -/
def rounded (b : ℕ) (u : K) : K := round (scaled b u) * 2 ^ (Int.log 2 u - b)

section

variable {b : ℕ} {u v : K}

theorem round_monotone : Monotone (round : K → ℤ) := by
  intro u v le
  rw [round_eq, round_eq]
  exact Int.floor_mono (by linarith)

theorem pow_log_le (positive : 0 < u) : (2 : K) ^ Int.log 2 u ≤ u := by
  exact_mod_cast Int.zpow_log_le_self (by norm_num) positive

theorem lt_pow_log (u : K) : u < (2 : K) ^ (Int.log 2 u + 1) := by
  exact_mod_cast Int.lt_zpow_succ_log_self (by norm_num) u

theorem scaled_mul (b : ℕ) (u : K) : scaled b u * 2 ^ (Int.log 2 u - b) = u := by
  rw [scaled, mul_assoc, ← zpow_add₀ two_ne_zero, show (b : ℤ) - Int.log 2 u + (Int.log 2 u - b) = 0 by ring,
    zpow_zero, mul_one]

theorem le_scaled (positive : 0 < u) : (2 : K) ^ b ≤ scaled b u := by
  have factor : (0 : K) < 2 ^ ((b : ℤ) - Int.log 2 u) := zpow_pos two_pos _
  calc (2 : K) ^ b = 2 ^ Int.log 2 u * 2 ^ ((b : ℤ) - Int.log 2 u) := by
        rw [← zpow_add₀ two_ne_zero, add_sub_cancel, zpow_natCast]
    _ ≤ scaled b u := mul_le_mul_of_nonneg_right (pow_log_le positive) factor.le

theorem scaled_lt (b : ℕ) (u : K) : scaled b u < 2 ^ (b + 1) := by
  have factor : (0 : K) < 2 ^ ((b : ℤ) - Int.log 2 u) := zpow_pos two_pos _
  calc scaled b u < 2 ^ (Int.log 2 u + 1) * 2 ^ ((b : ℤ) - Int.log 2 u) :=
        mul_lt_mul_of_pos_right (lt_pow_log u) factor
    _ = 2 ^ (b + 1) := by
        rw [← zpow_add₀ two_ne_zero, show Int.log 2 u + 1 + ((b : ℤ) - Int.log 2 u) = (b + 1 : ℕ) by push_cast; ring,
          zpow_natCast]

/-- Rounding does not go past a power of two. -/
theorem le_round_scaled (positive : 0 < u) : 2 ^ b ≤ round (scaled b u) := by
  have exact : round ((2 ^ b : ℤ) : K) = 2 ^ b := round_intCast _
  rw [← exact]
  refine round_monotone ?_
  rw [Int.cast_pow, Int.cast_two]
  exact le_scaled positive

theorem round_scaled_le (b : ℕ) (u : K) : round (scaled b u) ≤ 2 ^ (b + 1) := by
  have exact : round ((2 ^ (b + 1) : ℤ) : K) = 2 ^ (b + 1) := round_intCast _
  rw [← exact]
  refine round_monotone ?_
  rw [Int.cast_pow, Int.cast_two]
  exact (scaled_lt b u).le

theorem rounded_error (b : ℕ) (u : K) : |rounded b u - u| ≤ 2 ^ (Int.log 2 u - b) / 2 := by
  have factor : (0 : K) < 2 ^ (Int.log 2 u - b) := zpow_pos two_pos _
  have difference : u - rounded b u = (scaled b u - round (scaled b u)) * 2 ^ (Int.log 2 u - b) := by
    rw [sub_mul, scaled_mul, rounded]
  calc |rounded b u - u| = |scaled b u - round (scaled b u)| * 2 ^ (Int.log 2 u - b) := by
        rw [abs_sub_comm, difference, abs_mul, abs_of_pos factor]
    _ ≤ 1 / 2 * 2 ^ (Int.log 2 u - b) := mul_le_mul_of_nonneg_right (abs_sub_round _) factor.le
    _ = 2 ^ (Int.log 2 u - b) / 2 := by ring

/-- Relative to the number, which is at least its first bit. -/
theorem rounded_relative (b : ℕ) (positive : 0 < u) : |rounded b u - u| * 2 ^ (b + 1) ≤ u := by
  have power : (2 : K) ^ (Int.log 2 u - b) / 2 * 2 ^ (b + 1) = 2 ^ Int.log 2 u := by
    rw [zpow_sub₀ two_ne_zero, zpow_natCast, pow_succ]
    field_simp
  calc |rounded b u - u| * 2 ^ (b + 1) ≤ 2 ^ (Int.log 2 u - b) / 2 * 2 ^ (b + 1) :=
        mul_le_mul_of_nonneg_right (rounded_error b u) (pow_nonneg zero_le_two _)
    _ = 2 ^ Int.log 2 u := power
    _ ≤ u := pow_log_le positive

theorem pow_log_le_rounded (positive : 0 < u) : (2 : K) ^ Int.log 2 u ≤ rounded b u := by
  have factor : (0 : K) < 2 ^ (Int.log 2 u - b) := zpow_pos two_pos _
  have least : (2 : K) ^ b ≤ round (scaled b u) := by exact_mod_cast le_round_scaled positive
  calc (2 : K) ^ Int.log 2 u = 2 ^ b * 2 ^ (Int.log 2 u - b) := by
        rw [← zpow_natCast, ← zpow_add₀ two_ne_zero, add_sub_cancel]
    _ ≤ rounded b u := mul_le_mul_of_nonneg_right least factor.le

theorem rounded_le_pow_log (b : ℕ) (u : K) : rounded b u ≤ 2 ^ (Int.log 2 u + 1) := by
  have factor : (0 : K) < 2 ^ (Int.log 2 u - b) := zpow_pos two_pos _
  have most : (round (scaled b u) : K) ≤ 2 ^ (b + 1) := by exact_mod_cast round_scaled_le b u
  calc rounded b u ≤ 2 ^ (b + 1) * 2 ^ (Int.log 2 u - b) := mul_le_mul_of_nonneg_right most factor.le
    _ = 2 ^ (Int.log 2 u + 1) := by
        rw [← zpow_natCast, ← zpow_add₀ two_ne_zero,
          show ((b + 1 : ℕ) : ℤ) + (Int.log 2 u - b) = Int.log 2 u + 1 by push_cast; ring]

/-- Numbers with the same first bit are rounded alike, and others have a power of two between them. -/
theorem rounded_mono (positive : 0 < u) (le : u ≤ v) : rounded b u ≤ rounded b v := by
  have logs : Int.log 2 u ≤ Int.log 2 v := Int.log_mono_right positive le
  rcases logs.eq_or_lt with same | less
  · have factor : (0 : K) < 2 ^ ((b : ℤ) - Int.log 2 v) := zpow_pos two_pos _
    have factor' : (0 : K) < 2 ^ (Int.log 2 v - b) := zpow_pos two_pos _
    rw [rounded, rounded, scaled, scaled, same]
    have rounds := round_monotone (mul_le_mul_of_nonneg_right le factor.le)
    exact mul_le_mul_of_nonneg_right (Int.cast_le.mpr rounds) factor'.le
  · calc rounded b u ≤ 2 ^ (Int.log 2 u + 1) := rounded_le_pow_log b u
      _ ≤ 2 ^ Int.log 2 v := zpow_le_zpow_right₀ one_le_two less
      _ ≤ rounded b v := pow_log_le_rounded (positive.trans_le le)

end

end Significand
