import AlkaliFw.Quantization
import AlkaliFw.Significand
import Mathlib.Tactic.Positivity

/-! The multiplier and the shift of a scale: which numbers they are, and how far what they stand for
is from the scale. -/

namespace AlkaliFw
open Significand

/-- What a multiplier and a shift stand for. -/
def representedScale (p : Int × Int) : ℚ := p.1 * 2 ^ (p.2 - 15)

section

variable {u v : ℚ}

theorem frexp_scaled (u : ℚ) : (frexp u).2 * 2 ^ 15 = scaled 14 u := by
  have split : (2 : ℚ) ^ ((14 : ℕ) - Int.log 2 u) = 2 ^ 15 / 2 ^ (Int.log 2 u + 1) := by
    rw [← zpow_natCast, ← zpow_sub₀ two_ne_zero]
    congr 1
    push_cast
    ring
  rw [scaled, split]
  change u / 2 ^ (Int.log 2 u + 1) * 2 ^ 15 = _
  ring

/-- The rounded fraction, halved again when it is one. -/
theorem normalized (positive : 0 < u) : ∃ m s : Int,
    (if round (scaled 14 u) = 2 ^ 15 then (round (scaled 14 u) / 2, Int.log 2 u + 1 + 1)
      else (round (scaled 14 u), Int.log 2 u + 1)) = (m, s) ∧
    2 ^ 14 ≤ m ∧ m < 2 ^ 15 ∧ representedScale (m, s) = rounded 14 u ∧ Int.log 2 u + 1 ≤ s ∧ s ≤ Int.log 2 u + 2 := by
  have least : 2 ^ 14 ≤ round (scaled 14 u) := le_round_scaled positive
  have most : round (scaled 14 u) ≤ 2 ^ 15 := round_scaled_le 14 u
  by_cases full : round (scaled 14 u) = 2 ^ 15
  · refine ⟨2 ^ 14, Int.log 2 u + 2, ?_, le_rfl, by norm_num, ?_, by omega, le_rfl⟩
    · rw [if_pos full, full]
      norm_num
      ring
    · rw [representedScale, rounded, full]
      have half : (2 : ℚ) ^ (Int.log 2 u + 2 - 15) = 2 ^ (Int.log 2 u - (14 : ℕ)) * 2 := by
        rw [← zpow_add_one₀ two_ne_zero]
        congr 1
        push_cast
        ring
      rw [half]
      push_cast
      ring
  · refine ⟨_, Int.log 2 u + 1, by rw [if_neg full], least, by omega, ?_, le_rfl, by omega⟩
    rw [representedScale, rounded]
    congr 2
    push_cast
    ring

/-- Both ways to flush a scale to zero in one: the shift is below `-15`. -/
theorem parameters_cases (positive : 0 < u) (finite : u < 2 ^ 32766) : ∃ m s : Int,
    2 ^ 14 ≤ m ∧ m < 2 ^ 15 ∧ representedScale (m, s) = rounded 14 u ∧ Int.log 2 u + 1 ≤ s ∧ s ≤ Int.log 2 u + 2 ∧
      s ≤ 32767 ∧ computeQuantizationParameters u = if s < -15 then (0, 0) else (m, s) := by
  obtain ⟨m, s, eq, least, most, value, low, high⟩ := normalized positive
  have few : Int.log 2 u < 32766 := by
    have power : (2 : ℚ) ^ Int.log 2 u < 2 ^ (32766 : Int) := (pow_log_le positive).trans_lt finite
    exact (zpow_lt_zpow_iff_right₀ one_lt_two).mp power
  refine ⟨m, s, least, most, value, low, high, by omega, ?_⟩
  have exponent : (frexp u).1 = Int.log 2 u + 1 := rfl
  rw [computeQuantizationParameters]
  dsimp only
  rw [exponent, frexp_scaled, eq]
  dsimp only
  split
  · rename_i tiny
    have power : (2 : ℚ) ^ Int.log 2 u < 2 ^ (-19 : Int) :=
      (pow_log_le positive).trans_lt (tiny.trans (by norm_num))
    have below := (zpow_lt_zpow_iff_right₀ one_lt_two).mp power
    rw [if_pos (by omega)]
  · split
    · rfl
    · simp only [toInt16, Prod.mk.injEq]
      omega

theorem rounded_small_iff {m s : Int} (least : 2 ^ 14 ≤ m) (most : m < 2 ^ 15) :
    representedScale (m, s) < 1 / 2 ^ 16 ↔ s < -15 := by
  have factor : (0 : ℚ) < 2 ^ (s - 15) := zpow_pos two_pos _
  have least' : (2 ^ 14 : ℚ) ≤ m := by exact_mod_cast least
  have most' : (m : ℚ) < 2 ^ 15 := by exact_mod_cast most
  rw [representedScale]
  constructor
  · intro small
    by_contra more
    have power : (2 : ℚ) ^ (-30 : Int) ≤ 2 ^ (s - 15) := zpow_le_zpow_right₀ one_le_two (by omega)
    norm_num at power small
    nlinarith
  · intro less
    have power : (2 : ℚ) ^ (s - 15) ≤ 2 ^ (-31 : Int) := zpow_le_zpow_right₀ one_le_two (by omega)
    norm_num at power ⊢
    nlinarith

/-- What the parameters stand for is the scale with 15 bits, or zero. -/
theorem representedScale_parameters (positive : 0 < u) (finite : u < 2 ^ 32766) :
    representedScale (computeQuantizationParameters u) = if rounded 14 u < 1 / 2 ^ 16 then 0 else rounded 14 u := by
  obtain ⟨m, s, least, most, value, -, -, -, eq⟩ := parameters_cases positive finite
  rw [← value, if_congr (rounded_small_iff least most) rfl rfl, eq]
  split
  · simp [representedScale]
  · rfl

/-- The parameters of a scale have the documented format. -/
structure FixedPoint (u : ℚ) (p : Int × Int) : Prop where
  multiplier : 2 ^ 14 ≤ p.1 ∧ p.1 < 2 ^ 15
  shift : -15 ≤ p.2
  error : |representedScale p - u| ≤ 2 ^ (p.2 - 16)
  relative : |representedScale p - u| ≤ u / 2 ^ 15

theorem parameters_fixedPoint (positive : 0 < u) (finite : u < 2 ^ 32766) :
    computeQuantizationParameters u = (0, 0) ∧ u < 1 / 2 ^ 16 ∨ FixedPoint u (computeQuantizationParameters u) := by
  obtain ⟨m, s, least, most, value, low, -, -, eq⟩ := parameters_cases positive finite
  rw [eq]
  split
  · rename_i below
    refine Or.inl ⟨rfl, ?_⟩
    calc u < 2 ^ (Int.log 2 u + 1) := lt_pow_log u
      _ ≤ 2 ^ (-16 : Int) := zpow_le_zpow_right₀ one_le_two (by omega)
      _ = 1 / 2 ^ 16 := by norm_num
  · refine Or.inr ⟨⟨least, most⟩, by omega, ?_, ?_⟩
    · rw [value]
      calc |rounded 14 u - u| ≤ 2 ^ (Int.log 2 u - (14 : ℕ)) / 2 := rounded_error 14 u
        _ = 2 ^ (Int.log 2 u - 15) := by
            rw [div_eq_mul_inv, ← zpow_neg_one, ← zpow_add₀ two_ne_zero]
            congr 1
            push_cast
            ring
        _ ≤ 2 ^ (s - 16) := zpow_le_zpow_right₀ one_le_two (by omega)
    · rw [value, le_div_iff₀ (by positivity)]
      exact rounded_relative 14 positive

theorem representedScale_mono (positive : 0 < u) (le : u ≤ v) (finite : v < 2 ^ 32766) :
    representedScale (computeQuantizationParameters u) ≤ representedScale (computeQuantizationParameters v) := by
  have order : rounded 14 u ≤ rounded 14 v := rounded_mono positive le
  have nonneg : 0 ≤ rounded 14 v :=
    (zpow_pos two_pos _).le.trans (pow_log_le_rounded (positive.trans_le le))
  rw [representedScale_parameters positive (le.trans_lt finite), representedScale_parameters (positive.trans_le le) finite]
  split
  · split
    · exact le_rfl
    · exact nonneg
  · rename_i large
    rw [if_neg fun small => large (order.trans_lt small)]
    exact order

end

/-- The positive finite values of a `double` are among these. -/
def FiniteScale (u : ℚ) : Prop := 0 < u ∧ u < 2 ^ 1024

theorem FiniteScale.lt {u : ℚ} (finite : FiniteScale u) : u < 2 ^ 32766 :=
  finite.2.trans (pow_lt_pow_right₀ one_lt_two (by decide))

theorem FiniteScale.of_lt {u : ℚ} (positive : 0 < u) (small : u < 2 ^ 8) : FiniteScale u :=
  ⟨positive, small.trans_le (pow_le_pow_right₀ one_le_two (by decide))⟩

/-- Of two scales: the format of the parameters, and their order. -/
theorem computeQuantizationParameters_approximates (scale1 scale2 : ℚ) (finite1 : FiniteScale scale1)
    (finite2 : FiniteScale scale2) :
    (computeQuantizationParameters scale1 = (0, 0) ∧ scale1 < 1 / 2 ^ 16 ∨
      FixedPoint scale1 (computeQuantizationParameters scale1)) ∧
    (scale1 ≤ scale2 → representedScale (computeQuantizationParameters scale1) ≤
      representedScale (computeQuantizationParameters scale2)) :=
  ⟨parameters_fixedPoint finite1.1 finite1.lt, fun le => representedScale_mono finite1.1 le finite2.lt⟩

/-- The first fraction is rounded up to one. -/
theorem carry_approximates :
    (computeQuantizationParameters (131071 / 131072) = (0, 0) ∧ (131071 / 131072 : ℚ) < 1 / 2 ^ 16 ∨
      FixedPoint (131071 / 131072) (computeQuantizationParameters (131071 / 131072))) ∧
    ((131071 / 131072 : ℚ) ≤ 3 → representedScale (computeQuantizationParameters (131071 / 131072)) ≤
      representedScale (computeQuantizationParameters 3)) :=
  computeQuantizationParameters_approximates (131071 / 131072) 3
    (.of_lt (by norm_num) (by norm_num)) (.of_lt (by norm_num) (by norm_num))

end AlkaliFw
