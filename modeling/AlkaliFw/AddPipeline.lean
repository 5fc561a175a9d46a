import AlkaliFw.Requantization

/-! The addition of two quantized elements does not overflow, neither in `simulateRealValue` nor in the
operations on the accumulator. -/

namespace AlkaliFw
open Significand

section Parameters

variable {u : ℚ}

theorem multiplier_bounds (positive : 0 < u) (finite : u < 2 ^ 32766) :
    0 ≤ (computeQuantizationParameters u).1 ∧ (computeQuantizationParameters u).1 < 2 ^ 15 := by
  rcases parameters_fixedPoint positive finite with ⟨none, -⟩ | format
  · rw [none]
    norm_num
  · exact ⟨by have := format.multiplier.1; omega, format.multiplier.2⟩

theorem le_shift (positive : 0 < u) (finite : u < 2 ^ 32766) : -15 ≤ (computeQuantizationParameters u).2 := by
  rcases parameters_fixedPoint positive finite with ⟨none, -⟩ | format
  · rw [none]
    norm_num
  · exact format.shift

/-- A scale of at most one half is not shifted to the left. -/
theorem shift_nonpos (positive : 0 < u) (half : u ≤ 1 / 2) : (computeQuantizationParameters u).2 ≤ 0 := by
  have small : (1 / 2 : ℚ) < 2 ^ 32766 := one_half_lt_one.trans_le (one_le_pow₀ one_le_two)
  have order := representedScale_mono positive half small
  have largest : computeQuantizationParameters (1 / 2) = (2 ^ 14, 0) := by decide +kernel
  rcases parameters_fixedPoint positive (half.trans_lt small) with ⟨none, -⟩ | format
  · rw [none]
  · rw [largest] at order
    by_contra left
    have power : (2 : ℚ) ^ (-14 : Int) ≤ 2 ^ ((computeQuantizationParameters u).2 - 15) :=
      zpow_le_zpow_right₀ one_le_two (by omega)
    have least : (2 ^ 14 : ℚ) ≤ (computeQuantizationParameters u).1 := by exact_mod_cast format.multiplier.1
    have product : (2 : ℚ) ^ 14 * 2 ^ (-14 : Int) ≤ representedScale (computeQuantizationParameters u) :=
      mul_le_mul least power (by positivity) ((by positivity : (0 : ℚ) ≤ 2 ^ 14).trans least)
    have value : representedScale (2 ^ 14, 0) = 1 / 2 := by
      rw [representedScale]
      norm_num
    rw [value] at order
    norm_num at product
    linarith

end Parameters

section Inputs

/-- The quantization of an input, as the constructor computes it. -/
theorem scaleQuantization_input {z a : Int} {u : ℚ} (z_byte : IsInt8 z) (a_byte : IsInt8 a) (positive : 0 < u)
    (half : u ≤ 1 / 2) : SimulateInput a (scaleQuantization (-z) u) where
  byte := a_byte
  offset := by
    obtain ⟨low, high⟩ := z_byte
    change -127 ≤ -z ∧ -z ≤ 128
    omega
  multiplier := multiplier_bounds positive (half.trans_lt (one_half_lt_one.trans_le (one_le_pow₀ one_le_two)))
  shift := shift_nonpos positive half

/-- A scale as a part of twice the larger one. -/
theorem inputScale_bounds {s larger : ℚ} (positive : 0 < s) (le : s ≤ larger) :
    0 < s / (2 * larger) ∧ s / (2 * larger) ≤ 1 / 2 := by
  have := positive.trans_le le
  refine ⟨by positivity, ?_⟩
  rw [div_le_div_iff₀ (by positivity) (by norm_num)]
  linarith

end Inputs

/-- What the operations of the addition of one element keep within their types. -/
structure AddFits (in1 in2 out : TensorParams) (a b : Int) : Prop where
  input1 : SimulateFits a (aluQuantization in1 in2 out).input1quant
  input2 : SimulateFits b (aluQuantization in1 in2 out).input2quant
  sum : FitsInt32 (sumOf in1 in2 out a b)
  product : FitsInt32 (sumOf in1 in2 out a b * (aluQuantization in1 in2 out).outputquant.multiplier)
  shifted : (aluQuantization in1 in2 out).outputquant.shift ≤ 15 →
    0 ≤ 15 - (aluQuantization in1 in2 out).outputquant.shift ∧
    15 - (aluQuantization in1 in2 out).outputquant.shift ≤ 30 ∧
    FitsInt32 ((sumOf in1 in2 out a b * (aluQuantization in1 in2 out).outputquant.multiplier) >>>
      (15 - (aluQuantization in1 in2 out).outputquant.shift).toNat + (aluQuantization in1 in2 out).outputquant.offset)

/-- `real_out_multiplier`. -/
def realOutMultiplier (in1 in2 out : TensorParams) : ℚ :=
  2 * max in1.scale in2.scale / (2 ^ leftShift * out.scale)

/-- The parameters of a power of two. -/
theorem parameters_of_power {k : Int} (nonneg : 0 ≤ k) :
    computeQuantizationParameters (2 ^ k) = (2 ^ 14, toInt16 (k + 1)) := by
  have log : Int.log 2 ((2 : ℚ) ^ k) = k := by exact_mod_cast Int.log_zpow (R := ℚ) one_lt_two k
  have fraction : scaled 14 ((2 : ℚ) ^ k) = (2 ^ 14 : Int) := by
    rw [scaled, log, ← zpow_add₀ two_ne_zero, add_sub_cancel]
    norm_num
  have exponent : (frexp (2 ^ k)).1 = k + 1 := by
    change Int.log 2 ((2 : ℚ) ^ k) + 1 = k + 1
    rw [log]
  have large : ¬(2 : ℚ) ^ k < 1 / 10 ^ 6 :=
    not_lt.mpr (le_trans (by norm_num) (one_le_zpow₀ one_le_two nonneg))
  rw [computeQuantizationParameters, if_neg large]
  dsimp only
  rw [frexp_scaled, fraction, round_intCast, exponent, if_neg (show ¬(2 ^ 14 : Int) = 2 ^ 15 by norm_num)]
  dsimp only
  rw [if_neg (by omega)]
  rfl

theorem realOutMultiplier_of_power (k : Int) :
    realOutMultiplier ⟨2 ^ (k + 6), 0⟩ ⟨2 ^ (k + 6), 0⟩ ⟨1, 0⟩ = 2 ^ k := by
  rw [realOutMultiplier, max_self, leftShift, mul_one, zpow_add₀ two_ne_zero]
  norm_num
  ring

end AlkaliFw
