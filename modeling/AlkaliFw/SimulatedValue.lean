import AlkaliFw.Quantization
import Mathlib.Tactic.Linarith
import Mathlib.Tactic.Ring
import Mathlib.Tactic.Positivity
import Mathlib.Tactic.FieldSimp

/-! `simulateRealValue` step by step: what each of its variables holds, and how it rounds. -/

namespace AlkaliFw

/-- The values of an `int8_t`. -/
def IsInt8 (x : Int) : Prop := -128 ≤ x ∧ x ≤ 127

def FitsInt16 (x : Int) : Prop := -2 ^ 15 ≤ x ∧ x < 2 ^ 15

def FitsInt32 (x : Int) : Prop := -2 ^ 31 ≤ x ∧ x < 2 ^ 31

/-- The nudge of a product, which rounds it. -/
def nudge (n : Int) : Int := if n ≥ 0 then 2 ^ 14 else 1 - 2 ^ 14

section

variable (val : Int) (qdata : QuantizationData)

def valoffset : Int := toInt16 (toInt16 qdata.offset + val)

def valshift : Int := toInt16 (valoffset val qdata * 2 ^ leftShift)

def valscaledraw32 : Int := toInt32 (valshift val qdata * qdata.multiplier)

def valscaled : Int := toInt32 (valscaledraw32 val qdata + nudge (valscaledraw32 val qdata)) >>> (15 : Nat)

def saturates : Prop := valshift val qdata = qdata.multiplier ∧ valshift val qdata = -2 ^ 15

instance : Decidable (saturates val qdata) := inferInstanceAs (Decidable (_ ∧ _))

theorem simulateRealValue_valscaled :
    simulateRealValue val qdata =
      toInt16 ((if saturates val qdata then 2 ^ 15 - 1 else toInt16 (valscaled val qdata)) >>> (-qdata.shift).toNat) := rfl

/-- Nothing is lost on the way, and the saturation is not needed. -/
structure SimulateFits : Prop where
  offset : FitsInt16 qdata.offset
  sum : FitsInt16 (toInt16 qdata.offset + val)
  shifted : FitsInt16 (valoffset val qdata * 2 ^ leftShift)
  product : FitsInt32 (valshift val qdata * qdata.multiplier)
  nudged : FitsInt32 (valscaledraw32 val qdata + nudge (valscaledraw32 val qdata))
  shiftCount : 0 ≤ -qdata.shift
  unsaturated : ¬saturates val qdata
  scaled : FitsInt16 (valscaled val qdata)
  final : FitsInt16 (valscaled val qdata >>> (-qdata.shift).toNat)

end

theorem toInt16_of {x : Int} (low : -2 ^ 15 ≤ x) (high : x < 2 ^ 15) : toInt16 x = x := by
  rw [toInt16]
  omega

theorem toInt32_of {x : Int} (low : -2 ^ 31 ≤ x) (high : x < 2 ^ 31) : toInt32 x = x := by
  rw [toInt32]
  omega

theorem div_pow_bounds (y : Int) (t : Nat) : min y (-1) ≤ y / 2 ^ t ∧ y / 2 ^ t ≤ max y 0 := by
  have power : (0 : Int) < 2 ^ t := by positivity
  constructor
  · rw [Int.le_ediv_iff_mul_le power]
    by_cases neg : y < 0
    · rw [min_eq_left (by omega)]
      nlinarith
    · rw [min_eq_right (by omega)]
      omega
  · refine Int.ediv_le_of_le_mul power ?_
    by_cases neg : y < 0
    · rw [max_eq_right (by omega)]
      omega
    · rw [max_eq_left (by omega)]
      nlinarith

section Inputs

variable {val : Int} {qdata : QuantizationData}

/-- The arguments that a quantized input gives. -/
structure SimulateInput (val : Int) (qdata : QuantizationData) : Prop where
  byte : IsInt8 val
  offset : -127 ≤ qdata.offset ∧ qdata.offset ≤ 128
  multiplier : 0 ≤ qdata.multiplier ∧ qdata.multiplier < 2 ^ 15
  shift : qdata.shift ≤ 0

namespace SimulateInput

theorem valoffset_eq (h : SimulateInput val qdata) : valoffset val qdata = val + qdata.offset := by
  obtain ⟨⟨low, high⟩, ⟨offset_low, offset_high⟩, -, -⟩ := h
  rw [valoffset, toInt16_of (x := qdata.offset) (by omega) (by omega), toInt16_of (by omega) (by omega), add_comm]

theorem valshift_eq (h : SimulateInput val qdata) : valshift val qdata = 128 * (val + qdata.offset) := by
  obtain ⟨low, high⟩ := h.byte
  obtain ⟨offset_low, offset_high⟩ := h.offset
  rw [valshift, h.valoffset_eq, show (val + qdata.offset) * 2 ^ leftShift = 128 * (val + qdata.offset) by
    rw [leftShift]; ring]
  exact toInt16_of (by omega) (by omega)

/-- A multiplier times an input with its offset. -/
theorem product_bounds (h : SimulateInput val qdata) :
    -2 ^ 30 + 2 ^ 15 < 128 * ((val + qdata.offset) * qdata.multiplier) ∧
      128 * ((val + qdata.offset) * qdata.multiplier) < 2 ^ 30 - 2 ^ 15 := by
  obtain ⟨low, high⟩ := h.byte
  obtain ⟨offset_low, offset_high⟩ := h.offset
  obtain ⟨nonneg, small⟩ := h.multiplier
  have least : -255 * qdata.multiplier ≤ (val + qdata.offset) * qdata.multiplier :=
    mul_le_mul_of_nonneg_right (by omega) nonneg
  have most : (val + qdata.offset) * qdata.multiplier ≤ 255 * qdata.multiplier :=
    mul_le_mul_of_nonneg_right (by omega) nonneg
  constructor <;> omega

theorem valscaledraw32_eq (h : SimulateInput val qdata) :
    valscaledraw32 val qdata = 128 * ((val + qdata.offset) * qdata.multiplier) := by
  obtain ⟨low, high⟩ := h.product_bounds
  rw [valscaledraw32, h.valshift_eq, mul_assoc]
  exact toInt32_of (by omega) (by omega)

theorem nudged_bounds (h : SimulateInput val qdata) :
    -2 ^ 30 < valscaledraw32 val qdata + nudge (valscaledraw32 val qdata) ∧
      valscaledraw32 val qdata + nudge (valscaledraw32 val qdata) < 2 ^ 30 - 2 ^ 14 := by
  obtain ⟨low, high⟩ := h.product_bounds
  rw [h.valscaledraw32_eq, nudge]
  split <;> omega

theorem valscaled_eq (h : SimulateInput val qdata) :
    valscaled val qdata = (128 * ((val + qdata.offset) * qdata.multiplier) +
      nudge (128 * ((val + qdata.offset) * qdata.multiplier))) / 2 ^ 15 := by
  obtain ⟨low, high⟩ := h.nudged_bounds
  rw [valscaled, toInt32_of (by omega) (by omega), h.valscaledraw32_eq, Int.shiftRight_eq_div_pow]
  rfl

theorem valscaled_fits (h : SimulateInput val qdata) : FitsInt16 (valscaled val qdata) := by
  obtain ⟨low, high⟩ := h.nudged_bounds
  rw [h.valscaled_eq, ← h.valscaledraw32_eq, FitsInt16]
  omega

theorem unsaturated (h : SimulateInput val qdata) : ¬saturates val qdata := by
  obtain ⟨low, high⟩ := h.byte
  obtain ⟨offset_low, offset_high⟩ := h.offset
  rw [saturates, h.valshift_eq]
  omega

theorem final_fits (h : SimulateInput val qdata) : FitsInt16 (valscaled val qdata >>> (-qdata.shift).toNat) := by
  obtain ⟨low, high⟩ := h.valscaled_fits
  have bounds := div_pow_bounds (valscaled val qdata) (-qdata.shift).toNat
  rw [Int.shiftRight_eq_div_pow, Nat.cast_pow, Nat.cast_ofNat, FitsInt16]
  omega

/-- The result is `valscaled`, shifted. -/
theorem simulateRealValue_shift (h : SimulateInput val qdata) :
    simulateRealValue val qdata = valscaled val qdata >>> (-qdata.shift).toNat := by
  obtain ⟨low, high⟩ := h.valscaled_fits
  rw [simulateRealValue_valscaled, if_neg h.unsaturated, toInt16_of low high]
  exact toInt16_of h.final_fits.1 h.final_fits.2

theorem fits (h : SimulateInput val qdata) : SimulateFits val qdata := by
  obtain ⟨low, high⟩ := h.byte
  obtain ⟨offset_low, offset_high⟩ := h.offset
  obtain ⟨product_low, product_high⟩ := h.product_bounds
  obtain ⟨nudged_low, nudged_high⟩ := h.nudged_bounds
  have offset : toInt16 qdata.offset = qdata.offset := toInt16_of (by omega) (by omega)
  exact
    { offset := ⟨by omega, by omega⟩
      sum := by rw [offset, FitsInt16]; omega
      shifted := by rw [h.valoffset_eq, leftShift, FitsInt16]; omega
      product := by rw [h.valshift_eq, mul_assoc, FitsInt32]; omega
      nudged := ⟨by omega, by omega⟩
      shiftCount := by have := h.shift; omega
      unsaturated := h.unsaturated
      scaled := h.valscaled_fits
      final := h.final_fits }

end SimulateInput

end Inputs

/-- The product that `valscaled` is to be, before it is rounded. -/
def exactScaled (val : Int) (qdata : QuantizationData) : ℚ := (val + qdata.offset) * 128 * qdata.multiplier / 2 ^ 15

/-- `valscaled` is a nearest integer, and the result is that, shifted. -/
structure RoundsNearest (val : Int) (qdata : QuantizationData) : Prop where
  nearest : |(valscaled val qdata : ℚ) - exactScaled val qdata| ≤ 1 / 2
  exact : ∀ k : Int, exactScaled val qdata = k → valscaled val qdata = k
  shifted : simulateRealValue val qdata = valscaled val qdata >>> (-qdata.shift).toNat
  close : |(simulateRealValue val qdata : ℚ) - exactScaled val qdata * 2 ^ qdata.shift| < 1 + 2 ^ (qdata.shift - 1)
  notAbove : (simulateRealValue val qdata : ℚ) ≤ exactScaled val qdata * 2 ^ qdata.shift + 2 ^ (qdata.shift - 1)

section Rounding

variable {val : Int} {qdata : QuantizationData}

/-- The product is not negative, or it is halfway between two integers. -/
def NudgeMatches (val : Int) (qdata : QuantizationData) : Prop :=
  0 ≤ (val + qdata.offset) * qdata.multiplier ∨ (val + qdata.offset) * qdata.multiplier % 256 = 128

theorem exactScaled_eq (val : Int) (qdata : QuantizationData) :
    exactScaled val qdata = ((val + qdata.offset) * qdata.multiplier : Int) / 256 := by
  rw [exactScaled]
  push_cast
  ring

/-- The nudge of a negative product is for a division that truncates, and the shift rounds down. -/
theorem SimulateInput.nearest_iff (h : SimulateInput val qdata) :
    |(valscaled val qdata : ℚ) - exactScaled val qdata| ≤ 1 / 2 ↔ NudgeMatches val qdata := by
  rw [exactScaled_eq, h.valscaled_eq, nudge, NudgeMatches]
  generalize (val + qdata.offset) * qdata.multiplier = p
  have integers (y : Int) : |(y : ℚ) - (p : Int) / 256| ≤ 1 / 2 ↔ -128 ≤ 256 * y - p ∧ 256 * y - p ≤ 128 := by
    rw [abs_le, ← Int.cast_le (R := ℚ), ← Int.cast_le (R := ℚ)]
    push_cast
    constructor <;> rintro ⟨low, high⟩ <;> constructor <;> linarith
  rw [integers]
  split <;> omega

/-- An arithmetic shift is a division by a power of two, rounded down. -/
theorem shiftRight_bounds (y : Int) {s : Int} (right : s ≤ 0) :
    ((y >>> (-s).toNat : Int) : ℚ) ≤ y * 2 ^ s ∧ (y : ℚ) * 2 ^ s < (y >>> (-s).toNat : Int) + 1 := by
  have power : (0 : Int) < 2 ^ (-s).toNat := by positivity
  have shifted : y >>> (-s).toNat = y / 2 ^ (-s).toNat := by
    rw [Int.shiftRight_eq_div_pow, Nat.cast_pow, Nat.cast_ofNat]
  have low : y < 2 ^ (-s).toNat * (y / 2 ^ (-s).toNat) + 2 ^ (-s).toNat := Int.lt_mul_ediv_self_add power
  have high : 2 ^ (-s).toNat * (y / 2 ^ (-s).toNat) ≤ y := Int.mul_ediv_self_le power.ne'
  have inverse : (2 : ℚ) ^ s * 2 ^ (-s).toNat = 1 := by
    rw [← zpow_natCast, Int.toNat_of_nonneg (by omega), ← zpow_add₀ two_ne_zero, add_neg_cancel, zpow_zero]
  have positive : (0 : ℚ) < 2 ^ s := zpow_pos two_pos _
  rw [shifted]
  generalize y / 2 ^ (-s).toNat = x at *
  have low' : (y : ℚ) < 2 ^ (-s).toNat * x + 2 ^ (-s).toNat := by exact_mod_cast low
  have high' : (2 ^ (-s).toNat * x : ℚ) ≤ y := by exact_mod_cast high
  constructor
  · calc (x : ℚ) = 2 ^ s * (2 ^ (-s).toNat * x) := by rw [← mul_assoc, inverse, one_mul]
      _ ≤ 2 ^ s * y := mul_le_mul_of_nonneg_left high' positive.le
      _ = y * 2 ^ s := mul_comm _ _
  · calc (y : ℚ) * 2 ^ s < (2 ^ (-s).toNat * x + 2 ^ (-s).toNat) * 2 ^ s := mul_lt_mul_of_pos_right low' positive
      _ = x + 1 := by
          rw [mul_comm, mul_add, ← mul_assoc, inverse, one_mul]

theorem eq_of_near {y k : Int} (near : |(y : ℚ) - k| ≤ 1 / 2) : y = k := by
  have less : |((y - k : Int) : ℚ)| < 1 := by
    push_cast
    linarith
  have zero : |y - k| < 1 := by exact_mod_cast less
  exact sub_eq_zero.mp (Int.abs_lt_one_iff.mp zero)

theorem RoundsNearest.of_nearest (h : SimulateInput val qdata)
    (nearest : |(valscaled val qdata : ℚ) - exactScaled val qdata| ≤ 1 / 2) : RoundsNearest val qdata := by
  obtain ⟨below, above⟩ := shiftRight_bounds (valscaled val qdata) h.shift
  rw [← h.simulateRealValue_shift] at below above
  have half : (2 : ℚ) ^ (qdata.shift - 1) = 2 ^ qdata.shift / 2 := zpow_sub_one₀ two_ne_zero _
  have positive : (0 : ℚ) < 2 ^ qdata.shift := zpow_pos two_pos _
  obtain ⟨low, high⟩ := abs_le.mp nearest
  have upper : valscaled val qdata * 2 ^ qdata.shift ≤ (exactScaled val qdata + 1 / 2) * 2 ^ qdata.shift :=
    mul_le_mul_of_nonneg_right (by linarith) positive.le
  have lower : (exactScaled val qdata - 1 / 2) * 2 ^ qdata.shift ≤ valscaled val qdata * 2 ^ qdata.shift :=
    mul_le_mul_of_nonneg_right (by linarith) positive.le
  refine ⟨nearest, fun k eq => eq_of_near (eq ▸ nearest), h.simulateRealValue_shift, ?_, ?_⟩
  · rw [half, abs_lt]
    constructor <;> linarith
  · rw [half]
    linarith

end Rounding

/-- When `valscaled` is rounded to nearest. -/
theorem roundsNearest_iff (val : Int) (qdata : QuantizationData) (h : SimulateInput val qdata) :
    RoundsNearest val qdata ↔ NudgeMatches val qdata := by
  rw [← h.nearest_iff]
  exact ⟨RoundsNearest.nearest, RoundsNearest.of_nearest h⟩

theorem roundsNearest_of_positive : RoundsNearest 5 ⟨3, -2, 20000⟩ ↔ NudgeMatches 5 ⟨3, -2, 20000⟩ :=
  roundsNearest_iff 5 ⟨3, -2, 20000⟩ ⟨by norm_num [IsInt8], by norm_num, by norm_num, by norm_num⟩

/-- `-64` exactly, and the value is `-65`. -/
theorem exact_product_below : ¬∀ (val : Int) (qdata : QuantizationData), IsInt8 val →
    -127 ≤ qdata.offset ∧ qdata.offset ≤ 128 → 0 ≤ qdata.multiplier ∧ qdata.multiplier < 2 ^ 15 →
    -15 ≤ qdata.shift ∧ qdata.shift ≤ 0 → RoundsNearest val qdata := by
  intro claim
  have rounds := claim (-1) ⟨0, 0, 2 ^ 14⟩ ⟨by norm_num, by norm_num⟩ (by norm_num) (by norm_num) (by norm_num)
  have value : valscaled (-1) ⟨0, 0, 2 ^ 14⟩ = -65 := by decide +kernel
  have exactly := rounds.exact (-64) (by norm_num [exactScaled])
  rw [value] at exactly
  cases exactly

end AlkaliFw
