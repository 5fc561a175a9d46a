import AlkaliFw.AluAdd
import AlkaliFw.QuantizationFormat
import AlkaliFw.SimulatedValue
import Mathlib.Tactic.Linarith
import Mathlib.Tactic.Ring
import Mathlib.Tactic.Positivity
import Mathlib.Tactic.FieldSimp
import Mathlib.Tactic.IntervalCases

/-! How far the quantized addition of one element is from the exact one. -/

namespace AlkaliFw
open Significand

def clampInt8 (x : Int) : Int := max (min x 127) (-128)

/-- The value that `aluAdd` produces of one element. -/
def addElement (c : AluChunk) (in1 in2 out : TensorParams) (a b : Int) : Int :=
  let q := aluQuantization in1 in2 out
  c.lane q.outputquant (simulateRealValue a q.input1quant) (simulateRealValue b q.input2quant)

section Parameters

variable {u : ℚ}

/-- The parameters hold the scale to 15 bits, with the shift `15 - k`; a scale below them counts for nothing. -/
theorem parameters_spec (positive : 0 < u) (bounded : u < 2 ^ 14) :
    (computeQuantizationParameters u = (0, 0) ∧ u < 1 / 2 ^ 16) ∨
      ∃ (m : Int) (k : Nat), computeQuantizationParameters u = (m, 15 - (k : Int)) ∧ k ≤ 30 ∧ 2 ^ 14 ≤ m ∧ m < 2 ^ 15 ∧
        |u * 2 ^ k - m| ≤ 1 / 2 := by
  have finite : u < 2 ^ 32766 := bounded.trans (pow_lt_pow_right₀ one_lt_two (by decide))
  have few : Int.log 2 u < 14 := by
    have power : (2 : ℚ) ^ Int.log 2 u < 2 ^ (14 : Int) := (pow_log_le positive).trans_lt bounded
    exact (zpow_lt_zpow_iff_right₀ one_lt_two).mp power
  obtain ⟨m, s, least, most, -, -, high, -, eq⟩ := parameters_cases positive finite
  rcases parameters_fixedPoint positive finite with none | format
  · exact Or.inl none
  · have error := format.error
    have above := format.shift
    by_cases below : s < -15
    · have least' := format.multiplier.1
      rw [eq, if_pos below] at least'
      norm_num at least'
    · rw [eq, if_neg below] at error above
      refine Or.inr ⟨m, (15 - s).toNat, ?_, by omega, least, most, ?_⟩
      · rw [eq, if_neg below]
        simp only [Prod.mk.injEq, true_and]
        omega
      · have factor : (0 : ℚ) < 2 ^ (15 - s).toNat := by positivity
        have power : (2 : ℚ) ^ (s - 15) * 2 ^ (15 - s).toNat = 1 := by
          rw [← zpow_natCast, Int.toNat_of_nonneg (by omega), ← zpow_add₀ two_ne_zero,
            show s - 15 + (15 - s) = 0 by ring, zpow_zero]
        have half : (2 : ℚ) ^ (s - 16) * 2 ^ (15 - s).toNat = 1 / 2 := by
          rw [show s - 16 = s - 15 - 1 by ring, zpow_sub_one₀ two_ne_zero, mul_right_comm, power, one_mul, one_div]
        calc |u * 2 ^ (15 - s).toNat - m| = |m * 2 ^ (s - 15) - u| * 2 ^ (15 - s).toNat := by
              rw [abs_sub_comm (_ * _) u, ← abs_of_pos factor, ← abs_mul, abs_of_pos factor, sub_mul, mul_assoc, power,
                mul_one]
          _ ≤ 2 ^ (s - 16) * 2 ^ (15 - s).toNat := mul_le_mul_of_nonneg_right error factor.le
          _ = 1 / 2 := half

end Parameters

section Inputs

variable {z a m : Int}

/-- No step of `simulateRealValue` overflows. -/
theorem simulateRealValue_eq (z_byte : IsInt8 z) (a_byte : IsInt8 a) (nonneg : 0 ≤ m) (small : m < 2 ^ 15) (t : Nat) :
    simulateRealValue a ⟨-z, -(t : Int), m⟩ = (128 * ((a - z) * m) + nudge (128 * ((a - z) * m))) / 2 ^ 15 / 2 ^ t := by
  have input : SimulateInput a ⟨-z, -(t : Int), m⟩ :=
    { byte := a_byte
      offset := by have := z_byte.1; have := z_byte.2; dsimp only; omega
      multiplier := ⟨nonneg, small⟩
      shift := by dsimp only; omega }
  rw [input.simulateRealValue_shift, input.valscaled_eq]
  dsimp only
  rw [neg_neg, Int.toNat_natCast, Int.shiftRight_eq_div_pow, Nat.cast_pow, Nat.cast_ofNat, ← sub_eq_add_neg]

/-- The rounding of a product, within a step and a half below and half a step above. -/
theorem nudge_bounds (n : Int) :
    n - 3 * 2 ^ 14 ≤ 2 ^ 15 * ((n + nudge n) / 2 ^ 15) ∧ 2 ^ 15 * ((n + nudge n) / 2 ^ 15) ≤ n + 2 ^ 14 := by
  rw [nudge]
  split <;> omega

/-- What the rounding of the multiplier does to a product. -/
theorem product_error {d u w : ℚ} {m : Int} (low : -255 ≤ d) (high : d ≤ 255) (near : |u * w - m| ≤ 1 / 2) :
    |d * m - d * (u * w)| ≤ 255 / 2 := by
  have size : |d| ≤ 255 := abs_le.mpr ⟨by linarith, high⟩
  calc |d * m - d * (u * w)| = |d| * |u * w - m| := by rw [← abs_mul, ← abs_neg]; congr 1; ring
    _ ≤ 255 * (1 / 2) := mul_le_mul size near (abs_nonneg _) (by norm_num)
    _ = 255 / 2 := by norm_num

/-- A shift by at least one after the rounding. -/
theorem shifted_bounds {d m : Int} {u : ℚ} {t : Nat} (shifts : 1 ≤ t)
    (error : |(d : ℚ) * m - d * (u * 2 ^ (15 + t))| ≤ 255 / 2) :
    -3 / 2 ≤ (((128 * (d * m) + nudge (128 * (d * m))) / 2 ^ 15 / 2 ^ t : Int) : ℚ) - 128 * d * u ∧
      (((128 * (d * m) + nudge (128 * (d * m))) / 2 ^ 15 / 2 ^ t : Int) : ℚ) - 128 * d * u ≤ 1 / 2 := by
  obtain ⟨low, high⟩ := nudge_bounds (128 * (d * m))
  generalize (128 * (d * m) + nudge (128 * (d * m))) / 2 ^ 15 = y at *
  have power : (0 : Int) < 2 ^ t := by positivity
  have floor_low : y < 2 ^ t * (y / 2 ^ t) + 2 ^ t := Int.lt_mul_ediv_self_add power
  have floor_high : 2 ^ t * (y / 2 ^ t) ≤ y := Int.mul_ediv_self_le power.ne'
  generalize y / 2 ^ t = x at *
  have two : (2 : ℚ) ≤ 2 ^ t := by
    calc (2 : ℚ) = 2 ^ 1 := by norm_num
      _ ≤ 2 ^ t := pow_le_pow_right₀ (by norm_num) shifts
  have low' : (128 * (d * m) - 3 * 2 ^ 14 : ℚ) ≤ 2 ^ 15 * y := by exact_mod_cast low
  have high' : (2 ^ 15 * y : ℚ) ≤ 128 * (d * m) + 2 ^ 14 := by exact_mod_cast high
  have floor_low' : (y : ℚ) + 1 ≤ 2 ^ t * x + 2 ^ t := by exact_mod_cast floor_low
  have floor_high' : (2 ^ t * x : ℚ) ≤ y := by exact_mod_cast floor_high
  rw [pow_add, abs_le] at error
  generalize (2 : ℚ) ^ t = P at *
  have ideal : 2 ^ 15 * (P * (x - 128 * d * u)) = 2 ^ 15 * (P * x) - 128 * (d * (u * (2 ^ 15 * P))) := by ring
  constructor
  · refine le_of_mul_le_mul_left ?_ (by linarith : 0 < P)
    linarith
  · refine le_of_mul_le_mul_left ?_ (by linarith : 0 < P)
    linarith

/-- The other input, whose scale is not the larger one: the value is exact but for one and a half. -/
theorem input_bounds (z_byte : IsInt8 z) (a_byte : IsInt8 a) {u : ℚ} (positive : 0 < u) (half : u ≤ 1 / 2) :
    -3 / 2 ≤ (simulateRealValue a (scaleQuantization (-z) u) : ℚ) - 128 * (a - z : Int) * u ∧
      (simulateRealValue a (scaleQuantization (-z) u) : ℚ) - 128 * (a - z : Int) * u ≤ 1 / 2 := by
  have d_low : (-255 : ℚ) ≤ (a - z : Int) := by
    exact_mod_cast (by have := z_byte.2; have := a_byte.1; omega : (-255 : Int) ≤ a - z)
  have d_high : ((a - z : Int) : ℚ) ≤ 255 := by
    exact_mod_cast (by have := z_byte.1; have := a_byte.2; omega : a - z ≤ (255 : Int))
  rcases parameters_spec positive (by linarith) with ⟨none, tiny⟩ | ⟨m, k, eq, -, least, most, near⟩
  · have zero : simulateRealValue a (scaleQuantization (-z) u) = 0 := by
      rw [scaleQuantization, none]
      have := simulateRealValue_eq z_byte a_byte (m := 0) le_rfl (by norm_num) 0
      simpa [nudge] using this
    have := mul_le_mul_of_nonneg_right d_low positive.le
    have := mul_le_mul_of_nonneg_right d_high positive.le
    rw [zero]
    push_cast at *
    constructor <;> nlinarith
  · -- The shift is to the right.
    obtain ⟨t, rfl⟩ : ∃ t, k = 15 + t := by
      refine ⟨k - 15, ?_⟩
      by_contra short
      have power : (2 : ℚ) ^ k ≤ 2 ^ 14 := pow_le_pow_right₀ (by norm_num) (by omega)
      have scaled : u * 2 ^ k ≤ 1 / 2 * 2 ^ 14 := mul_le_mul half power (by positivity) (by norm_num)
      have large : (2 ^ 14 : ℚ) ≤ m := by exact_mod_cast least
      rw [abs_le] at near
      norm_num at scaled large
      linarith [near.1]
    have shift : (15 - ((15 + t : Nat) : Int)) = -t := by
      push_cast
      ring
    have error := product_error d_low d_high near
    rw [scaleQuantization, eq, shift, simulateRealValue_eq z_byte a_byte (by omega) most]
    by_cases none : t = 0
    · -- The scale is one half, but for what the multiplier does not hold.
      subst none
      have exactly : m = 2 ^ 14 := by
        rw [abs_le] at near
        have : (m : ℚ) < (2 ^ 14 + 1 : Int) := by
          push_cast
          norm_num at near ⊢
          linarith [near.1]
        have := Int.cast_lt.mp this
        omega
      subst exactly
      have value : 64 * (a - z) - 1 ≤ (128 * ((a - z) * 2 ^ 14) + nudge (128 * ((a - z) * 2 ^ 14))) / 2 ^ 15 / 2 ^ 0 ∧
          (128 * ((a - z) * 2 ^ 14) + nudge (128 * ((a - z) * 2 ^ 14))) / 2 ^ 15 / 2 ^ 0 ≤ 64 * (a - z) := by
        rw [nudge]
        split <;> omega
      generalize (128 * ((a - z) * 2 ^ 14) + nudge (128 * ((a - z) * 2 ^ 14))) / 2 ^ 15 / 2 ^ 0 = x at *
      have low : (64 * (a - z : Int) - 1 : ℚ) ≤ x := by exact_mod_cast value.1
      have high : (x : ℚ) ≤ 64 * (a - z : Int) := by exact_mod_cast value.2
      rw [abs_le] at error
      norm_num at error
      push_cast at low high error ⊢
      constructor <;> linarith
    · exact shifted_bounds (by omega) error

/-- The input with the larger scale is exact, but for one below zero. -/
theorem larger_bounds (z_byte : IsInt8 z) (a_byte : IsInt8 a) :
    (64 * (a - z : Int) - 1 : ℚ) ≤ simulateRealValue a (scaleQuantization (-z) (1 / 2)) ∧
      (simulateRealValue a (scaleQuantization (-z) (1 / 2)) : ℚ) ≤ 64 * (a - z : Int) := by
  have parameters : scaleQuantization (-z) (1 / 2) = ⟨-z, -((0 : Nat) : Int), 2 ^ 14⟩ := by
    have half : computeQuantizationParameters (1 / 2) = (2 ^ 14, 0) := by decide +kernel
    rw [scaleQuantization, half]
    rfl
  have value := simulateRealValue_eq z_byte a_byte (m := 2 ^ 14) (by norm_num) (by norm_num) 0
  rw [parameters, value, nudge]
  constructor
  · exact_mod_cast (by split <;> omega : 64 * (a - z) - 1 ≤
      (128 * ((a - z) * 2 ^ 14) + (if 128 * ((a - z) * 2 ^ 14) ≥ 0 then (2 ^ 14 : Int) else 1 - 2 ^ 14)) / 2 ^ 15 /
        2 ^ 0)
  · exact_mod_cast (by split <;> omega :
      (128 * ((a - z) * 2 ^ 14) + (if 128 * ((a - z) * 2 ^ 14) ≥ 0 then (2 ^ 14 : Int) else 1 - 2 ^ 14)) / 2 ^ 15 /
        2 ^ 0 ≤ 64 * (a - z))

end Inputs

section Sums

variable {in1 in2 out : TensorParams} {a b : Int}

/-- The tensors and the elements of an addition that is quantized. -/
structure Quantized (in1 in2 out : TensorParams) (a b : Int) : Prop where
  scale1 : 0 < in1.scale
  scale2 : 0 < in2.scale
  scaleOut : 0 < out.scale
  zero1 : IsInt8 in1.zeroPoint
  zero2 : IsInt8 in2.zeroPoint
  zeroOut : IsInt8 out.zeroPoint
  byte1 : IsInt8 a
  byte2 : IsInt8 b

/-- The exact sum, in units of the larger scale. -/
def idealSum (in1 in2 : TensorParams) (a b : Int) : ℚ :=
  (in1.scale * (a - in1.zeroPoint : Int) + in2.scale * (b - in2.zeroPoint : Int)) / max in1.scale in2.scale

/-- The sum that goes to the device. -/
def sumOf (in1 in2 out : TensorParams) (a b : Int) : Int :=
  simulateRealValue a (aluQuantization in1 in2 out).input1quant +
    simulateRealValue b (aluQuantization in1 in2 out).input2quant

theorem sum_bounds (h : Quantized in1 in2 out a b) :
    -5 / 2 ≤ (sumOf in1 in2 out a b : ℚ) - 64 * idealSum in1 in2 a b ∧
      (sumOf in1 in2 out a b : ℚ) - 64 * idealSum in1 in2 a b ≤ 1 / 2 := by
  have larger : 0 < max in1.scale in2.scale := lt_max_of_lt_left h.scale1
  have fraction (s : ℚ) (positive : 0 < s) (le : s ≤ max in1.scale in2.scale) :
      0 < s / (2 * max in1.scale in2.scale) ∧ s / (2 * max in1.scale in2.scale) ≤ 1 / 2 := by
    refine ⟨by positivity, ?_⟩
    rw [div_le_div_iff₀ (by positivity) (by norm_num)]
    linarith
  have ideal : 64 * idealSum in1 in2 a b =
      128 * (a - in1.zeroPoint : Int) * (in1.scale / (2 * max in1.scale in2.scale)) +
        128 * (b - in2.zeroPoint : Int) * (in2.scale / (2 * max in1.scale in2.scale)) := by
    rw [idealSum]
    field_simp
    ring
  rw [ideal, sumOf, Int.cast_add]
  change _ ≤ ((simulateRealValue a (scaleQuantization (-in1.zeroPoint) _) : ℚ) +
    simulateRealValue b (scaleQuantization (-in2.zeroPoint) _)) - _ ∧
    ((simulateRealValue a (scaleQuantization (-in1.zeroPoint) _) : ℚ) +
      simulateRealValue b (scaleQuantization (-in2.zeroPoint) _)) - _ ≤ _
  have bounds1 := input_bounds h.zero1 h.byte1 (fraction _ h.scale1 (le_max_left _ _)).1
    (fraction _ h.scale1 (le_max_left _ _)).2
  have bounds2 := input_bounds h.zero2 h.byte2 (fraction _ h.scale2 (le_max_right _ _)).1
    (fraction _ h.scale2 (le_max_right _ _)).2
  have half : ∀ s : ℚ, max in1.scale in2.scale = s → s / (2 * max in1.scale in2.scale) = 1 / 2 := by
    rintro s rfl
    field_simp
  rcases max_cases in1.scale in2.scale with ⟨first, -⟩ | ⟨second, -⟩
  · have exact := larger_bounds h.zero1 h.byte1
    rw [half _ first] at *
    constructor <;> linarith
  · have exact := larger_bounds h.zero2 h.byte2
    rw [half _ second] at *
    constructor <;> linarith

theorem idealSum_bounds (h : Quantized in1 in2 out a b) :
    -510 ≤ idealSum in1 in2 a b ∧ idealSum in1 in2 a b ≤ 510 := by
  have larger : 0 < max in1.scale in2.scale := lt_max_of_lt_left h.scale1
  have byte (x z : Int) (x_byte : IsInt8 x) (z_byte : IsInt8 z) :
      (-255 : ℚ) ≤ (x - z : Int) ∧ ((x - z : Int) : ℚ) ≤ 255 := by
    obtain ⟨x_low, x_high⟩ := x_byte
    obtain ⟨z_low, z_high⟩ := z_byte
    exact ⟨by exact_mod_cast (by omega : (-255 : Int) ≤ x - z), by exact_mod_cast (by omega : x - z ≤ (255 : Int))⟩
  have part (s : ℚ) (x z : Int) (x_byte : IsInt8 x) (z_byte : IsInt8 z) (positive : 0 < s)
      (le : s ≤ max in1.scale in2.scale) :
      -255 * max in1.scale in2.scale ≤ s * (x - z : Int) ∧ s * (x - z : Int) ≤ 255 * max in1.scale in2.scale := by
    obtain ⟨low, high⟩ := byte x z x_byte z_byte
    constructor <;> nlinarith
  have first := part _ _ _ h.byte1 h.zero1 h.scale1 (le_max_left _ _)
  have second := part _ _ _ h.byte2 h.zero2 h.scale2 (le_max_right _ _)
  rw [idealSum]
  constructor
  · rw [le_div_iff₀ larger]
    linarith
  · rw [div_le_iff₀ larger]
    linarith

/-- No operation of the device overflows. -/
theorem lane_eq (c : AluChunk) {x y m zo : Int} {k : Nat} (sum_low : -32768 ≤ x + y) (sum_high : x + y ≤ 32767)
    (nonneg : 0 ≤ m) (small : m < 2 ^ 15) (few : k ≤ 30) (zo_byte : IsInt8 zo) :
    c.lane ⟨zo, 15 - (k : Int), m⟩ x y = clampInt8 ((x + y) * m / 2 ^ k + zo) := by
  obtain ⟨zo_low, zo_high⟩ := zo_byte
  have low : -32768 * m ≤ (x + y) * m := mul_le_mul_of_nonneg_right sum_low nonneg
  have high : (x + y) * m ≤ 32767 * m := mul_le_mul_of_nonneg_right sum_high nonneg
  have sum : toInt32 (x + y) = x + y := toInt32_of (by omega) (by omega)
  have multiplier : toInt16 m = m := toInt16_of (by omega) (by omega)
  have product : toInt32 ((x + y) * m) = (x + y) * m := toInt32_of (by omega) (by omega)
  have amount : toInt16 (15 - (15 - (k : Int))) = k := by
    rw [toInt16_of (by omega) (by omega)]
    ring
  have shifted := div_pow_bounds ((x + y) * m) k
  have offset : toInt16 zo = zo := toInt16_of (by omega) (by omega)
  have moved : toInt32 ((x + y) * m / 2 ^ k + zo) = (x + y) * m / 2 ^ k + zo := toInt32_of (by omega) (by omega)
  simp only [AluChunk.lane, AluChunk.kernels, AluChunk.kernel, List.foldl_cons, List.foldl_nil, UopKernel.exec,
    Option.isSome_some, Option.isSome_none, Option.getD_some, if_true, Bool.false_eq_true, if_false, sum, multiplier,
    product, amount, offset]
  rw [if_pos (by omega), Int.toNat_natCast, Int.shiftRight_eq_div_pow, Nat.cast_pow, Nat.cast_ofNat, moved]
  rfl

end Sums

section Errors

/-- Between what is stored and what is expected there is the clamp. -/
theorem clamp_low {w r zo K : Int} (nonneg : 0 ≤ K) (low : r - K ≤ w ∨ 127 - K ≤ w + zo ∨ r + zo ≤ -128) :
    clampInt8 (r + zo) - K ≤ clampInt8 (w + zo) := by
  rw [clampInt8, clampInt8]
  omega

theorem clamp_high {w r zo K : Int} (nonneg : 0 ≤ K) (high : w ≤ r + K ∨ w + zo ≤ K - 128 ∨ 127 ≤ r + zo) :
    clampInt8 (w + zo) ≤ clampInt8 (r + zo) + K := by
  rw [clampInt8, clampInt8]
  omega

variable {v p R η : ℚ} {w r zo K : Int}

/-- A value `p` that is below the exact `v` by at most `5/128` of the ratio and above it by at most `1/128`, and
that is rounded down with a relative error. -/
theorem rounded_close (zo_byte : IsInt8 zo) (ratio : 0 < R) (ratio_small : R < 6375) (p_low : v - 5 / 128 * R ≤ p)
    (p_high : p ≤ v + 1 / 128 * R) (w_low : p - |p| / 32767 - 1 < w) (w_high : w ≤ p + |p| / 32767)
    (nearest : |v - r| ≤ 1 / 2) (bound : 51 / 100 + R / 25 ≤ K) :
    |clampInt8 (w + zo) - clampInt8 (r + zo)| ≤ K := by
  obtain ⟨zo_low, zo_high⟩ := zo_byte
  have zo_low' : (-128 : ℚ) ≤ zo := by exact_mod_cast zo_low
  have zo_high' : (zo : ℚ) ≤ 127 := by exact_mod_cast zo_high
  rw [abs_le] at nearest
  have nonneg : 0 ≤ K := by
    have : (0 : ℚ) < K := by linarith
    exact_mod_cast this.le
  have inside (small : |v| ≤ 300) : |p| ≤ 300 + 5 / 128 * R := by
    rw [abs_le] at small ⊢
    constructor <;> linarith
  have low : clampInt8 (r + zo) - K ≤ clampInt8 (w + zo) := by
    refine clamp_low nonneg ?_
    rcases le_or_gt v 300 with small | large
    · rcases le_or_gt (-300) v with inner | negative
      · have size := inside (abs_le.mpr ⟨inner, small⟩)
        have : (r - K : ℚ) < w + 1 := by linarith
        exact Or.inl (Int.lt_add_one_iff.mp (by exact_mod_cast this))
      · have : (r + zo : ℚ) < -127 := by linarith
        exact Or.inr (Or.inr (by have : r + zo < -127 := by exact_mod_cast this
                                 omega))
    · have size : |p| = p := abs_of_nonneg (by linarith)
      rw [size] at w_low
      have : (127 - K : ℚ) ≤ w + zo := by linarith
      exact Or.inr (Or.inl (by exact_mod_cast this))
  have high : clampInt8 (w + zo) ≤ clampInt8 (r + zo) + K := by
    refine clamp_high nonneg ?_
    rcases le_or_gt (-300) v with small | large
    · rcases le_or_gt v 300 with inner | positive
      · have size := inside (abs_le.mpr ⟨small, inner⟩)
        have : (w : ℚ) ≤ r + K := by linarith
        exact Or.inl (by exact_mod_cast this)
      · have : (127 : ℚ) ≤ r + zo := by linarith
        exact Or.inr (Or.inr (by exact_mod_cast this))
    · have size : |p| = -p := abs_of_nonpos (by linarith)
      rw [size] at w_high
      have : (w + zo : ℚ) ≤ K - 128 := by linarith
      exact Or.inr (Or.inl (by exact_mod_cast this))
  rw [abs_le]
  constructor <;> omega

/-- Multiplying by the output multiplier and shifting, with its relative error. -/
theorem scaled_floor {x m : Int} {k : Nat} {u : ℚ} (least : 2 ^ 14 ≤ m) (near : |u * 2 ^ k - m| ≤ 1 / 2) :
    x * u - |x * u| / 32767 - 1 < ((x * m / 2 ^ k : Int) : ℚ) ∧
      ((x * m / 2 ^ k : Int) : ℚ) ≤ x * u + |x * u| / 32767 := by
  have power : (0 : Int) < 2 ^ k := by positivity
  have floor_low : x * m < 2 ^ k * (x * m / 2 ^ k) + 2 ^ k := Int.lt_mul_ediv_self_add power
  have floor_high : 2 ^ k * (x * m / 2 ^ k) ≤ x * m := Int.mul_ediv_self_le power.ne'
  generalize x * m / 2 ^ k = w at *
  have low : (x * m : ℚ) < 2 ^ k * w + 2 ^ k := by exact_mod_cast floor_low
  have high : (2 ^ k * w : ℚ) ≤ x * m := by exact_mod_cast floor_high
  have least' : (2 ^ 14 : ℚ) ≤ m := by exact_mod_cast least
  have positive : (0 : ℚ) < 2 ^ k := by positivity
  generalize (2 : ℚ) ^ k = P at *
  have scale : 32767 / 2 ≤ u * P := by
    rw [abs_le] at near
    norm_num at least'
    linarith [near.1]
  have u_positive : 0 < u := by
    by_contra negative
    nlinarith
  have error : |(x : ℚ) * m - x * u * P| ≤ |x * u| / 32767 * P := by
    calc |(x : ℚ) * m - x * u * P| = |(x : ℚ)| * |u * P - m| := by
          rw [← abs_mul, ← abs_neg]
          congr 1
          ring
      _ ≤ |(x : ℚ)| * (1 / 2) := mul_le_mul_of_nonneg_left near (abs_nonneg _)
      _ ≤ |(x : ℚ)| * (u * P / 32767) := mul_le_mul_of_nonneg_left (by linarith) (abs_nonneg _)
      _ = |x * u| / 32767 * P := by
          rw [abs_mul, abs_of_pos u_positive]
          ring
  rw [abs_le] at error
  constructor
  · refine lt_of_mul_lt_mul_right ?_ positive.le
    linarith
  · refine le_of_mul_le_mul_right ?_ positive
    linarith

end Errors

/-- The exact result of the addition, before it is rounded. -/
def exactSum (in1 in2 out : TensorParams) (a b : Int) : ℚ :=
  (in1.scale * (a - in1.zeroPoint : Int) + in2.scale * (b - in2.zeroPoint : Int)) / out.scale

section Elements

variable {in1 in2 out : TensorParams} {a b : Int}

theorem exactSum_eq (h : Quantized in1 in2 out a b) :
    exactSum in1 in2 out a b = idealSum in1 in2 a b * (max in1.scale in2.scale / out.scale) := by
  have larger : 0 < max in1.scale in2.scale := lt_max_of_lt_left h.scale1
  have positive := h.scaleOut
  rw [exactSum, idealSum]
  field_simp

theorem sumOf_bounds (h : Quantized in1 in2 out a b) :
    -32768 ≤ sumOf in1 in2 out a b ∧ sumOf in1 in2 out a b ≤ 32767 := by
  have error := sum_bounds h
  have ideal := idealSum_bounds h
  have low : (-32768 : ℚ) ≤ sumOf in1 in2 out a b := by linarith
  have high : (sumOf in1 in2 out a b : ℚ) ≤ 32767 := by linarith
  exact ⟨by exact_mod_cast low, by exact_mod_cast high⟩

theorem clampInt8_apart (x y : Int) : |clampInt8 x - clampInt8 y| ≤ 255 := by
  rw [clampInt8, clampInt8, abs_le]
  omega

theorem lane_clamped (c : AluChunk) (oq : QuantizationData) (x y : Int) : ∃ v, c.lane oq x y = clampInt8 v := ⟨_, rfl⟩

end Elements

end AlkaliFw
