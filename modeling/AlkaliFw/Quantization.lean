import AlkaliFw.Vta
import Mathlib.Data.Int.Log
import Mathlib.Data.Rat.Floor
import Mathlib.Algebra.Order.Round

/-! Fixed-point numbers in `vta-delegate.cpp`: the parameters of a scale, and the two functions that
apply them to an element. The scales are exact, where the code has `float` and `double`. -/

namespace AlkaliFw

structure QuantizationData where
  offset : Int := 0
  shift : Int := 0
  multiplier : Int := 0
  deriving DecidableEq, Repr

/-- `QuantizationData::left_shift`. -/
def leftShift : Nat := 7

/-- The exponent and the fraction in `[1/2, 1)` of a positive number. -/
def frexp (scale : ℚ) : Int × ℚ :=
  let e := Int.log 2 scale + 1
  (e, scale / 2 ^ e)

/-- The multiplier and the shift. -/
def computeQuantizationParameters (scale : ℚ) : Int × Int :=
  if scale < 1 / 10 ^ 6 then (0, 0)
  else
    let (shift32, q) := frexp scale
    let qFixed := round (q * 2 ^ 15)
    let (qFixed, shift32) := if qFixed = 2 ^ 15 then (qFixed / 2, shift32 + 1) else (qFixed, shift32)
    let (qFixed, shift32) := if shift32 < -15 then (0, 0) else (qFixed, shift32)
    (toInt16 qFixed, toInt16 shift32)

def simulateRealValue (val : Int) (qdata : QuantizationData) : Int :=
  let valoffset := toInt16 (toInt16 qdata.offset + val)
  let valshift := toInt16 (valoffset * 2 ^ leftShift)
  let overflow := valshift = qdata.multiplier ∧ valshift = -2 ^ 15
  let valscaledraw32 := toInt32 (valshift * qdata.multiplier)
  let nudge : Int := if valscaledraw32 ≥ 0 then 1 <<< 14 else 1 - (1 <<< 14)
  let valscaled := toInt32 (valscaledraw32 + nudge) >>> (15 : Nat)
  let valsaturated := if overflow then 2 ^ 15 - 1 else toInt16 valscaled
  toInt16 (valsaturated >>> (-qdata.shift).toNat)

def requantizeResults (val : Int) (qdata : QuantizationData) : Int :=
  let valscaled := toInt32 (val * qdata.multiplier)
  let valshifted := valscaled >>> (15 - qdata.shift).toNat
  let valoffset := toInt32 (valshifted + qdata.offset)
  max (-128) (min valoffset 127)

/-- What the constructor of `VTAALUOp` reads of a tensor. -/
structure TensorParams where
  scale : ℚ
  zeroPoint : Int
  deriving DecidableEq

structure AluQuantization where
  input1quant : QuantizationData
  input2quant : QuantizationData
  outputquant : QuantizationData
  deriving DecidableEq, Repr

def scaleQuantization (offset : Int) (scale : ℚ) : QuantizationData where
  offset := offset
  multiplier := (computeQuantizationParameters scale).1
  shift := (computeQuantizationParameters scale).2

/-- The constructor of `VTAALUOp`. -/
def aluQuantization (in1 in2 out : TensorParams) : AluQuantization :=
  let twiceMaxInputScale := 2 * max in1.scale in2.scale
  { input1quant := scaleQuantization (-in1.zeroPoint) (in1.scale / twiceMaxInputScale)
    input2quant := scaleQuantization (-in2.zeroPoint) (in2.scale / twiceMaxInputScale)
    outputquant := scaleQuantization out.zeroPoint (twiceMaxInputScale / (2 ^ leftShift * out.scale)) }

end AlkaliFw
