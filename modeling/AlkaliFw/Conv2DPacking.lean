import AlkaliFw.PadData
import AlkaliFw.Vta
import Mathlib.Tactic.Ring

/-! The first part of `gemmConv2D` in `vta-delegate-ops.cpp`: how the tensors of a convolution are
padded and brought into blocks. -/

namespace AlkaliFw
open MixedRadix

def vtaBlockIn : Nat := 1 <<< 4

/-- The tensors of a convolution: the sizes in their `dims`, and the bytes. -/
structure Conv2DTensors where
  n : Nat
  h : Nat
  w : Nat
  i : Nat
  o : Nat
  hk : Nat
  wk : Nat
  ho : Nat
  wo : Nat
  inp : Nat → UInt8
  wgt : Nat → UInt8
  bis : Nat → UInt8

def resetDims : Dims := fun _ => 0

def setDim (dimname : String) (dimsize : Int) (dims : Dims) : Dims := Function.update dims dimname dimsize

/-- `(dim + block - 1) / block`. -/
def outerLoop (dims : Dims) (dimname : String) (block : Nat) : Option Int := do
  let sum ← toInt (dims dimname + block)
  let sum ← toInt (sum - 1)
  some (sum.tdiv block)

def dimProduct (dims : Dims) (dimname dimname' : String) : Option Int := toInt (dims dimname * dims dimname')

/-- The dimensions as `gemmConv2D` sets them. -/
def convDims (t : Conv2DTensors) : Option Dims := do
  let dims := resetDims
  let dims := setDim "N" t.n dims
  let dims := setDim "H" t.h dims
  let dims := setDim "W" t.w dims
  let dims := setDim "I" t.i dims
  let dims := setDim "Ho" t.ho dims
  let dims := setDim "Wo" t.wo dims
  let dims := setDim "O" t.o dims
  let dims := setDim "Hk" t.hk dims
  let dims := setDim "Wk" t.wk dims
  let dims := setDim "Ni" vtaBatch dims
  let dims := setDim "Ii" vtaBlockIn dims
  let dims := setDim "Oi" vtaBlockOut dims
  let dims := setDim "paddingH" 0 dims
  let dims := setDim "paddingW" 0 dims
  let dims := setDim "strideH" 1 dims
  let dims := setDim "strideW" 1 dims
  let dims := setDim "No" (← outerLoop dims "N" vtaBatch) dims
  let dims := setDim "Io" (← outerLoop dims "I" vtaBlockIn) dims
  let dims := setDim "Oo" (← outerLoop dims "O" vtaBlockOut) dims
  let dims := setDim "Naligned" (← dimProduct dims "No" "Ni") dims
  let dims := setDim "Ialigned" (← dimProduct dims "Io" "Ii") dims
  let dims := setDim "Oaligned" (← dimProduct dims "Oo" "Oi") dims
  let padding ← toInt (2 * dims "paddingW")
  let width ← toInt (dims "W" + padding)
  some (setDim "Wpadded" width dims)

/-- A vector of bytes. -/
structure ByteVector where
  size : Nat
  data : Nat → UInt8

namespace ByteVector

def zeros (size : Nat) : ByteVector := ⟨size, fun _ => 0⟩

def resize (v : ByteVector) (size : Nat) : ByteVector := ⟨size, fun i => if i < v.size then v.data i else 0⟩

end ByteVector

/-- A call of `padData` or `permuteDims` on the vector `dst`. -/
structure ArrayCall where
  writes : List ArrayWrite
  elemsize : Nat
  inparray : Nat → UInt8
  dst : ByteVector

namespace ArrayCall

def result (c : ArrayCall) : ByteVector := { c.dst with data := applyAll c.elemsize c.inparray c.dst.data c.writes }

/-- Every byte that is written belongs to the vector. -/
def InBounds (c : ArrayCall) : Prop := ∀ w ∈ c.writes, ∀ b, w.touches c.elemsize b = true → b < c.dst.size

end ArrayCall

def padCall (dims : Dims) (srclayout dstlayout : List String) (inparray : Nat → UInt8) (dst : ByteVector) (elemsize : Nat) :
    Option ArrayCall := do
  let writes ← padWrites dims srclayout dstlayout
  some ⟨writes, elemsize, inparray, dst⟩

def permuteCall (dims : Dims) (inplayout outlayout : List String) (inparray : Nat → UInt8) (dst : ByteVector) (elemsize : Nat) :
    Option ArrayCall := do
  let writes ← permuteWrites dims inplayout outlayout
  some ⟨writes, elemsize, inparray, dst⟩

/-- The calls that pack the tensors, in their order. -/
structure Packing where
  dims : Dims
  padInput : ArrayCall
  permuteInput : ArrayCall
  padWeights : ArrayCall
  permuteWeights : ArrayCall
  padBias : ArrayCall

namespace Packing

def inparray (p : Packing) : ByteVector := p.permuteInput.result

def wgtarray (p : Packing) : ByteVector := p.permuteWeights.result

def biasarray (p : Packing) : ByteVector := p.padBias.result

end Packing

/-- `gemmConv2D` up to the bias. The tensors of 8 bits have as many bytes as elements. -/
def packConv2D (t : Conv2DTensors) : Option Packing := do
  let dims ← convDims t
  let elements ← tensorElements dims ["Naligned", "Ialigned", "H", "W"]
  let padInput ← padCall dims ["N", "I", "H", "W"] ["Naligned", "Ialigned", "H", "W"] t.inp (.zeros elements.toNat) 1
  let permuteInput ← permuteCall dims ["No", "Ni", "Io", "Ii", "H", "W"] ["No", "Io", "H", "W", "Ni", "Ii"]
    padInput.result.data (.zeros (t.n * t.h * t.w * t.i)) 1
  let elements ← tensorElements dims ["Oaligned", "Ialigned", "H", "W"]
  let padWeights ← padCall dims ["O", "I", "Hk", "Wk"] ["Oaligned", "Ialigned", "Hk", "Wk"] t.wgt
    (padInput.result.resize elements.toNat) 1
  let permuteWeights ← permuteCall dims ["Oo", "Oi", "Io", "Ii", "H", "W"] ["Oo", "Io", "H", "W", "Oi", "Ii"]
    padWeights.result.data (.zeros (t.o * t.hk * t.wk * t.i)) 1
  let elements ← tensorElements dims ["Oaligned"]
  let padBias ← padCall dims ["O"] ["Oaligned"] t.bis (.zeros elements.toNat) 4
  some { dims, padInput, permuteInput, padWeights, permuteWeights, padBias }

/-- The number of blocks that hold a dimension. -/
def blocks (size block : Nat) : Nat := (size + block - 1) / block

section

variable (t : Conv2DTensors) (p : Packing)

/-- What is written is inside of the vectors. -/
structure PackedInBounds : Prop where
  padInput : p.padInput.InBounds
  permuteInput : p.permuteInput.InBounds
  padWeights : p.padWeights.InBounds
  permuteWeights : p.permuteWeights.InBounds
  padBias : p.padBias.InBounds

/-- The vectors have the elements of the tensors, in blocks, and zeros beyond them. -/
structure PackedContents : Prop where
  input : ∀ no < blocks t.n vtaBatch, ∀ io < blocks t.i vtaBlockIn, ∀ h < t.h, ∀ w < t.w, ∀ ni < vtaBatch, ∀ ii < vtaBlockIn,
    p.inparray.data (((((no * blocks t.i vtaBlockIn + io) * t.h + h) * t.w + w) * vtaBatch + ni) * vtaBlockIn + ii) =
      if no * vtaBatch + ni < t.n ∧ io * vtaBlockIn + ii < t.i then
        t.inp ((((no * vtaBatch + ni) * t.h + h) * t.w + w) * t.i + (io * vtaBlockIn + ii))
      else 0
  weights : ∀ oo < blocks t.o vtaBlockOut, ∀ io < blocks t.i vtaBlockIn, ∀ hk < t.hk, ∀ wk < t.wk,
    ∀ oi < vtaBlockOut, ∀ ii < vtaBlockIn,
    p.wgtarray.data (((((oo * blocks t.i vtaBlockIn + io) * t.hk + hk) * t.wk + wk) * vtaBlockOut + oi) * vtaBlockIn + ii) =
      if oo * vtaBlockOut + oi < t.o ∧ io * vtaBlockIn + ii < t.i then
        t.wgt ((((oo * vtaBlockOut + oi) * t.hk + hk) * t.wk + wk) * t.i + (io * vtaBlockIn + ii))
      else 0
  bias : ∀ o < blocks t.o vtaBlockOut * vtaBlockOut, ∀ j < 4,
    p.biasarray.data (4 * o + j) = if o < t.o then t.bis (4 * o + j) else 0

end

/-- The packing runs to its end, within its buffers, and preserves the tensors. -/
def PacksTensors (t : Conv2DTensors) : Prop :=
  ∃ p, packConv2D t = some p ∧ PackedInBounds p ∧ PackedContents t p

section Sizes

theorem toInt_some {x y : Int} (held : toInt x = some y) : x = y ∧ y < 2 ^ 31 := by
  rw [toInt] at held
  split at held
  · cases held
    exact ⟨rfl, by omega⟩
  · cases held

theorem tensorElements_some {dims : Dims} {l : List String} {elements : Int} (held : tensorElements dims l = some elements) :
    elements = (l.map dims).prod := by
  have go (l : List String) (size : Int) {elements : Int}
      (held : l.foldlM (fun size dimname => toInt (size * dims dimname)) size = some elements) :
      elements = size * (l.map dims).prod := by
    induction l generalizing size with
    | nil =>
      cases held
      rw [List.map_nil, List.prod_nil, Int.mul_one]
    | cons a l ih =>
      rw [List.foldlM_cons, Option.bind_eq_bind, Option.bind_eq_some_iff] at held
      obtain ⟨next, first, rest⟩ := held
      rw [ih next rest, ← (toInt_some first).1, List.map_cons, List.prod_cons, Int.mul_assoc]
  rw [go l 1 held, Int.one_mul]

theorem outerLoop_some {dims : Dims} {dimname : String} {block n : Nat} {outer : Int} (size : dims dimname = n)
    (pos : 0 < block) (held : outerLoop dims dimname block = some outer) : outer = blocks n block := by
  simp only [outerLoop, Option.bind_eq_bind, Option.bind_eq_some_iff, Option.some.injEq] at held
  obtain ⟨sum, first, sum', second, rfl⟩ := held
  obtain ⟨rfl, -⟩ := toInt_some first
  obtain ⟨rfl, -⟩ := toInt_some second
  rw [size, blocks, Int.natCast_ediv, Int.tdiv_eq_ediv_of_nonneg (by omega)]
  congr 1
  omega

/-- The dimensions that the packing of the weights and of the bias uses. -/
theorem convDims_some {t : Conv2DTensors} {dims : Dims} (held : convDims t = some dims) :
    dims "H" = t.h ∧ dims "W" = t.w ∧ dims "O" = t.o ∧ dims "Oi" = 16 ∧ dims "Ii" = 16 ∧
      dims "Io" = blocks t.i 16 ∧ dims "Oo" = blocks t.o 16 ∧ dims "Oaligned" = blocks t.o 16 * 16 := by
  simp only [convDims, Option.bind_eq_bind, Option.bind_eq_some_iff, Option.some.injEq] at held
  obtain ⟨no, noHeld, io, ioHeld, oo, ooHeld, na, naHeld, ia, iaHeld, oa, oaHeld, padding, -, width, -, rfl⟩ := held
  have ioEq : io = blocks t.i 16 := outerLoop_some (by simp [setDim]) (by decide) ioHeld
  have ooEq : oo = blocks t.o 16 := outerLoop_some (by simp [setDim]) (by decide) ooHeld
  obtain ⟨oaEq, -⟩ := toInt_some oaHeld
  have block : (vtaBlockOut : Int) = 16 ∧ (vtaBlockIn : Int) = 16 := ⟨rfl, rfl⟩
  simp [setDim, block] at oaEq ⊢
  exact ⟨ioEq, ooEq, by rw [← oaEq, ooEq]⟩

end Sizes

section Writes

variable {dims : Dims}

/-- The zeros of `permuteDims` are within the vector. -/
theorem permuteWrites_fill {inplayout outlayout : List String} {ws : List ArrayWrite}
    (held : permuteWrites dims inplayout outlayout = some ws) :
    ArrayWrite.fill (outlayout.map dims).prod.toNat ∈ ws := by
  simp only [permuteWrites, Option.bind_eq_bind, Option.bind_eq_some_iff] at held
  obtain ⟨elements, -, outelements, size, rest⟩ := held
  split at rest
  · cases rest
  · simp only [Option.bind_eq_some_iff, Option.some.injEq] at rest
    obtain ⟨copies, -, rfl⟩ := rest
    rw [tensorElements_some size]
    exact List.mem_cons_self

theorem mem_of_mapM {α β : Type} {f : α → Option β} {l : List α} {ys : List β} {a : α} {y : β} (all : l.mapM f = some ys)
    (mem : a ∈ l) (held : f a = some y) : y ∈ ys := by
  induction l generalizing ys with
  | nil => cases mem
  | cons b l ih =>
    simp only [List.mapM_cons, Option.bind_eq_bind, Option.bind_eq_some_iff, Option.pure_def, Option.some.injEq] at all
    obtain ⟨first, firstHeld, rest, restHeld, rfl⟩ := all
    rcases List.mem_cons.mp mem with rfl | later
    · rw [held] at firstHeld
      cases firstHeld
      exact List.mem_cons_self
    · exact List.mem_cons_of_mem _ (ih restHeld later)

/-- One axis alone has step one. -/
theorem getDimStep_singleton (dims : Dims) (axis : String) : getDimStep dims [axis] axis = some 1 := by
  rw [getDimStep, List.reverse_singleton, dimStepFrom, if_pos rfl]

/-- An element of a single axis is copied to its place. -/
theorem padElem_singleton {srcaxis dstaxis : String} {size i : Nat} (source : dims srcaxis = size) (inside : i < size)
    (int : i < 2 ^ 31) : padElem dims [srcaxis] [dstaxis] i = some [.copy i i] := by
  have index : padAxes dims [srcaxis] [dstaxis] [(srcaxis, dstaxis)] i 0 = some (some (i : Int)) := by
    have inside' : ¬(i : Int) ≥ size := by omega
    have int' : toInt (i : Int) = some (i : Int) := toInt_nat (by omega)
    rw [padAxes, getDimStep_singleton, getDimStep_singleton, Option.bind_eq_bind, Option.bind_some, if_neg one_ne_zero,
      Int.tdiv_one, source, if_neg inside', Option.bind_some, Int.mul_one, int', Option.bind_some, Int.zero_add, int']
    rfl
  have zip : [srcaxis].zip [dstaxis] = [(srcaxis, dstaxis)] := rfl
  have front : ¬(i : Int) < 0 := by omega
  simp only [padElem, zip, index, Option.bind_eq_bind, Option.bind_some, if_neg front, Int.toNat_natCast]

theorem tensorElements_int {dims : Dims} {axis : String} {elements : Int} (held : tensorElements dims [axis] = some elements) :
    elements < 2 ^ 31 := by
  simp only [tensorElements, List.foldlM_cons, List.foldlM_nil, Option.bind_eq_bind, Option.bind_eq_some_iff] at held
  obtain ⟨size, sizeHeld, last⟩ := held
  cases last
  exact (toInt_some sizeHeld).2

/-- Every element of a single axis is copied. -/
theorem padWrites_singleton {srcaxis dstaxis : String} {size outer i : Nat} {ws : List ArrayWrite} (few : size ≤ outer)
    (inside : i < size) (source : dims srcaxis = size) (aligned : dims dstaxis = outer)
    (held : padWrites dims [srcaxis] [dstaxis] = some ws) : ArrayWrite.copy i i ∈ ws := by
  simp only [padWrites, Option.bind_eq_bind, Option.bind_eq_some_iff] at held
  obtain ⟨elements, elementsHeld, rest⟩ := held
  have count := tensorElements_some elementsHeld
  have int := tensorElements_int elementsHeld
  rw [List.map_singleton, List.prod_singleton, aligned] at count
  split at rest
  · cases rest
  · simp only [Option.bind_eq_some_iff, Option.some.injEq] at rest
    obtain ⟨copies, copiesHeld, rfl⟩ := rest
    have copied : padElem dims [srcaxis] [dstaxis] i = some [.copy i i] := padElem_singleton source inside (by omega)
    have round : i ∈ List.range elements.toNat := List.mem_range.mpr (by omega)
    exact List.mem_cons_of_mem _ (List.mem_flatten.mpr ⟨_, mem_of_mapM copiesHeld round copied, List.mem_singleton_self _⟩)

end Writes

section Claim

variable {t : Conv2DTensors} {p : Packing}

/-- Where the weights go: whole blocks over the height and the width of the input, into a vector for the kernels. -/
theorem weights_needed (held : packConv2D t = some p) (inside : p.permuteWeights.InBounds) :
    blocks t.o 16 * 16 * (blocks t.i 16 * 16) * (t.h * t.w) ≤ t.o * t.hk * t.wk * t.i := by
  simp only [packConv2D, permuteCall, Option.bind_eq_bind, Option.bind_eq_some_iff, Option.some.injEq] at held
  obtain ⟨dims, dimsHeld, -, -, padInput, -, permuteInput, -, -, -, padWeights, -, permuteWeights, call, -, -, padBias, -, rfl⟩ :=
    held
  obtain ⟨ws, wsHeld, rfl⟩ := call
  obtain ⟨h, w, -, oi, ii, io, oo, -⟩ := convDims_some dimsHeld
  have fill := permuteWrites_fill wsHeld
  have size : (["Oo", "Io", "H", "W", "Oi", "Ii"].map dims).prod =
      ((blocks t.o 16 * 16 * (blocks t.i 16 * 16) * (t.h * t.w) : Nat) : Int) := by
    simp only [List.map_cons, List.map_nil, List.prod_cons, List.prod_nil, h, w, oi, ii, io, oo]
    push_cast
    ring
  rw [size, Int.toNat_natCast] at fill
  by_contra small
  have last := inside _ fill (t.o * t.hk * t.wk * t.i) (decide_eq_true (by omega))
  exact absurd last (lt_irrefl _)

/-- Where the biases go: four bytes each, into a vector with one byte for each of them. -/
theorem bias_needed (held : packConv2D t = some p) (pos : 0 < t.o) (inside : p.padBias.InBounds) :
    4 * t.o ≤ blocks t.o 16 * 16 := by
  simp only [packConv2D, padCall, Option.bind_eq_bind, Option.bind_eq_some_iff, Option.some.injEq] at held
  obtain ⟨dims, dimsHeld, -, -, padInput, -, permuteInput, -, -, -, padWeights, -, permuteWeights, -, elements, elementsHeld,
    padBias, call, rfl⟩ := held
  obtain ⟨ws, wsHeld, rfl⟩ := call
  obtain ⟨-, -, o, -, -, -, -, outer⟩ := convDims_some dimsHeld
  have aligned : dims "Oaligned" = ((blocks t.o 16 * 16 : Nat) : Int) := by
    rw [outer]
    omega
  have few : t.o ≤ blocks t.o 16 * 16 := by
    rw [blocks]
    omega
  have copy := padWrites_singleton few (Nat.sub_lt pos Nat.one_pos) o aligned wsHeld
  have range : (t.o - 1) * 4 ≤ 4 * t.o - 1 ∧ 4 * t.o - 1 < (t.o - 1 + 1) * 4 := by omega
  have last := inside _ copy (4 * t.o - 1) (decide_eq_true range)
  have size := tensorElements_some elementsHeld
  rw [List.map_singleton, List.prod_singleton, aligned] at size
  change _ < elements.toNat at last
  omega

/-- The weights need room for all blocks, so that there is none to spare; the biases would need four times of it. -/
theorem conv2D_never_packs (t : Conv2DTensors) (h : 0 < t.h) (w : 0 < t.w) (i : 0 < t.i) (o : 0 < t.o)
    (kernel : t.hk ≤ t.h ∧ t.wk ≤ t.w) : ¬PacksTensors t := by
  rintro ⟨p, held, inside, -⟩
  have weights := weights_needed held inside.permuteWeights
  have bias := bias_needed held o inside.padBias
  have channels : t.i ≤ blocks t.i 16 * 16 := by
    rw [blocks]
    omega
  have kernels : t.o < blocks t.o 16 * 16 := by omega
  have area : t.hk * t.wk ≤ t.h * t.w := Nat.mul_le_mul kernel.1 kernel.2
  have most : t.o * t.hk * t.wk * t.i ≤ t.o * (blocks t.i 16 * 16) * (t.h * t.w) := by
    calc t.o * t.hk * t.wk * t.i = t.o * t.i * (t.hk * t.wk) := by ring
      _ ≤ t.o * (blocks t.i 16 * 16) * (t.h * t.w) := Nat.mul_le_mul (Nat.mul_le_mul_left _ channels) area
  have more : t.o * (blocks t.i 16 * 16) * (t.h * t.w) < blocks t.o 16 * 16 * (blocks t.i 16 * 16) * (t.h * t.w) :=
    Nat.mul_lt_mul_of_pos_right (Nat.mul_lt_mul_of_pos_right kernels (by omega)) (Nat.mul_pos h w)
  omega

/-- One pixel with sixteen channels: nothing has to be padded. -/
def wholeBlocks : Conv2DTensors where
  n := 1
  h := 1
  w := 1
  i := 16
  o := 16
  hk := 1
  wk := 1
  ho := 1
  wo := 1
  inp _ := 0
  wgt _ := 0
  bis _ := 0

theorem wholeBlocks_never_packs : ¬PacksTensors wholeBlocks :=
  conv2D_never_packs wholeBlocks (by decide) (by decide) (by decide) (by decide) (by decide)

/-- All calls are made, and the sixteen biases of four bytes do not fit into the sixteen bytes of their vector. -/
theorem bias_past_its_vector : (packConv2D wholeBlocks).isSome ∧ ¬∀ t : Conv2DTensors,
    0 < t.n → 0 < t.h → 0 < t.w → 0 < t.i → 0 < t.o → 0 < t.hk → 0 < t.wk → t.hk ≤ t.h → t.wk ≤ t.w → PacksTensors t := by
  refine ⟨by decide +kernel, fun claim => ?_⟩
  obtain ⟨p, held, inside, -⟩ := claim wholeBlocks (by decide) (by decide) (by decide) (by decide) (by decide) (by decide)
    (by decide) (by decide) (by decide)
  exact absurd (bias_needed held (by decide) inside.padBias) (by decide)

end Claim

end AlkaliFw
