import AlkaliFw.Quantization

/-! `VTAALUOp::aluAdd` in `vta-delegate-ops.cpp`: how the elements are cut into chunks, and the
commands of each chunk. -/

namespace AlkaliFw

def numThreads : Nat := 2

def computevectorsize : Int := vtaBatch * vtaBlockOut

/-- Of `int`s, like all of the arithmetic in the loops. -/
def maxelements : Int := vtaAccBuffDepth / numThreads / 2 * vtaBlockOut

/-- The integer that is nearest to `x` among those with 24 significant bits; of two, the even one. -/
def roundFloat (x : Nat) : Nat :=
  let e := Nat.log2 x - 23
  let q := x / 2 ^ e
  let r := x % 2 ^ e
  if 2 * r < 2 ^ e ∨ (2 * r = 2 ^ e ∧ q % 2 = 0) then q * 2 ^ e else (q + 1) * 2 ^ e

def toFloat (x : Int) : Int := x.sign * roundFloat x.natAbs

/-- `std::ceil(static_cast<float>(x) / computevectorsize)`; dividing by a power of two loses nothing. -/
def ceilUnits (x : Int) : Int := -(-toFloat x / computevectorsize)

/-- The variables of one round of the inner loop. -/
structure AluChunk where
  vectorshift : Int
  sramshift : Int
  veclength : Int
  padding : Int
  vectorshiftelem : Int
  veclengthelem : Int
  processdatalengthelem : Int
  deriving DecidableEq, Repr

def AluChunk.of (numelements vectorshift sramshift : Int) : AluChunk :=
  let veclength := min maxelements (toInt32 (numelements - vectorshift))
  let padding := if veclength.tmod computevectorsize = 0 then 0
    else computevectorsize - veclength.tmod computevectorsize
  let processdatalength := veclength + padding
  { vectorshift
    sramshift
    veclength
    padding
    vectorshiftelem := ceilUnits vectorshift
    veclengthelem := ceilUnits veclength
    processdatalengthelem := ceilUnits processdatalength }

/-- The inner loop, from the chunk of the next thread on: the chunks, and `vectorshift` after them. -/
def threadChunks (numelements : Int) : Nat → Int → Int → List AluChunk × Int
  | 0, vectorshift, _ => ([], vectorshift)
  | threads + 1, vectorshift, sramshift =>
    if vectorshift ≥ numelements then threadChunks numelements threads vectorshift sramshift
    else
      let c := AluChunk.of numelements vectorshift sramshift
      let rest := threadChunks numelements threads (toInt32 (vectorshift + c.veclength))
        (toInt32 (sramshift + 2 * c.processdatalengthelem))
      (c :: rest.1, rest.2)

/-- The outer loop; `none` when it goes on after `fuel` rounds. -/
def chunksFrom (numelements : Int) : Nat → Int → Option (List AluChunk)
  | 0, _ => none
  | fuel + 1, vectorshift =>
    if vectorshift < numelements then
      let round := threadChunks numelements numThreads vectorshift 0
      (chunksFrom numelements fuel round.2).map (round.1 ++ ·)
    else some []

namespace AluChunk

section

variable (c : AluChunk)

def load1 : MemInsn where
  memoryType := .acc
  dramBuffer := .vtainput1
  dramBase := toField 32 c.vectorshiftelem
  xSize := toField 16 c.veclengthelem
  ySize := 1
  xStride := 1
  xPad1 := toField 4 c.padding
  sramBase := toField 16 c.sramshift

def load2 : MemInsn where
  memoryType := .acc
  dramBuffer := .vtainput2
  dramBase := toField 32 c.vectorshiftelem
  xSize := toField 16 c.veclengthelem
  ySize := 1
  xStride := 1
  xPad1 := toField 4 c.padding
  sramBase := toField 16 (c.sramshift + c.processdatalengthelem)

def storeInsn : MemInsn where
  memoryType := .out
  dramBuffer := .vtaoutput
  sramBase := toField 16 c.sramshift
  dramBase := toField 32 c.vectorshiftelem
  xSize := toField 16 c.veclengthelem
  ySize := 1
  xStride := 1

variable (outputquant : QuantizationData)

/-- An operation on the sums of the chunk, with `imm` or with the second input. -/
def kernel (opcode : AluOpcode) (imm : Option Int) (srcIndex : Int) : UopKernel where
  extent := c.processdatalengthelem.toNat
  dstFactor := 1
  srcFactor := 1
  dstIndex := c.sramshift.toNat
  srcIndex := srcIndex.toNat
  opcode := opcode
  useImm := imm.isSome
  immVal := toInt16 (imm.getD 0)

/-- The operations in their order: the sum, its rescaling to the output, and the two clamps. -/
def kernels : List UopKernel :=
  let second := c.sramshift + c.processdatalengthelem
  [c.kernel .add none second,
    c.kernel .mul (some outputquant.multiplier) 0,
    c.kernel .shr (some (15 - outputquant.shift)) second,
    c.kernel .add (some outputquant.offset) second,
    c.kernel .min (some 127) second,
    c.kernel .max (some (-128)) second]

/-- What the operations leave in a lane with two inputs. -/
def lane (inp1 inp2 : Int) : Int := (c.kernels outputquant).foldl (fun dst kernel => kernel.exec dst inp2) inp1

def loadCommands (q : CommandQueue) : CommandQueue :=
  let q := q.depPop .kComputeStage .kLoadStage
  let q := q.loadBuffer2D c.load1
  let q := q.loadBuffer2D c.load2
  let q := q.depPush .kLoadStage .kComputeStage
  let q := q.depPop .kStoreStage .kComputeStage
  q.depPop .kLoadStage .kComputeStage

def storeCommands (q : CommandQueue) : CommandQueue :=
  let q := q.depPush .kComputeStage .kStoreStage
  let q := q.depPop .kComputeStage .kStoreStage
  let q := q.storeBuffer2D c.storeInsn
  let q := q.depPush .kStoreStage .kComputeStage
  q.depPush .kComputeStage .kLoadStage

/-- The commands of one round of the inner loop. -/
def commands (q : CommandQueue) : CommandQueue :=
  c.storeCommands ((c.kernels outputquant).foldl CommandQueue.pushALUUop (c.loadCommands q))

end

end AluChunk

/-- The commands of `aluAdd`, from the first push to `VTASynchronize`. -/
def aluAddCommands (outputquant : QuantizationData) (chunks : List AluChunk) : CommandQueue :=
  let q : CommandQueue := {}
  let q := q.depPush .kComputeStage .kLoadStage
  let q := q.depPush .kStoreStage .kComputeStage
  let q := chunks.foldl (fun q c => c.commands outputquant q) q
  let q := q.depPop .kComputeStage .kLoadStage
  let q := q.depPop .kStoreStage .kComputeStage
  q.synchronize

/-- The queue after `aluAdd` on `numelements` elements, unless its loops go on after `fuel` rounds. -/
def aluAddQueue (numelements : Int) (outputquant : QuantizationData) (fuel : Nat) : Option CommandQueue :=
  (chunksFrom numelements fuel 0).map (aluAddCommands outputquant)

end AlkaliFw
