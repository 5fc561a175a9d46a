import Mathlib

/-! The VTA runtime of `vta_runtime.cc`: instructions, the tokens attached to them, and the queue of
commands, with the sizes of `vta_params.hpp` and `hw_spec_const.h`. -/

namespace AlkaliFw

def vtaBatch : Nat := 1 <<< 0

def vtaBlockOut : Nat := 1 <<< 4

def vtaAccBuffSize : Nat := 1 <<< 17

/-- `VTA_ACC_ELEM_BYTES`, from `VTA_ACC_MATRIX_WIDTH` bits. -/
def vtaAccElemBytes : Nat := (1 <<< 5) * vtaBatch * vtaBlockOut / 8

def vtaAccBuffDepth : Nat := vtaAccBuffSize / vtaAccElemBytes

/-- `VTA_UOP_BUFF_SIZE / VTA_UOP_ELEM_BYTES`. -/
def vtaUopBuffDepth : Nat := (1 <<< 15) / ((1 <<< 5) / 8)

def vtaMaxXfer : Nat := 1 <<< 25

/-- Conversion to `int16_t`. -/
def toInt16 (x : Int) : Int := (x + 2 ^ 15) % 2 ^ 16 - 2 ^ 15

/-- Conversion to `int32_t`. -/
def toInt32 (x : Int) : Int := (x + 2 ^ 31) % 2 ^ 32 - 2 ^ 31

/-- What a field of `k` bits keeps. -/
def toField (k : Nat) (x : Int) : Nat := (x % 2 ^ k).toNat

inductive PipelineStage where
  | kNoneStage | kLoadStage | kComputeStage | kStoreStage
  deriving DecidableEq, Repr

/-- The numbers of the enumeration, which `DepPop` and `DepPush` compare. -/
def PipelineStage.toNat : PipelineStage → Nat
  | kNoneStage => 0
  | kLoadStage => 1
  | kComputeStage => 2
  | kStoreStage => 3

inductive MemoryType where
  | uop | wgt | inp | acc | out | acc8bit
  deriving DecidableEq, Repr

inductive AluOpcode where
  | min | max | add | shr | mul
  deriving DecidableEq, Repr

/-- The buffers in DRAM: the one of the micro-ops, and those that `aluAdd` allocates. -/
inductive DramBuffer where
  | fpgaBuff | vtainput1 | vtainput2 | vtaoutput
  deriving DecidableEq, Repr

/-- `dramBase` counts elements from the start of the buffer on. -/
structure MemInsn where
  memoryType : MemoryType
  dramBuffer : DramBuffer := .fpgaBuff
  sramBase : Nat := 0
  dramBase : Nat := 0
  ySize : Nat := 0
  xSize : Nat := 0
  xStride : Nat := 0
  yPad0 : Nat := 0
  yPad1 : Nat := 0
  xPad0 : Nat := 0
  xPad1 : Nat := 0
  deriving DecidableEq, Repr

/-- A kernel of one micro-op in one loop; `imm_val_` is an `int16_t`. -/
structure UopKernel where
  extent : Nat
  dstFactor : Nat
  srcFactor : Nat
  dstIndex : Nat
  srcIndex : Nat
  opcode : AluOpcode
  useImm : Bool
  immVal : Int
  deriving DecidableEq, Repr

/-- One lane of `RunALULoop`, on the destination and the source. -/
def UopKernel.exec (kernel : UopKernel) (dst src : Int) : Int :=
  let y := if kernel.useImm then kernel.immVal else src
  match kernel.opcode with
  | .min => Min.min dst y
  | .max => Max.max dst y
  | .add => toInt32 (dst + y)
  | .shr => if y ≥ 0 then dst >>> y.toNat else toInt32 (dst * 2 ^ (-y).toNat)
  | .mul => toInt32 (dst * y)

/-- An instruction that is not a dependency, by its opcode; an ALU instruction with the kernel that
the micro-ops from `uopBgn` to `uopEnd` are. -/
inductive Operation where
  | load (m : MemInsn)
  | store (m : MemInsn)
  | alu (uopBgn uopEnd : Nat) (kernel : UopKernel)
  | finish
  deriving DecidableEq, Repr

structure Insn where
  operation : Operation
  popPrevDep : Bool := false
  popNextDep : Bool := false
  pushPrevDep : Bool := false
  pushNextDep : Bool := false
  deriving DecidableEq, Repr

def getMemPipelineStage : MemoryType → PipelineStage
  | .acc | .acc8bit | .uop => .kComputeStage
  | _ => .kLoadStage

/-- A load of nothing is of no stage, and neither is `FINISH`. -/
def getPipelineStage (insn : Insn) : PipelineStage :=
  match insn.operation with
  | .alu .. => .kComputeStage
  | .load m => if m.xSize = 0 then .kNoneStage else getMemPipelineStage m.memoryType
  | .store _ => .kStoreStage
  | .finish => .kNoneStage

/-- The instruction of `PushNoop`. -/
def noopInsn (stage : PipelineStage) (pushPrev pushNext popPrev popNext : Bool) : Insn :=
  let m : MemInsn := { memoryType := if stage = .kLoadStage then .inp else .uop }
  { operation := if stage = .kStoreStage then .store m else .load m
    popPrevDep := popPrev
    popNextDep := popNext
    pushPrevDep := pushPrev
    pushNextDep := pushNext }

/-- `pending_pop_prev_` or `pending_pop_next_`, without the entry that is not used. -/
structure PendingPops where
  kLoadStage : Bool := false
  kComputeStage : Bool := false
  kStoreStage : Bool := false
  deriving DecidableEq, Repr

namespace PendingPops

def get (p : PendingPops) : PipelineStage → Bool
  | .kNoneStage => false
  | .kLoadStage => p.kLoadStage
  | .kComputeStage => p.kComputeStage
  | .kStoreStage => p.kStoreStage

def set (p : PendingPops) (stage : PipelineStage) (value : Bool) : PendingPops :=
  match stage with
  | .kNoneStage => p
  | .kLoadStage => { p with kLoadStage := value }
  | .kComputeStage => { p with kComputeStage := value }
  | .kStoreStage => { p with kStoreStage := value }

end PendingPops

/-- The newest instruction of `dramBuffer` comes first. -/
structure InsnQueue where
  dramBuffer : List Insn := []
  pendingPopPrev : PendingPops := {}
  pendingPopNext : PendingPops := {}
  deriving DecidableEq, Repr

namespace InsnQueue

def nextInsn (q : InsnQueue) (insn : Insn) : InsnQueue := { q with dramBuffer := insn :: q.dramBuffer }

def clearPending (q : InsnQueue) (stage : PipelineStage) : InsnQueue :=
  { q with
    pendingPopPrev := q.pendingPopPrev.set stage false
    pendingPopNext := q.pendingPopNext.set stage false }

def pushNoop (q : InsnQueue) (stage : PipelineStage) (pushPrev pushNext popPrev popNext : Bool) : InsnQueue :=
  q.nextInsn (noopInsn stage pushPrev pushNext popPrev popNext)

def commitPendingPop (q : InsnQueue) (stage : PipelineStage) : InsnQueue :=
  if q.pendingPopPrev.get stage ∨ q.pendingPopNext.get stage then
    (q.pushNoop stage false false (q.pendingPopPrev.get stage) (q.pendingPopNext.get stage)).clearPending stage
  else q

/-- The pop goes to the next instruction of `dst`. -/
def depPop (q : InsnQueue) (src dst : PipelineStage) : InsnQueue :=
  if src.toNat < dst.toNat then
    let q := if q.pendingPopPrev.get dst then q.commitPendingPop dst else q
    { q with pendingPopPrev := q.pendingPopPrev.set dst true }
  else
    let q := if q.pendingPopNext.get dst then q.commitPendingPop dst else q
    { q with pendingPopNext := q.pendingPopNext.set dst true }

/-- The push goes to the newest instruction when that is of `src` and does not push there already. -/
def depPush (q : InsnQueue) (src dst : PipelineStage) : InsnQueue :=
  let q := q.commitPendingPop src
  let noop := if src.toNat < dst.toNat then q.pushNoop src false true false false
    else q.pushNoop src true false false false
  match q.dramBuffer with
  | [] => noop
  | mptr :: older =>
    if getPipelineStage mptr = src then
      if src.toNat < dst.toNat ∧ mptr.pushNextDep = false then
        { q with dramBuffer := { mptr with pushNextDep := true } :: older }
      else if dst.toNat < src.toNat ∧ mptr.pushPrevDep = false then
        { q with dramBuffer := { mptr with pushPrevDep := true } :: older }
      else noop
    else noop

def create (q : InsnQueue) (stage : PipelineStage) (operation : Operation) : InsnQueue :=
  (q.nextInsn
    { operation
      popPrevDep := q.pendingPopPrev.get stage
      popNextDep := q.pendingPopNext.get stage }).clearPending stage

def pendingPop (q : InsnQueue) : Bool :=
  [PipelineStage.kLoadStage, .kComputeStage, .kStoreStage].any fun s =>
    q.pendingPopPrev.get s || q.pendingPopNext.get s

end InsnQueue

/-- The micro-op queue in its buffer; kernels are not kept, as each push brings a new one. -/
structure UopQueue where
  sramBegin : Nat := 0
  sramEnd : Nat := 0

namespace UopQueue

def pending (q : UopQueue) : Bool := q.sramBegin != q.sramEnd

/-- `Push` of a kernel of `numOp` micro-ops, with the first of them in the buffer. -/
def push (q : UopQueue) (numOp : Nat) : UopQueue × Nat :=
  if q.sramEnd + numOp > vtaUopBuffDepth then (⟨0, numOp⟩, 0)
  else ({ q with sramEnd := q.sramEnd + numOp }, q.sramEnd)

/-- The instruction that `FlushUopLoad` fills. -/
def uopLoad (q : UopQueue) : MemInsn where
  memoryType := .uop
  sramBase := q.sramBegin
  ySize := 1
  xSize := q.sramEnd - q.sramBegin
  xStride := q.sramEnd - q.sramBegin

def flushUopLoad (q : UopQueue) : UopQueue := { q with sramBegin := q.sramEnd }

end UopQueue

/-- The queue of one thread. `runs` are the streams that were given to the device; `checked` says that
no `CHECK` has failed. -/
structure CommandQueue where
  uopQueue : UopQueue := {}
  insnQueue : InsnQueue := {}
  runs : List (List Insn) := []
  checked : Bool := true

namespace CommandQueue

def depPush (q : CommandQueue) (src dst : PipelineStage) : CommandQueue :=
  { q with insnQueue := q.insnQueue.depPush src dst }

def depPop (q : CommandQueue) (src dst : PipelineStage) : CommandQueue :=
  { q with insnQueue := q.insnQueue.depPop src dst }

/-- `Synchronize`, without `VTA_DEBUG_FORCE_SERIAL`. -/
def synchronize (q : CommandQueue) : CommandQueue :=
  let iq := q.insnQueue.depPush .kStoreStage .kComputeStage
  let iq := iq.depPush .kLoadStage .kComputeStage
  let iq := iq.depPop .kStoreStage .kComputeStage
  let iq := iq.depPop .kLoadStage .kComputeStage
  let iq := iq.commitPendingPop .kComputeStage
  let iq := iq.create .kComputeStage .finish
  { uopQueue := {}
    insnQueue := { iq with dramBuffer := [] }
    runs := q.runs ++ [iq.dramBuffer.reverse]
    checked := q.checked && !iq.pendingPop && decide (iq.dramBuffer.length * 16 ≤ vtaMaxXfer) }

/-- `CheckInsnOverFlow`, with `AutoSync`; an instruction has 16 bytes. -/
def checkInsnOverFlow (q : CommandQueue) : CommandQueue :=
  if (q.insnQueue.dramBuffer.length + 6) * 16 > vtaMaxXfer then q.synchronize else q

/-- An operation of `stage`. -/
def issue (q : CommandQueue) (stage : PipelineStage) (operation : Operation) : CommandQueue :=
  { q with insnQueue := q.insnQueue.create stage operation }

def loadBuffer2D (q : CommandQueue) (m : MemInsn) : CommandQueue :=
  (q.issue (getMemPipelineStage m.memoryType) (.load m)).checkInsnOverFlow

def storeBuffer2D (q : CommandQueue) (m : MemInsn) : CommandQueue :=
  (q.issue .kStoreStage (.store m)).checkInsnOverFlow

/-- The private `PushALUUop` of a new kernel: its micro-op is loaded first. -/
def pushKernel (q : CommandQueue) (kernel : UopKernel) : CommandQueue :=
  let (uq, uopBegin) := q.uopQueue.push 1
  let q :=
    if uq.pending then { q.issue .kComputeStage (.load uq.uopLoad) with uopQueue := uq.flushUopLoad }
    else { q with uopQueue := uq }
  q.issue .kComputeStage (.alu uopBegin (uopBegin + 1) kernel)

def pushALUUop (q : CommandQueue) (kernel : UopKernel) : CommandQueue := (q.pushKernel kernel).checkInsnOverFlow

end CommandQueue

end AlkaliFw
