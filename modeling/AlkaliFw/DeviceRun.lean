import AlkaliFw.TokenStream

/-! What the device of `sim_driver.cc` does with the streams of instructions that it is given. -/

namespace AlkaliFw
open InOrderStages

/-- Conversion to `int8_t`. -/
def toInt8 (x : Int) : Int := (x + 2 ^ 7) % 2 ^ 8 - 2 ^ 7

/-- The accumulator memory and the buffers, by lanes: the unit `u` is at `16 * u` and what follows. -/
structure DeviceMemory where
  acc : Nat → Int
  dram : DramBuffer → Nat → Int

namespace DeviceMemory

/-- `SRAM::Load` into the accumulator memory: rows with padding around them. -/
def loadAcc (mem : DeviceMemory) (m : MemInsn) : DeviceMemory :=
  let xtotal := m.xSize + m.xPad0 + m.xPad1
  { mem with
    acc := fun p =>
      if m.sramBase ≤ p / vtaBlockOut ∧ p / vtaBlockOut < m.sramEnd then
        let x := (p / vtaBlockOut - m.sramBase) % xtotal
        let y := (p / vtaBlockOut - m.sramBase) / xtotal
        if m.yPad0 ≤ y ∧ y < m.yPad0 + m.ySize ∧ m.xPad0 ≤ x ∧ x < m.xPad0 + m.xSize then
          mem.dram m.dramBuffer
            ((m.dramBase + (y - m.yPad0) * m.xStride + (x - m.xPad0)) * vtaBlockOut + p % vtaBlockOut)
        else 0
      else mem.acc p }

/-- The kernels are kept with the instructions that run them, so only loads of the accumulator memory count. -/
def runLoad (mem : DeviceMemory) (m : MemInsn) : DeviceMemory :=
  if m.xSize = 0 then mem else if m.memoryType = .acc then mem.loadAcc m else mem

/-- One unit of `TruncStore`. -/
def storeUnit (mem : DeviceMemory) (m : MemInsn) (y x : Nat) : DeviceMemory :=
  { mem with
    dram := fun b p =>
      if b = m.dramBuffer ∧ p / vtaBlockOut = m.dramBase + y * m.xStride + x then
        toInt8 (mem.acc ((m.sramBase + y * m.xSize + x) * vtaBlockOut + p % vtaBlockOut))
      else mem.dram b p }

def runStore (mem : DeviceMemory) (m : MemInsn) : DeviceMemory :=
  if m.xSize = 0 then mem
  else (List.range m.ySize).foldl (fun mem y => (List.range m.xSize).foldl (fun mem x => mem.storeUnit m y x) mem) mem

/-- One round of `RunALULoop`, on all lanes of a unit. -/
def aluUnit (mem : DeviceMemory) (kernel : UopKernel) (x : Nat) : DeviceMemory :=
  { mem with
    acc := fun p =>
      if p / vtaBlockOut = kernel.dstIndex + x * kernel.dstFactor then
        kernel.exec (mem.acc p) (mem.acc ((kernel.srcIndex + x * kernel.srcFactor) * vtaBlockOut + p % vtaBlockOut))
      else mem.acc p }

def runALU (mem : DeviceMemory) (kernel : UopKernel) : DeviceMemory :=
  (List.range kernel.extent).foldl (fun mem x => mem.aluUnit kernel x) mem

/-- `Run_Insn`. -/
def runInsn (mem : DeviceMemory) (insn : Insn) : DeviceMemory :=
  match insn.operation with
  | .load m => mem.runLoad m
  | .store m => mem.runStore m
  | .alu _ _ kernel => mem.runALU kernel
  | .finish => mem

def runInsns (mem : DeviceMemory) (done : List (Insn × Nat)) : DeviceMemory :=
  done.foldl (fun mem x => mem.runInsn x.1) mem

end DeviceMemory

/-- The checks of the memories: `sram_end` of a load, and the indices of an ALU instruction. -/
def Operation.InBounds : Operation → Prop
  | .load m => m.xSize = 0 ∨ m.sramEnd ≤ if m.memoryType = .uop then vtaUopBuffDepth else vtaAccBuffDepth
  | .alu _ uopEnd kernel => uopEnd ≤ vtaUopBuffDepth ∧ ∀ x < kernel.extent,
      kernel.dstIndex + x * kernel.dstFactor < vtaAccBuffDepth ∧ kernel.srcIndex + x * kernel.srcFactor < vtaAccBuffDepth
  | _ => True

inductive DeviceResult where
  | done (mem : DeviceMemory)
  | aborted
  | hangs

/-- What may come of streams that are run one after another, under any schedule. Tokens that a stream leaves
stay for the next one. -/
inductive DeviceRuns : (DepQueue → Nat) → List (List Insn) → DeviceMemory → DeviceResult → Prop
  | none (tokens : DepQueue → Nat) (mem : DeviceMemory) : DeviceRuns tokens [] mem (.done mem)
  | next {tokens : DepQueue → Nat} {s : List Insn} {rest : List (List Insn)} {mem : DeviceMemory}
      {st : State Insn CoreType DepQueue} {result : DeviceResult}
      (reach : Relation.ReflTransGen (Step tlpp) (startWith tlpp tokens s) st)
      (complete : ∀ core, st.queue core = []) (inBounds : ∀ x ∈ st.done, x.1.operation.InBounds)
      (runs : DeviceRuns st.tokens rest (mem.runInsns st.done) result) : DeviceRuns tokens (s :: rest) mem result
  | aborts {tokens : DepQueue → Nat} {s : List Insn} {rest : List (List Insn)} {mem : DeviceMemory}
      {st : State Insn CoreType DepQueue} {x : Insn × Nat}
      (reach : Relation.ReflTransGen (Step tlpp) (startWith tlpp tokens s) st) (ran : x ∈ st.done)
      (out : ¬x.1.operation.InBounds) : DeviceRuns tokens (s :: rest) mem .aborted
  | stuck {tokens : DepQueue → Nat} {s : List Insn} {rest : List (List Insn)} {mem : DeviceMemory}
      {st : State Insn CoreType DepQueue} {core : CoreType}
      (reach : Relation.ReflTransGen (Step tlpp) (startWith tlpp tokens s) st) (stop : ∀ st', ¬Step tlpp st st')
      (waits : st.queue core ≠ []) : DeviceRuns tokens (s :: rest) mem .hangs
  | forever {tokens : DepQueue → Nat} {s : List Insn} {rest : List (List Insn)} {mem : DeviceMemory}
      (run : Nat → State Insn CoreType DepQueue) (first : run 0 = startWith tlpp tokens s)
      (steps : ∀ t, Step tlpp (run t) (run (t + 1))) : DeviceRuns tokens (s :: rest) mem .hangs

end AlkaliFw
