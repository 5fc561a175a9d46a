import AlkaliFw.DeviceResults
import AlkaliFw.ScheduleEffects

/-! What the streams of `aluAdd` compute. In the order of the stream each chunk brings its results to
their places; a schedule may only move the store of a chunk behind instructions of the next one, which
use the other half of the accumulator memory. -/

namespace AlkaliFw
open InOrderStages

theorem DeviceMemory.ext {mem mem' : DeviceMemory} (acc : mem.acc = mem'.acc) (dram : mem.dram = mem'.dram) : mem = mem' := by
  cases mem
  cases mem'
  simp_all

section Effects

variable {mem mem' : DeviceMemory} {p : Nat}

/-- A store of one row. -/
theorem storeRow_acc (m : MemInsn) (y n : Nat) :
    ((List.range n).foldl (fun mem x => mem.storeUnit m y x) mem).acc = mem.acc := by
  induction n with
  | zero => rfl
  | succ n ih =>
      rw [List.range_succ, List.foldl_append]
      exact ih

theorem storeRow_dram (m : MemInsn) (y n : Nat) (b : DramBuffer) :
    ((List.range n).foldl (fun mem x => mem.storeUnit m y x) mem).dram b p =
      if b = m.dramBuffer ∧ m.dramBase + y * m.xStride ≤ p / vtaBlockOut ∧
        p / vtaBlockOut < m.dramBase + y * m.xStride + n then
        toInt8 (mem.acc ((m.sramBase + y * m.xSize + (p / vtaBlockOut - (m.dramBase + y * m.xStride))) * vtaBlockOut +
          p % vtaBlockOut))
      else mem.dram b p := by
  induction n with
  | zero =>
      rw [if_neg fun inside => by omega]
      rfl
  | succ n ih =>
      rw [List.range_succ, List.foldl_append]
      change (if b = m.dramBuffer ∧ p / vtaBlockOut = m.dramBase + y * m.xStride + n then
        toInt8 (((List.range n).foldl (fun mem x => mem.storeUnit m y x) mem).acc _) else
          ((List.range n).foldl (fun mem x => mem.storeUnit m y x) mem).dram b p) = _
      rw [storeRow_acc, ih]
      by_cases last : b = m.dramBuffer ∧ p / vtaBlockOut = m.dramBase + y * m.xStride + n
      · rw [if_pos last, if_pos ⟨last.1, by omega, by omega⟩, last.2, Nat.add_sub_cancel_left]
      · rw [if_neg last]
        by_cases before : b = m.dramBuffer ∧ m.dramBase + y * m.xStride ≤ p / vtaBlockOut ∧
            p / vtaBlockOut < m.dramBase + y * m.xStride + n
        · rw [if_pos before, if_pos ⟨before.1, before.2.1, by omega⟩]
        · refine (if_neg before).trans (if_neg fun inside => ?_).symm
          have other : p / vtaBlockOut ≠ m.dramBase + y * m.xStride + n := fun eq => last ⟨inside.1, eq⟩
          exact before ⟨inside.1, inside.2.1, by omega⟩

/-- A store of units in one row. -/
structure RowStore (m : MemInsn) : Prop where
  some : m.xSize ≠ 0
  row : m.ySize = 1

theorem RowStore.run {m : MemInsn} (row : RowStore m) (mem : DeviceMemory) :
    mem.runStore m = (List.range m.xSize).foldl (fun mem x => mem.storeUnit m 0 x) mem := by
  rw [DeviceMemory.runStore, if_neg row.some, row.row]
  rfl

theorem RowStore.acc {m : MemInsn} (row : RowStore m) : (mem.runStore m).acc = mem.acc := by
  rw [row.run, storeRow_acc]

theorem RowStore.dram {m : MemInsn} (row : RowStore m) (b : DramBuffer) :
    (mem.runStore m).dram b p =
      if b = m.dramBuffer ∧ m.dramBase ≤ p / vtaBlockOut ∧ p / vtaBlockOut < m.dramBase + m.xSize then
        toInt8 (mem.acc ((m.sramBase + (p / vtaBlockOut - m.dramBase)) * vtaBlockOut + p % vtaBlockOut))
      else mem.dram b p := by
  rw [row.run, storeRow_dram]
  simp only [Nat.zero_mul, Nat.add_zero]

/-- A kernel on consecutive units, which does not read units that it has written before. -/
structure RowKernel (kernel : UopKernel) : Prop where
  dst : kernel.dstFactor = 1
  src : kernel.srcFactor = 1
  apart : kernel.useImm = true ∨ kernel.dstIndex + kernel.extent ≤ kernel.srcIndex

theorem exec_imm {kernel : UopKernel} (imm : kernel.useImm = true) (dst src src' : Int) :
    kernel.exec dst src = kernel.exec dst src' := by
  simp only [UopKernel.exec, imm, if_true]

/-- The first `n` rounds of a kernel. -/
theorem rounds_acc {kernel : UopKernel} (row : RowKernel kernel) {n : Nat} (le : n ≤ kernel.extent) :
    ((List.range n).foldl (fun mem x => mem.aluUnit kernel x) mem).acc p =
      if kernel.dstIndex ≤ p / vtaBlockOut ∧ p / vtaBlockOut < kernel.dstIndex + n then
        kernel.exec (mem.acc p) (mem.acc ((kernel.srcIndex + (p / vtaBlockOut - kernel.dstIndex)) * vtaBlockOut + p % vtaBlockOut))
      else mem.acc p := by
  induction n generalizing p with
  | zero =>
      rw [if_neg (by omega)]
      rfl
  | succ n ih =>
      have before {p : Nat} := ih (p := p) (by omega)
      rw [List.range_succ, List.foldl_append]
      change (if p / vtaBlockOut = kernel.dstIndex + n * kernel.dstFactor then
        kernel.exec (((List.range n).foldl (fun mem x => mem.aluUnit kernel x) mem).acc p)
          (((List.range n).foldl (fun mem x => mem.aluUnit kernel x) mem).acc
            ((kernel.srcIndex + n * kernel.srcFactor) * vtaBlockOut + p % vtaBlockOut)) else
              ((List.range n).foldl (fun mem x => mem.aluUnit kernel x) mem).acc p) = _
      rw [row.dst, row.src, Nat.mul_one]
      by_cases last : p / vtaBlockOut = kernel.dstIndex + n
      · rw [if_pos last, if_pos (by omega), before, if_neg (by omega), last, Nat.add_sub_cancel_left]
        obtain imm | apart := row.apart
        · exact exec_imm imm _ _ _
        · have place : ((kernel.srcIndex + n) * vtaBlockOut + p % vtaBlockOut) / vtaBlockOut = kernel.srcIndex + n := by
            change ((kernel.srcIndex + n) * 16 + p % 16) / 16 = _
            omega
          rw [before, place, if_neg (by omega)]
      · rw [if_neg last, before]
        by_cases inside : kernel.dstIndex ≤ p / vtaBlockOut ∧ p / vtaBlockOut < kernel.dstIndex + n
        · rw [if_pos inside, if_pos (by omega)]
        · rw [if_neg inside, if_neg (by omega)]

theorem rounds_dram (kernel : UopKernel) (l : List Nat) :
    (l.foldl (fun mem x => mem.aluUnit kernel x) mem).dram = mem.dram := by
  induction l generalizing mem with
  | nil => rfl
  | cons x l ih => exact ih

theorem runALU_dram (kernel : UopKernel) : (mem.runALU kernel).dram = mem.dram := rounds_dram kernel _

theorem RowKernel.acc {kernel : UopKernel} (row : RowKernel kernel) :
    (mem.runALU kernel).acc p =
      if kernel.dstIndex ≤ p / vtaBlockOut ∧ p / vtaBlockOut < kernel.dstIndex + kernel.extent then
        kernel.exec (mem.acc p) (mem.acc ((kernel.srcIndex + (p / vtaBlockOut - kernel.dstIndex)) * vtaBlockOut + p % vtaBlockOut))
      else mem.acc p := rounds_acc row le_rfl

/-- A load of units of one row, with padding after them. -/
structure RowLoad (m : MemInsn) : Prop where
  acc : m.memoryType = .acc
  some : m.xSize ≠ 0
  row : m.ySize = 1
  above : m.yPad0 = 0
  below : m.yPad1 = 0
  before : m.xPad0 = 0

theorem RowLoad.run {m : MemInsn} (row : RowLoad m) (mem : DeviceMemory) : mem.runLoad m = mem.loadAcc m := by
  rw [DeviceMemory.runLoad, if_neg row.some, if_pos row.acc]

theorem RowLoad.dram {m : MemInsn} (row : RowLoad m) : (mem.runLoad m).dram = mem.dram := by
  rw [row.run]
  rfl

theorem RowLoad.sramEnd {m : MemInsn} (row : RowLoad m) : m.sramEnd = m.sramBase + (m.xSize + m.xPad1) := by
  rw [MemInsn.sramEnd, row.row, row.above, row.below, row.before, Nat.add_zero, Nat.mul_one]

theorem RowLoad.acc_eq {m : MemInsn} (row : RowLoad m) :
    (mem.runLoad m).acc p =
      if m.sramBase ≤ p / vtaBlockOut ∧ p / vtaBlockOut < m.sramBase + (m.xSize + m.xPad1) then
        if p / vtaBlockOut < m.sramBase + m.xSize then
          mem.dram m.dramBuffer ((m.dramBase + (p / vtaBlockOut - m.sramBase)) * vtaBlockOut + p % vtaBlockOut)
        else 0
      else mem.acc p := by
  rw [row.run]
  change (if m.sramBase ≤ p / vtaBlockOut ∧ p / vtaBlockOut < m.sramEnd then
    if m.yPad0 ≤ (p / vtaBlockOut - m.sramBase) / (m.xSize + m.xPad0 + m.xPad1) ∧
        (p / vtaBlockOut - m.sramBase) / (m.xSize + m.xPad0 + m.xPad1) < m.yPad0 + m.ySize ∧
        m.xPad0 ≤ (p / vtaBlockOut - m.sramBase) % (m.xSize + m.xPad0 + m.xPad1) ∧
        (p / vtaBlockOut - m.sramBase) % (m.xSize + m.xPad0 + m.xPad1) < m.xPad0 + m.xSize then
      mem.dram m.dramBuffer ((m.dramBase + ((p / vtaBlockOut - m.sramBase) / (m.xSize + m.xPad0 + m.xPad1) - m.yPad0) * m.xStride +
        ((p / vtaBlockOut - m.sramBase) % (m.xSize + m.xPad0 + m.xPad1) - m.xPad0)) * vtaBlockOut + p % vtaBlockOut)
    else 0
  else mem.acc p) = _
  rw [row.sramEnd, row.row, row.above, row.before, Nat.add_zero]
  by_cases inside : m.sramBase ≤ p / vtaBlockOut ∧ p / vtaBlockOut < m.sramBase + (m.xSize + m.xPad1)
  · have small : p / vtaBlockOut - m.sramBase < m.xSize + m.xPad1 := by omega
    rw [if_pos inside, if_pos inside, Nat.div_eq_of_lt small, Nat.mod_eq_of_lt small]
    by_cases data : p / vtaBlockOut < m.sramBase + m.xSize
    · rw [if_pos (by omega), if_pos data, Nat.sub_zero, Nat.sub_zero, Nat.zero_mul, Nat.add_zero]
    · rw [if_neg (by omega), if_neg data]
  · rw [if_neg inside, if_neg inside]

end Effects

section Chunks

variable {mem : DeviceMemory} {p : Nat} {n : Int} {k : Nat} {oq : QuantizationData} {u : UopQueue}

theorem runLoad_other {m : MemInsn} (other : m.memoryType ≠ .acc) : mem.runLoad m = mem := by
  rw [DeviceMemory.runLoad, if_neg other, ite_self]

theorem runInsn_noop (stage : PipelineStage) (pushPrev pushNext popPrev popNext : Bool) :
    mem.runInsn (noopInsn stage pushPrev pushNext popPrev popNext) = mem := by
  cases stage <;> rfl

theorem runInsn_uop (popPrev popNext : Bool) :
    mem.runInsn { operation := u.load, popPrevDep := popPrev, popNextDep := popNext } = mem := by
  have other : (u.push 1).1.uopLoad.memoryType ≠ .acc := by simp [UopQueue.uopLoad]
  exact runLoad_other other

/-- Kernels on the same units, with an immediate or with the units behind them. -/
theorem kernels_acc {kernels : List UopKernel} {d e : Nat}
    (each : ∀ kernel ∈ kernels, RowKernel kernel ∧ kernel.dstIndex = d ∧ kernel.extent = e ∧
      (kernel.useImm = true ∨ kernel.srcIndex = d + e)) :
    (kernels.foldl DeviceMemory.runALU mem).acc p =
      if d ≤ p / vtaBlockOut ∧ p / vtaBlockOut < d + e then
        kernels.foldl (fun x kernel => kernel.exec x (mem.acc ((d + e + (p / vtaBlockOut - d)) * vtaBlockOut + p % vtaBlockOut)))
          (mem.acc p)
      else mem.acc p := by
  induction kernels generalizing mem with
  | nil => rw [List.foldl_nil, List.foldl_nil, ite_self]
  | cons kernel kernels ih =>
      obtain ⟨row, dst, extent, source⟩ := each kernel List.mem_cons_self
      have behind : ((d + e + (p / vtaBlockOut - d)) * vtaBlockOut + p % vtaBlockOut) / vtaBlockOut =
          d + e + (p / vtaBlockOut - d) := by
        change ((d + e + (p / 16 - d)) * 16 + p % 16) / 16 = d + e + (p / 16 - d)
        omega
      rw [List.foldl_cons, List.foldl_cons, ih fun kernel' mem' => each kernel' (List.mem_cons_of_mem kernel mem'),
        row.acc, row.acc, dst, extent]
      by_cases inside : d ≤ p / vtaBlockOut ∧ p / vtaBlockOut < d + e
      · rw [if_pos inside, if_pos inside, if_pos inside, behind, if_neg (by omega)]
        obtain imm | src := source
        · rw [exec_imm imm _ _ (mem.acc ((d + e + (p / vtaBlockOut - d)) * vtaBlockOut + p % vtaBlockOut))]
        · rw [src]
      · rw [if_neg inside, if_neg inside, if_neg inside]

theorem runALU_foldl_dram (kernels : List UopKernel) : (kernels.foldl DeviceMemory.runALU mem).dram = mem.dram := by
  induction kernels generalizing mem with
  | nil => rfl
  | cons kernel kernels ih => rw [List.foldl_cons, ih, runALU_dram]

/-- What is left of the stream of a chunk without the tokens and the micro-ops. -/
theorem stream_run (c : AluChunk) :
    (c.stream oq u).foldl DeviceMemory.runInsn mem =
      ((c.kernels oq).foldl DeviceMemory.runALU ((mem.runLoad c.load1).runLoad c.load2)).runStore c.storeInsn := by
  simp only [AluChunk.stream, List.foldl_cons, List.foldl_nil, runInsn_noop, runInsn_uop]
  rfl

theorem chunk_kernels (bound : n < 2 ^ 31) (more : 8192 * k < n) {kernel : UopKernel} (mem : kernel ∈ (chunkAt n k).kernels oq) :
    RowKernel kernel ∧ kernel.dstIndex = 1024 * (k % 2) ∧ kernel.extent = ((chunkLen n k + 15) / 16).toNat ∧
      (kernel.useImm = true ∨ kernel.srcIndex = 1024 * (k % 2) + ((chunkLen n k + 15) / 16).toNat) := by
  have positive := chunkLen_pos more
  have dst : (chunkAt n k).sramshift.toNat = 1024 * (k % 2) := by
    rw [chunkAt_eq bound more]
    dsimp only
    omega
  have extent : (chunkAt n k).processdatalengthelem.toNat = ((chunkLen n k + 15) / 16).toNat := by
    rw [chunkAt_eq bound more]
  have second : ((chunkAt n k).sramshift + (chunkAt n k).processdatalengthelem).toNat =
      1024 * (k % 2) + ((chunkLen n k + 15) / 16).toNat := by
    rw [chunkAt_eq bound more]
    dsimp only
    omega
  simp only [AluChunk.kernels, List.mem_cons, List.not_mem_nil, or_false] at mem
  obtain rfl | rfl | rfl | rfl | rfl | rfl := mem
  · exact ⟨⟨rfl, rfl, Or.inr (le_of_eq ((congrArg₂ (· + ·) dst extent).trans second.symm))⟩, dst, extent, Or.inr second⟩
  all_goals exact ⟨⟨rfl, rfl, Or.inl rfl⟩, dst, extent, Or.inl rfl⟩

/-- The units of a chunk. -/
def chunkUnits (n : Int) (k : Nat) : Nat := ((chunkLen n k + 15) / 16).toNat

/-- The loads of a chunk bring the two inputs side by side. -/
theorem chunk_loaded (bound : n < 2 ^ 31) (more : 8192 * k < n) {j lane : Nat} (unit : j < chunkUnits n k) (few : lane < 16) :
    ((mem.runLoad (chunkAt n k).load1).runLoad (chunkAt n k).load2).acc ((1024 * (k % 2) + j) * 16 + lane) =
        mem.dram .vtainput1 ((512 * k + j) * 16 + lane) ∧
      ((mem.runLoad (chunkAt n k).load1).runLoad (chunkAt n k).load2).acc ((1024 * (k % 2) + chunkUnits n k + j) * 16 + lane) =
        mem.dram .vtainput2 ((512 * k + j) * 16 + lane) := by
  have positive := chunkLen_pos more
  obtain ⟨load1, load2, -⟩ := chunk_insns bound more
  rw [← chunkUnits] at load1 load2
  have some : chunkUnits n k ≠ 0 := by
    rw [chunkUnits]
    omega
  have row1 : RowLoad (chunkAt n k).load1 := by
    rw [load1]
    exact ⟨rfl, some, rfl, rfl, rfl, rfl⟩
  have row2 : RowLoad (chunkAt n k).load2 := by
    rw [load2]
    exact ⟨rfl, some, rfl, rfl, rfl, rfl⟩
  have place (a : Nat) : (a * 16 + lane) / vtaBlockOut = a := by
    change (a * 16 + lane) / 16 = a
    omega
  have rest (a : Nat) : (a * 16 + lane) % vtaBlockOut = lane := by
    change (a * 16 + lane) % 16 = lane
    omega
  have block : vtaBlockOut = 16 := rfl
  constructor
  · rw [row2.acc_eq, place, load2]
    dsimp only
    rw [if_neg (by omega), row1.acc_eq, place, rest, load1]
    dsimp only
    rw [if_pos (by omega), if_pos (by omega), Nat.add_sub_cancel_left, block]
  · rw [row2.acc_eq, place, rest, row1.dram, load2]
    dsimp only
    rw [if_pos (by omega), if_pos (by omega), Nat.add_sub_cancel_left, block]

/-- A chunk in the order of its stream: its results come to their places, and nothing else changes in the buffers. -/
theorem chunk_effect (bound : n < 2 ^ 31) (more : 8192 * k < n) (mem : DeviceMemory) :
    (((chunkAt n k).stream oq u).foldl DeviceMemory.runInsn mem).dram .vtainput1 = mem.dram .vtainput1 ∧
      (((chunkAt n k).stream oq u).foldl DeviceMemory.runInsn mem).dram .vtainput2 = mem.dram .vtainput2 ∧
      ∀ p, (((chunkAt n k).stream oq u).foldl DeviceMemory.runInsn mem).dram .vtaoutput p =
        if 512 * k ≤ p / 16 ∧ p / 16 < 512 * k + chunkUnits n k then
          toInt8 ((chunkAt n k).lane oq (mem.dram .vtainput1 p) (mem.dram .vtainput2 p))
        else mem.dram .vtaoutput p := by
  have positive := chunkLen_pos more
  obtain ⟨load1, load2, store⟩ := chunk_insns bound more
  rw [← chunkUnits] at load1 load2 store
  have some : chunkUnits n k ≠ 0 := by
    rw [chunkUnits]
    omega
  have row1 : RowLoad (chunkAt n k).load1 := by
    rw [load1]
    exact ⟨rfl, some, rfl, rfl, rfl, rfl⟩
  have row2 : RowLoad (chunkAt n k).load2 := by
    rw [load2]
    exact ⟨rfl, some, rfl, rfl, rfl, rfl⟩
  have row : RowStore (chunkAt n k).storeInsn := by
    rw [store]
    exact ⟨some, rfl⟩
  have quiet (b : DramBuffer) (p : Nat) : ((((chunkAt n k).kernels oq).foldl DeviceMemory.runALU
      ((mem.runLoad (chunkAt n k).load1).runLoad (chunkAt n k).load2))).dram b p = mem.dram b p := by
    rw [runALU_foldl_dram, row2.dram, row1.dram]
  have buffer : (chunkAt n k).storeInsn.dramBuffer = .vtaoutput := rfl
  rw [stream_run]
  refine ⟨funext fun p => ?_, funext fun p => ?_, fun p => ?_⟩
  · rw [row.dram, buffer, if_neg fun inside => by simp at inside, quiet]
  · rw [row.dram, buffer, if_neg fun inside => by simp at inside, quiet]
  · have block : vtaBlockOut = 16 := rfl
    rw [row.dram, buffer, quiet, store, block]
    dsimp only
    by_cases inside : 512 * k ≤ p / 16 ∧ p / 16 < 512 * k + chunkUnits n k
    · rw [if_pos ⟨rfl, inside⟩, if_pos inside, kernels_acc fun kernel mem' => chunk_kernels bound more mem', ← chunkUnits, block]
      obtain ⟨j, unit⟩ := Nat.exists_eq_add_of_le inside.1
      have few : p % 16 < 16 := Nat.mod_lt _ (by decide)
      have whole : (512 * k + j) * 16 + p % 16 = p := by omega
      obtain ⟨first, second⟩ := @chunk_loaded mem n k bound more j (p % 16) (by omega) few
      rw [whole] at first second
      have place : ((1024 * (k % 2) + (p / 16 - 512 * k)) * 16 + p % 16) / 16 = 1024 * (k % 2) + j := by omega
      have rest : ((1024 * (k % 2) + (p / 16 - 512 * k)) * 16 + p % 16) % 16 = p % 16 := by omega
      rw [place, rest, if_pos (by omega), Nat.add_sub_cancel_left, unit, Nat.add_sub_cancel_left, first, second]
      rfl
    · rw [if_neg fun h => inside h.2, if_neg inside]

theorem mem_chunkUnits : (512 * k ≤ p / 16 ∧ p / 16 < 512 * k + chunkUnits n k) →
    p / 8192 = k := by
  have small := chunkLen_le (n := n) k
  rw [chunkUnits]
  omega

theorem chunkUnits_of (less : (p : Int) < n) (here : p / 8192 = k) :
    512 * k ≤ p / 16 ∧ p / 16 < 512 * k + chunkUnits n k := by
  rw [chunkUnits, chunkLen]
  omega

/-- The operations of a quantized output. -/
structure QuantizationData.Shifts (oq : QuantizationData) : Prop where
  multiplier : FitsInt16 oq.multiplier
  offset : FitsInt16 oq.offset
  shift : -16 ≤ oq.shift ∧ oq.shift ≤ 15

/-- The operations on a lane are those of `requantizeResults` on the sum. -/
theorem lane_requantize (shifts : oq.Shifts) (c : AluChunk) (a b : Int) :
    c.lane oq a b = requantizeResults (toInt32 (a + b)) oq := by
  obtain ⟨low, high⟩ := shifts.shift
  have multiplier := toInt16_of shifts.multiplier.1 shifts.multiplier.2
  have offset := toInt16_of shifts.offset.1 shifts.offset.2
  have count : toInt16 (15 - oq.shift) = 15 - oq.shift := toInt16_of (by omega) (by omega)
  change max (min (toInt32 ((if toInt16 (15 - oq.shift) ≥ 0 then
      toInt32 (toInt32 (a + b) * toInt16 oq.multiplier) >>> (toInt16 (15 - oq.shift)).toNat
    else toInt32 (toInt32 (toInt32 (a + b) * toInt16 oq.multiplier) * 2 ^ (-toInt16 (15 - oq.shift)).toNat)) +
      toInt16 oq.offset)) (toInt16 127)) (toInt16 (-128)) = _
  rw [multiplier, offset, count, if_pos (by omega), max_comm]
  rfl

theorem toInt8_requantize (x : Int) : toInt8 (requantizeResults x oq) = requantizeResults x oq := by
  have bounds : -128 ≤ requantizeResults x oq ∧ requantizeResults x oq ≤ 127 := by
    simp only [requantizeResults]
    omega
  rw [toInt8]
  omega

/-- What `aluAdd` is to leave at an element. -/
def DeviceMemory.sum (mem : DeviceMemory) (oq : QuantizationData) (p : Nat) : Int :=
  requantizeResults (toInt32 (mem.dram .vtainput1 p + mem.dram .vtainput2 p)) oq

/-- Chunks in the order of their streams. -/
theorem chunks_effect (bound : n < 2 ^ 31) (shifts : oq.Shifts) (m j : Nat) (inside : j + m ≤ chunkCount n) (mem : DeviceMemory) :
    ((chunkStreams oq u ((List.range' j m).map (chunkAt n))).foldl DeviceMemory.runInsn mem).dram .vtainput1 = mem.dram .vtainput1 ∧
      ((chunkStreams oq u ((List.range' j m).map (chunkAt n))).foldl DeviceMemory.runInsn mem).dram .vtainput2 = mem.dram .vtainput2 ∧
      ∀ p : Nat, (p : Int) < n →
        ((chunkStreams oq u ((List.range' j m).map (chunkAt n))).foldl DeviceMemory.runInsn mem).dram .vtaoutput p =
          if j ≤ p / 8192 ∧ p / 8192 < j + m then mem.sum oq p else mem.dram .vtaoutput p := by
  induction m generalizing j u mem with
  | zero => exact ⟨rfl, rfl, fun p less => (if_neg (by omega)).symm⟩
  | succ m ih =>
      have more : 8192 * (j : Int) < n := lt_chunkCount.mp (by omega)
      obtain ⟨in1, in2, out⟩ := @chunk_effect n j oq u bound more mem
      rw [List.range'_succ, List.map_cons, chunkStreams, List.foldl_append]
      obtain ⟨rest1, rest2, rest⟩ := ih (u := u.afterChunk) (j + 1) (by omega)
        (((chunkAt n j).stream oq u).foldl DeviceMemory.runInsn mem)
      refine ⟨rest1.trans in1, rest2.trans in2, fun p less => ?_⟩
      rw [rest p less, DeviceMemory.sum, in1, in2, out]
      by_cases here : p / 8192 = j
      · rw [if_neg (by omega), if_pos (chunkUnits_of less here), if_pos (by omega), lane_requantize shifts, toInt8_requantize]
        rfl
      · have apart : ¬(512 * j ≤ p / 16 ∧ p / 16 < 512 * j + chunkUnits n j) := fun units => here (mem_chunkUnits units)
        rw [if_neg apart]
        by_cases later : j + 1 ≤ p / 8192 ∧ p / 8192 < j + 1 + m
        · rw [if_pos later, if_pos (by omega)]
          rfl
        · rw [if_neg later, if_neg (by omega)]

theorem ends_quiet {a : Insn} (ending : a ∈ prologue ++ epilogue) (mem : DeviceMemory) : mem.runInsn a = mem := by
  simp only [prologue, epilogue, List.cons_append, List.nil_append, List.mem_cons, List.not_mem_nil, or_false] at ending
  obtain rfl | rfl | rfl | rfl | rfl | rfl | rfl | rfl := ending <;> rfl

/-- The whole stream in its order. -/
theorem program_effect (bound : n < 2 ^ 31) (shifts : oq.Shifts) (mem : DeviceMemory) (p : Nat) (less : (p : Int) < n) :
    ((prologue ++ chunkStreams oq u ((List.range (chunkCount n)).map (chunkAt n)) ++ epilogue).foldl
      DeviceMemory.runInsn mem).dram .vtaoutput p = mem.sum oq p := by
  have quiet (l : List Insn) (mem : DeviceMemory) (sub : ∀ a ∈ l, a ∈ prologue ++ epilogue) :
      l.foldl DeviceMemory.runInsn mem = mem := by
    induction l with
    | nil => rfl
    | cons a l ih =>
        rw [List.foldl_cons, ends_quiet (sub a List.mem_cons_self)]
        exact ih fun b here => sub b (List.mem_cons_of_mem a here)
  obtain ⟨-, -, out⟩ := @chunks_effect n oq u bound shifts (chunkCount n) 0 (by omega) mem
  have here : p / 8192 < chunkCount n := lt_chunkCount.mpr (by omega)
  rw [List.foldl_append, List.foldl_append, quiet prologue mem fun a => List.mem_append_left _,
    quiet epilogue _ fun a => List.mem_append_right _, List.range_eq_range', out p less, if_pos (by omega)]

end Chunks

section Schedules

variable {mem : DeviceMemory} {n : Int} {oq : QuantizationData} {u : UopQueue} {cs : List AluChunk}

/-- An instruction that the memories do not notice. -/
def Quiet (a : Insn) : Prop := ∀ mem : DeviceMemory, mem.runInsn a = mem

/-- The instructions of a chunk that do something: loads and kernels in the compute stage, and the store. -/
inductive Acts (oq : QuantizationData) (c : AluChunk) (a : Insn) : Nat → Prop
  | load {m : MemInsn} {r : Nat} (operation : a.operation = .load m) (which : m = c.load1 ∨ m = c.load2) (place : r ≤ 1) :
    Acts oq c a r
  | kernel {uopBgn uopEnd r : Nat} {kernel : UopKernel} (operation : a.operation = .alu uopBgn uopEnd kernel)
    (mem : kernel ∈ c.kernels oq) (place : r ≤ 15) : Acts oq c a r
  | store (operation : a.operation = .store c.storeInsn) (takes : tlpp.pops a .g2s = 1) (gives : tlpp.pushes a .s2g = 1) :
    Acts oq c a 16

theorem acts_of_stream {c : AluChunk} {r : Nat} {a : Insn} (at_r : (c.stream oq u)[r]? = some a) (loud : ¬Quiet a) :
    Acts oq c a r := by
  have bound : r < 18 := (List.getElem?_eq_some_iff.mp at_r).1
  interval_cases r <;> obtain rfl := Option.some.inj at_r
  case «0» => exact .load rfl (Or.inl rfl) (by decide)
  case «1» => exact .load rfl (Or.inr rfl) (by decide)
  case «2» | «3» | «17» => exact absurd (fun _ => rfl) loud
  case «4» | «6» | «8» | «10» | «12» | «14» => exact absurd (fun _ => runInsn_uop _ _) loud
  case «16» => exact .store rfl rfl rfl
  all_goals exact .kernel rfl (by simp [AluChunk.kernels]) (by decide)

/-- Where a first part of a program ends, tokens go up by what the next instruction does. -/
theorem sum_take_next (f : Insn → Nat) {program : List Insn} {i j : Nat} {a : Insn} (at_i : program[i]? = some a) (lt : i < j) :
    ((program.take i).map f).sum + f a ≤ ((program.take j).map f).sum := by
  rw [← sum_take_succ f at_i]
  exact sum_take_le f program lt

/-- The last kernel of a chunk. -/
theorem last_kernel {k : Nat} (few : k < cs.length) :
    ∃ a, (prologue ++ chunkStreams oq u cs ++ epilogue)[2 + 18 * k + 15]? = some a ∧ tlpp.pushes a .g2s = 1 := by
  have inside : 18 * k + 15 < (chunkStreams oq u cs).length := by
    rw [length_chunkStreams]
    omega
  obtain ⟨c, v, -, at_r⟩ := getElem?_chunkStreams cs (List.getElem?_eq_getElem inside)
  have place : (18 * k + 15) % 18 = 15 := by omega
  rw [place] at at_r
  refine ⟨(chunkStreams oq u cs)[18 * k + 15], ?_, ?_⟩
  · rw [List.append_assoc, show 2 + 18 * k + 15 = prologue.length + (18 * k + 15) by simp [prologue]; omega,
      List.getElem?_append_right (Nat.le_add_right _ _), Nat.add_sub_cancel_left, List.getElem?_append_left inside]
    exact List.getElem?_eq_getElem inside
  · obtain eq := Option.some.inj at_r
    rw [← eq]
    rfl

theorem g2s_pushes_each (c : AluChunk) (v : UopQueue) : ((c.stream oq v).map (tlpp.pushes · .g2s)).sum = 1 := by
  have list : (c.stream oq v).map (tlpp.pushes · .g2s) = [0, 0, 0, 0, 0, 0, 0, 0, 0, 0, 0, 0, 0, 0, 0, 1, 0, 0] := by
    rfl
  rw [list]
  decide

theorem g2s_pops_each (c : AluChunk) (v : UopQueue) : ((c.stream oq v).map (tlpp.pops · .g2s)).sum = 1 := by
  have list : (c.stream oq v).map (tlpp.pops · .g2s) = [0, 0, 0, 0, 0, 0, 0, 0, 0, 0, 0, 0, 0, 0, 0, 0, 1, 0] := by
    rfl
  rw [list]
  decide

/-- A store waits for the kernels of its chunk, and of those before it. -/
theorem compute_before_store {x y : Insn × Nat} {k k' r : Nat}
    (at_y : (prologue ++ chunkStreams oq u cs ++ epilogue)[y.2]? = some y.1) (core : tlpp.stage x.1 = .coreGemm)
    (store : tlpp.stage y.1 = .coreStore) (takes : tlpp.pops y.1 .g2s = 1) (place : x.2 = 2 + 18 * k + r) (early : r ≤ 15)
    (place' : y.2 = 2 + 18 * k' + 16) (le : k ≤ k') (few : k' < cs.length) :
    KeepsOrder tlpp (prologue ++ chunkStreams oq u cs ++ epilogue) x y := by
  obtain ⟨a, at_a, gives⟩ := @last_kernel oq u cs k (by omega)
  have given := sum_take_le (tlpp.pushes · .g2s) (prologue ++ chunkStreams oq u cs ++ epilogue)
    (show x.2 ≤ 2 + 18 * k + 15 by omega)
  have last := sum_take_next (tlpp.pushes · .g2s) (j := 2 + 18 * (k + 1)) at_a (by omega)
  have first := sum_take_le (tlpp.pops · .g2s) (prologue ++ chunkStreams oq u cs ++ epilogue)
    (show 2 + 18 * k' ≤ y.2 by omega)
  have taken := sum_take_next (tlpp.pops · .g2s) at_y (Nat.lt_add_one y.2)
  rw [gives, sum_stream cs _ g2s_pushes_each (by omega : k + 1 ≤ cs.length)] at last
  rw [sum_stream cs _ g2s_pops_each (by omega : k' ≤ cs.length)] at first
  rw [takes] at taken
  have none : (prologue.map (tlpp.pushes · .g2s)).sum = 0 := by decide
  refine Or.inr ⟨.g2s, store, core, ?_⟩
  rw [givenBy, takenBy]
  omega

/-- A chunk waits for the store of the chunk before the one before it. -/
theorem store_before_compute {x y : Insn × Nat} {k k' : Nat}
    (at_x : (prologue ++ chunkStreams oq u cs ++ epilogue)[x.2]? = some x.1) (store : tlpp.stage x.1 = .coreStore)
    (core : tlpp.stage y.1 = .coreGemm) (gives : tlpp.pushes x.1 .s2g = 1) (place : x.2 = 2 + 18 * k + 16)
    (later : 2 + 18 * k' ≤ y.2) (enough : k + 2 ≤ k') (few : k' ≤ cs.length) :
    KeepsOrder tlpp (prologue ++ chunkStreams oq u cs ++ epilogue) x y := by
  have given := sum_take_next (tlpp.pushes · .s2g) (j := 2 + 18 * (k + 1)) at_x (by omega)
  have taken := sum_take_le (tlpp.pops · .s2g) (prologue ++ chunkStreams oq u cs ++ epilogue)
    (show 2 + 18 * k' ≤ y.2 + 1 by omega)
  rw [gives, sum_stream cs _ pushes_each (by omega : k + 1 ≤ cs.length)] at given
  rw [sum_stream cs _ pops_each few] at taken
  have one : (prologue.map (tlpp.pushes · .s2g)).sum = 1 := by decide
  refine Or.inr ⟨.s2g, core, store, ?_⟩
  rw [givenBy, takenBy]
  omega

/-- A store of units that something else leaves alone. -/
theorem store_commutes {m : MemInsn} (row : RowStore m) (out : m.dramBuffer = .vtaoutput) {g : DeviceMemory → DeviceMemory}
    (dram : ∀ mem, (g mem).dram = mem.dram)
    (acc : ∀ mem mem' : DeviceMemory, mem.acc = mem'.acc → (∀ b ≠ .vtaoutput, mem.dram b = mem'.dram b) → (g mem).acc = (g mem').acc)
    (frame : ∀ (mem : DeviceMemory) p, m.sramBase ≤ p / 16 → p / 16 < m.sramBase + m.xSize → (g mem).acc p = mem.acc p)
    (mem : DeviceMemory) : g (mem.runStore m) = (g mem).runStore m := by
  refine DeviceMemory.ext ?_ (funext fun b => funext fun p => ?_)
  · rw [row.acc]
    refine acc _ _ row.acc fun b other => funext fun p => ?_
    rw [row.dram, if_neg fun inside => other (inside.1.trans out)]
  · have block : vtaBlockOut = 16 := rfl
    rw [dram, row.dram, row.dram, dram, block]
    by_cases inside : b = m.dramBuffer ∧ m.dramBase ≤ p / 16 ∧ p / 16 < m.dramBase + m.xSize
    · have unit : ((m.sramBase + (p / 16 - m.dramBase)) * 16 + p % 16) / 16 = m.sramBase + (p / 16 - m.dramBase) := by omega
      rw [if_pos inside, if_pos inside, frame mem _ (by omega) (by omega)]
    · rw [if_neg inside, if_neg inside]

theorem load_commutes {m l : MemInsn} (row : RowStore m) (out : m.dramBuffer = .vtaoutput) (load : RowLoad l)
    (input : l.dramBuffer ≠ .vtaoutput) (apart : Disjoint (Set.Ico l.sramBase l.sramEnd) (Set.Ico m.sramBase (m.sramBase + m.xSize)))
    (mem : DeviceMemory) : (mem.runStore m).runLoad l = (mem.runLoad l).runStore m := by
  refine store_commutes row out (g := fun mem => mem.runLoad l) (fun mem => load.dram) (fun mem mem' acc dram => ?_)
    (fun mem p low high => ?_) mem
  · funext p
    rw [load.acc_eq, load.acc_eq, acc, dram l.dramBuffer input]
  · rw [load.sramEnd] at apart
    have out : ¬(l.sramBase ≤ p / 16 ∧ p / 16 < l.sramBase + (l.xSize + l.xPad1)) := fun inside =>
      Set.disjoint_left.mp apart inside ⟨low, high⟩
    rw [load.acc_eq]
    exact if_neg out

theorem kernel_commutes {m : MemInsn} {kernel : UopKernel} (row : RowStore m) (out : m.dramBuffer = .vtaoutput)
    (rounds : RowKernel kernel)
    (apart : Disjoint (Set.Ico kernel.dstIndex (kernel.dstIndex + kernel.extent)) (Set.Ico m.sramBase (m.sramBase + m.xSize)))
    (mem : DeviceMemory) : (mem.runStore m).runALU kernel = (mem.runALU kernel).runStore m := by
  refine store_commutes row out (g := fun mem => mem.runALU kernel) (fun mem => runALU_dram kernel) (fun mem mem' acc dram => ?_)
    (fun mem p low high => ?_) mem
  · funext p
    rw [rounds.acc, rounds.acc, acc]
  · have out : ¬(kernel.dstIndex ≤ p / 16 ∧ p / 16 < kernel.dstIndex + kernel.extent) := fun inside =>
      Set.disjoint_left.mp apart inside ⟨low, high⟩
    rw [rounds.acc]
    exact if_neg out

/-- The stream for `n` elements. -/
def addStream (oq : QuantizationData) (u : UopQueue) (n : Int) : List Insn :=
  prologue ++ chunkStreams oq u ((List.range (chunkCount n)).map (chunkAt n)) ++ epilogue

theorem loud_place {j : Nat} {a : Insn} (at_j : (addStream oq u n)[j]? = some a) (loud : ¬Quiet a) :
    ∃ k r : Nat, 8192 * (k : Int) < n ∧ j = 2 + 18 * k + r ∧ Acts oq (chunkAt n k) a r := by
  obtain ⟨i, rfl, at_i⟩ := place_inside at_j fun ending => loud fun mem => ends_quiet ending mem
  obtain ⟨c, v, chunk, at_r⟩ := getElem?_chunkStreams _ at_i
  obtain ⟨more, rfl⟩ := (getElem?_chunks _ c).mp chunk
  exact ⟨i / 18, i % 18, more, by omega, acts_of_stream at_r loud⟩

/-- What an instruction of a chunk is for the stages: one of the compute stage, or the store. -/
theorem Acts.stage {c : AluChunk} {a : Insn} {r : Nat} (acts : Acts oq c a r) :
    tlpp.stage a = .coreGemm ∧ r ≤ 15 ∨
      tlpp.stage a = .coreStore ∧ r = 16 ∧ tlpp.pops a .g2s = 1 ∧ tlpp.pushes a .s2g = 1 := by
  cases acts with
  | @load m r operation which place =>
      refine Or.inl ⟨?_, by omega⟩
      change getCoreType a = _
      rw [getCoreType, operation]
      obtain rfl | rfl := which <;> rfl
  | kernel operation mem place =>
      refine Or.inl ⟨?_, place⟩
      change getCoreType a = _
      rw [getCoreType, operation]
  | store operation takes gives =>
      refine Or.inr ⟨?_, rfl, takes, gives⟩
      change getCoreType a = _
      rw [getCoreType, operation]

/-- The store of a chunk and what the next one does. -/
theorem next_commutes (bound : n < 2 ^ 31) (apart : TilesApart ((List.range (chunkCount n)).map (chunkAt n))) {k r : Nat}
    (more : 8192 * ((k + 1 : Nat) : Int) < n) {x y : Insn} (store : x.operation = .store (chunkAt n k).storeInsn)
    (acts : Acts oq (chunkAt n (k + 1)) y r) (early : r ≤ 15) (mem : DeviceMemory) :
    (mem.runInsn x).runInsn y = (mem.runInsn y).runInsn x := by
  have positive := chunkLen_pos more
  obtain ⟨load1, load2, -⟩ := chunk_insns bound more
  obtain ⟨-, -, storeInsn⟩ := chunk_insns (k := k) bound (by omega)
  obtain ⟨end1, -, -⟩ := chunk_sramEnd bound more
  have at_k := (getElem?_chunks (n := n) k _).mpr ⟨by omega, rfl⟩
  have at_next := (getElem?_chunks (n := n) (k + 1) _).mpr ⟨more, rfl⟩
  have disjoint := apart.fromResults k _ _ at_k at_next
  have some : ((chunkLen n (k + 1) + 15) / 16).toNat ≠ 0 := by omega
  have row : RowStore (chunkAt n k).storeInsn := by
    have len := chunkLen_full more
    rw [storeInsn, len]
    exact ⟨Nat.succ_ne_zero _, rfl⟩
  have storeEnd : (chunkAt n k).storeInsn.sramEnd = (chunkAt n k).storeInsn.sramBase + (chunkAt n k).storeInsn.xSize := by
    rw [storeInsn, MemInsn.sramEnd]
    dsimp only
    omega
  have storeRun (mem : DeviceMemory) : mem.runInsn x = mem.runStore (chunkAt n k).storeInsn := by
    rw [DeviceMemory.runInsn, store]
  rw [storeRun, storeRun]
  cases acts with
  | @load m r operation which place =>
      have member : m ∈ [(chunkAt n (k + 1)).load1, (chunkAt n (k + 1)).load2] := by
        obtain rfl | rfl := which <;> simp
      have loadRow : RowLoad m := by
        obtain rfl | rfl := which
        · rw [load1]
          exact ⟨rfl, some, rfl, rfl, rfl, rfl⟩
        · rw [load2]
          exact ⟨rfl, some, rfl, rfl, rfl, rfl⟩
      have input : m.dramBuffer ≠ .vtaoutput := by
        obtain rfl | rfl := which <;> simp [AluChunk.load1, AluChunk.load2]
      have loadRun (mem : DeviceMemory) : mem.runInsn y = mem.runLoad m := by
        rw [DeviceMemory.runInsn, operation]
      rw [loadRun, loadRun]
      exact load_commutes row rfl loadRow input (storeEnd ▸ disjoint m member) mem
  | @kernel uopBgn uopEnd r kernel operation member place =>
      obtain ⟨rounds, dst, extent, -⟩ := chunk_kernels bound more member
      have inside : Set.Ico kernel.dstIndex (kernel.dstIndex + kernel.extent) ⊆
          Set.Ico (chunkAt n (k + 1)).load1.sramBase (chunkAt n (k + 1)).load1.sramEnd := by
        rw [end1, load1, dst, extent]
        exact Set.Ico_subset_Ico_right (by omega)
      have kernelRun (mem : DeviceMemory) : mem.runInsn y = mem.runALU kernel := by
        rw [DeviceMemory.runInsn, operation]
      rw [kernelRun, kernelRun]
      refine kernel_commutes row rfl rounds (Set.disjoint_of_subset_left inside ?_) mem
      exact storeEnd ▸ disjoint (chunkAt n (k + 1)).load1 (by simp)
  | store => exact absurd early (by decide)

theorem stream_apart (bound : n < 2 ^ 31) (apart : TilesApart ((List.range (chunkCount n)).map (chunkAt n))) (x y : Insn × Nat)
    (order : [x, y].Sublist (addStream oq u n).zipIdx) :
    KeepsOrder tlpp (addStream oq u n) x y ∨
      ∀ mem : DeviceMemory, (mem.runInsn x.1).runInsn y.1 = (mem.runInsn y.1).runInsn x.1 := by
  have at_x := List.mem_zipIdx_iff_getElem?.mp (order.mem List.mem_cons_self)
  have at_y := List.mem_zipIdx_iff_getElem?.mp (order.mem (List.mem_cons_of_mem x List.mem_cons_self))
  have before : x.2 < y.2 := by
    have numbers := order.map Prod.snd
    rw [List.zipIdx_map_snd] at numbers
    have pairs := (@List.pairwise_lt_range' 0 (addStream oq u n).length 1 (by decide)).sublist numbers
    exact (List.pairwise_cons.mp pairs).1 y.2 List.mem_cons_self
  by_cases quiet : Quiet x.1
  · exact Or.inr fun mem => by rw [quiet, quiet]
  by_cases quiet' : Quiet y.1
  · exact Or.inr fun mem => by rw [quiet', quiet']
  obtain ⟨k, r, more, place, acts⟩ := loud_place at_x quiet
  obtain ⟨k', r', more', place', acts'⟩ := loud_place at_y quiet'
  have few := lt_chunkCount.mpr more
  have few' := lt_chunkCount.mpr more'
  have length : ((List.range (chunkCount n)).map (chunkAt n)).length = chunkCount n := by simp
  obtain ⟨core, early⟩ | ⟨store, rfl, takes, gives⟩ := acts.stage
  · obtain ⟨core', early'⟩ | ⟨store', rfl, takes', gives'⟩ := acts'.stage
    · exact Or.inl (Or.inl (core.trans core'.symm))
    · exact Or.inl (compute_before_store at_y core store' takes' place early place' (by omega) (by omega))
  · obtain ⟨core', early'⟩ | ⟨store', rfl, takes', gives'⟩ := acts'.stage
    · by_cases far : k + 2 ≤ k'
      · exact Or.inl (store_before_compute at_x store core' gives place (by omega) far (by omega))
      · obtain rfl : k' = k + 1 := by omega
        cases acts with
        | load operation which place => exact absurd place (by decide)
        | kernel operation mem place => exact absurd place (by decide)
        | store operation takes gives =>
            exact Or.inr fun mem => next_commutes bound apart more' operation acts' early' mem
    · exact Or.inl (Or.inl (store.trans store'.symm))

/-- Under every schedule the stream brings each result to its place. -/
theorem schedule_result (bound : n < 2 ^ 31) (apart : TilesApart ((List.range (chunkCount n)).map (chunkAt n)))
    (shifts : oq.Shifts) {st : State Insn CoreType DepQueue} (reach : InOrderStages.Reachable tlpp (addStream oq u n) st)
    (complete : ∀ core, st.queue core = []) (mem : DeviceMemory) (p : Nat) (less : (p : Int) < n) :
    (mem.runInsns st.done).dram .vtaoutput p = mem.sum oq p := by
  have same : mem.runInsns st.done = (addStream oq u n).foldl DeviceMemory.runInsn mem := by
    rw [DeviceMemory.runInsns, schedule_effect reach complete (stream_apart bound apart), ← List.foldl_map,
      List.zipIdx_map_fst]
  rw [same]
  exact program_effect bound shifts mem p less

end Schedules

end AlkaliFw
