import AlkaliFw.InOrderStages
import AlkaliFw.Tiles
import Mathlib.Tactic.IntervalCases

/-! The stream of instructions that `aluAdd` gives to the device, and its tokens in the three stages
of `sim_tlpp.cc`. -/

namespace AlkaliFw
open InOrderStages

inductive CoreType where
  | coreGemm | coreLoad | coreStore
  deriving DecidableEq, Repr

inductive DepQueue where
  | l2g | g2l | g2s | s2g
  deriving DecidableEq, Repr

def getCoreType (insn : Insn) : CoreType :=
  match insn.operation with
  | .load m => if m.memoryType = .inp ∨ m.memoryType = .wgt then .coreLoad else .coreGemm
  | .store _ => .coreStore
  | .alu .. => .coreGemm
  | .finish => .coreGemm

/-- `InsnDependencyCheck` before the instruction runs. -/
def depPops (insn : Insn) (q : DepQueue) : Nat :=
  match getCoreType insn, q with
  | .coreGemm, .l2g => insn.popPrevDep.toNat
  | .coreGemm, .s2g => insn.popNextDep.toNat
  | .coreLoad, .g2l => insn.popNextDep.toNat
  | .coreStore, .g2s => insn.popPrevDep.toNat
  | _, _ => 0

/-- `InsnDependencyCheck` after it ran. -/
def depPushes (insn : Insn) (q : DepQueue) : Nat :=
  match getCoreType insn, q with
  | .coreGemm, .g2l => insn.pushPrevDep.toNat
  | .coreGemm, .g2s => insn.pushNextDep.toNat
  | .coreLoad, .l2g => insn.pushNextDep.toNat
  | .coreStore, .s2g => insn.pushPrevDep.toNat
  | _, _ => 0

def DepQueue.consumer : DepQueue → CoreType
  | l2g => .coreGemm
  | g2l => .coreLoad
  | g2s => .coreStore
  | s2g => .coreGemm

def DepQueue.producer : DepQueue → CoreType
  | l2g => .coreLoad
  | g2l => .coreGemm
  | g2s => .coreGemm
  | s2g => .coreStore

/-- The three cores of `TlppVerify` with their queues. -/
def tlpp : Net Insn CoreType DepQueue where
  stage := getCoreType
  pops := depPops
  pushes := depPushes
  consumer := DepQueue.consumer
  producer := DepQueue.producer
  pops_consumer insn q some := by
    cases core : getCoreType insn <;> cases q <;> simp [depPops, core, DepQueue.consumer] at some ⊢
  pushes_producer insn q some := by
    cases core : getCoreType insn <;> cases q <;> simp [depPushes, core, DepQueue.producer] at some ⊢

namespace UopQueue

/-- The queue after the push of a kernel and the load of its micro-op. -/
def next (uq : UopQueue) : UopQueue := (uq.push 1).1.flushUopLoad

/-- The two operations of a kernel. -/
def load (uq : UopQueue) : Operation := .load (uq.push 1).1.uopLoad

def alu (uq : UopQueue) (kernel : UopKernel) : Operation :=
  .alu (uq.push 1).2 ((uq.push 1).2 + 1) kernel

def Flushed (uq : UopQueue) : Prop := uq.sramBegin = uq.sramEnd

theorem push_pending {uq : UopQueue} (flushed : uq.Flushed) : (uq.push 1).1.pending = true := by
  rw [push]
  split
  · rfl
  · have differ : uq.sramBegin ≠ uq.sramEnd + 1 := by
      rw [Flushed] at flushed
      omega
    simpa [pending] using differ

theorem next_flushed (uq : UopQueue) : uq.next.Flushed := rfl

end UopQueue

namespace CommandQueue

variable {q : CommandQueue}

@[simp] theorem depPush_runs (src dst : PipelineStage) : (q.depPush src dst).runs = q.runs := rfl

@[simp] theorem depPop_runs (src dst : PipelineStage) : (q.depPop src dst).runs = q.runs := rfl

@[simp] theorem depPush_uopQueue (src dst : PipelineStage) : (q.depPush src dst).uopQueue = q.uopQueue := rfl

@[simp] theorem depPop_uopQueue (src dst : PipelineStage) : (q.depPop src dst).uopQueue = q.uopQueue := rfl

theorem synchronize_runs (q : CommandQueue) : q.synchronize.runs ≠ [] := by simp [synchronize]

/-- Nothing was given to the device, so the buffer was large enough. -/
theorem check_quiet (none : q.checkInsnOverFlow.runs = []) : q.checkInsnOverFlow = q := by
  rw [checkInsnOverFlow] at none ⊢
  split at none
  · exact absurd none q.synchronize_runs
  · rename_i fits
    rw [if_neg fits]

theorem load_quiet {m : MemInsn} (none : (q.loadBuffer2D m).runs = []) :
    q.runs = [] ∧ q.loadBuffer2D m = q.issue (getMemPipelineStage m.memoryType) (.load m) := by
  have quiet := check_quiet none
  rw [loadBuffer2D, quiet] at none
  exact ⟨none, quiet⟩

theorem store_quiet {m : MemInsn} (none : (q.storeBuffer2D m).runs = []) :
    q.runs = [] ∧ q.storeBuffer2D m = q.issue .kStoreStage (.store m) := by
  have quiet := check_quiet none
  rw [storeBuffer2D, quiet] at none
  exact ⟨none, quiet⟩

/-- The two instructions of a kernel. -/
def issueKernel (q : CommandQueue) (kernel : UopKernel) : CommandQueue :=
  { (q.issue .kComputeStage q.uopQueue.load).issue .kComputeStage (q.uopQueue.alu kernel) with
    uopQueue := q.uopQueue.next }

theorem pushKernel_eq (flushed : q.uopQueue.Flushed) (kernel : UopKernel) :
    q.pushKernel kernel = q.issueKernel kernel := by
  rw [pushKernel]
  dsimp only
  rw [if_pos (UopQueue.push_pending flushed)]
  rfl

theorem check_flushed (flushed : q.uopQueue.Flushed) : q.checkInsnOverFlow.uopQueue.Flushed := by
  rw [checkInsnOverFlow]
  split
  · rfl
  · exact flushed

theorem loadBuffer2D_flushed (flushed : q.uopQueue.Flushed) (m : MemInsn) :
    (q.loadBuffer2D m).uopQueue.Flushed := check_flushed flushed

theorem storeBuffer2D_flushed (flushed : q.uopQueue.Flushed) (m : MemInsn) :
    (q.storeBuffer2D m).uopQueue.Flushed := check_flushed flushed

theorem pushALUUop_flushed (flushed : q.uopQueue.Flushed) (kernel : UopKernel) :
    (q.pushALUUop kernel).uopQueue.Flushed := by
  rw [pushALUUop, pushKernel_eq flushed]
  exact check_flushed q.uopQueue.next_flushed

theorem kernels_quiet (flushed : q.uopQueue.Flushed) {kernels : List UopKernel}
    (none : (kernels.foldl pushALUUop q).runs = []) :
    q.runs = [] ∧ kernels.foldl pushALUUop q = kernels.foldl issueKernel q := by
  induction kernels generalizing q with
  | nil => exact ⟨none, rfl⟩
  | cons kernel kernels ih =>
      obtain ⟨before, rest⟩ := ih (pushALUUop_flushed flushed kernel) none
      have quiet := check_quiet before
      rw [pushALUUop, quiet, pushKernel_eq flushed] at before
      rw [List.foldl_cons, rest, pushALUUop, quiet, pushKernel_eq flushed]
      exact ⟨before, rfl⟩

end CommandQueue

/-- The instructions of one round of the inner loop, with the micro-op queue before it. -/
def AluChunk.stream (c : AluChunk) (oq : QuantizationData) (u : UopQueue) : List Insn :=
  let second := c.sramshift + c.processdatalengthelem
  [{ operation := .load c.load1 }, { operation := .load c.load2 },
    noopInsn .kLoadStage false false false true, noopInsn .kLoadStage false true false false,
    { operation := u.load, popPrevDep := true, popNextDep := true },
    { operation := u.alu (c.kernel .add none second) },
    { operation := u.next.load },
    { operation := u.next.alu (c.kernel .mul (some oq.multiplier) 0) },
    { operation := u.next.next.load },
    { operation := u.next.next.alu (c.kernel .shr (some (15 - oq.shift)) second) },
    { operation := u.next.next.next.load },
    { operation := u.next.next.next.alu (c.kernel .add (some oq.offset) second) },
    { operation := u.next.next.next.next.load },
    { operation := u.next.next.next.next.alu (c.kernel .min (some 127) second) },
    { operation := u.next.next.next.next.next.load },
    { operation := u.next.next.next.next.next.alu (c.kernel .max (some (-128)) second), pushNextDep := true },
    { operation := .store c.storeInsn, popPrevDep := true, pushPrevDep := true },
    noopInsn .kComputeStage true false false false]

def UopQueue.afterChunk (u : UopQueue) : UopQueue := u.next.next.next.next.next.next

/-- Nothing was given to the device, and no pop waits. -/
def idle (u : UopQueue) (stream : List Insn) (checked : Bool) : CommandQueue :=
  ⟨u, ⟨stream.reverse, {}, {}⟩, [], checked⟩

section Commands

variable {c : AluChunk} {oq : QuantizationData} {u : UopQueue} {l : List Insn} {runs : List (List Insn)} {checked : Bool}

/-- Loading the two inputs: the next instruction of the compute stage will wait for both neighbours. -/
theorem loadCommands_quiet (none : (c.loadCommands ⟨u, ⟨l, {}, {}⟩, [], checked⟩).runs = []) :
    c.loadCommands ⟨u, ⟨l, {}, {}⟩, [], checked⟩ =
      ⟨u, ⟨noopInsn .kLoadStage false true false false :: noopInsn .kLoadStage false false false true ::
          { operation := .load c.load2 } :: { operation := .load c.load1 } :: l,
        { kComputeStage := true }, { kComputeStage := true }⟩, [], checked⟩ := by
  simp only [AluChunk.loadCommands, CommandQueue.depPush_runs, CommandQueue.depPop_runs] at none ⊢
  obtain ⟨none1, second⟩ := CommandQueue.load_quiet none
  obtain ⟨-, first⟩ := CommandQueue.load_quiet none1
  rw [second, first]
  rfl

theorem loadCommands_flushed {q : CommandQueue} (flushed : q.uopQueue.Flushed) :
    (c.loadCommands q).uopQueue.Flushed := by
  simp only [AluChunk.loadCommands, CommandQueue.depPush_uopQueue, CommandQueue.depPop_uopQueue]
  apply CommandQueue.loadBuffer2D_flushed
  apply CommandQueue.loadBuffer2D_flushed
  exact flushed

theorem storeCommands_quiet {q : CommandQueue} (none : (c.storeCommands q).runs = []) :
    q.runs = [] ∧ c.storeCommands q =
      ((((q.depPush .kComputeStage .kStoreStage).depPop .kComputeStage .kStoreStage).issue .kStoreStage
        (.store c.storeInsn)).depPush .kStoreStage .kComputeStage).depPush .kComputeStage .kLoadStage := by
  simp only [AluChunk.storeCommands, CommandQueue.depPush_runs] at none ⊢
  obtain ⟨before, store⟩ := CommandQueue.store_quiet none
  exact ⟨before, by rw [store]⟩

/-- The first kernel takes the pops. -/
theorem kernel_first (kernel : UopKernel) :
    (⟨u, ⟨l, { kComputeStage := true }, { kComputeStage := true }⟩, runs, checked⟩ : CommandQueue).issueKernel kernel =
      ⟨u.next, ⟨{ operation := u.alu kernel } :: { operation := u.load, popPrevDep := true, popNextDep := true } :: l,
        {}, {}⟩, runs, checked⟩ := rfl

theorem kernel_idle (kernel : UopKernel) :
    (⟨u, ⟨l, {}, {}⟩, runs, checked⟩ : CommandQueue).issueKernel kernel =
      ⟨u.next, ⟨{ operation := u.alu kernel } :: { operation := u.load } :: l, {}, {}⟩, runs, checked⟩ := rfl

/-- Storing the results, after an ALU instruction. -/
theorem store_eq (v : UopQueue) (kernel : UopKernel) :
    (((((⟨u, ⟨{ operation := v.alu kernel } :: l, {}, {}⟩, runs, checked⟩ : CommandQueue).depPush .kComputeStage
      .kStoreStage).depPop .kComputeStage .kStoreStage).issue .kStoreStage (.store c.storeInsn)).depPush .kStoreStage
        .kComputeStage).depPush .kComputeStage .kLoadStage =
      ⟨u, ⟨noopInsn .kComputeStage true false false false ::
          { operation := .store c.storeInsn, popPrevDep := true, pushPrevDep := true } ::
          { operation := v.alu kernel, pushNextDep := true } :: l, {}, {}⟩, runs, checked⟩ := rfl

theorem commands_quiet {stream : List Insn} (flushed : u.Flushed)
    (none : (c.commands oq (idle u stream checked)).runs = []) :
    c.commands oq (idle u stream checked) = idle u.afterChunk (stream ++ c.stream oq u) checked := by
  rw [AluChunk.commands] at none ⊢
  obtain ⟨computed, store⟩ := storeCommands_quiet none
  obtain ⟨loaded, kernels⟩ := CommandQueue.kernels_quiet (loadCommands_flushed flushed) computed
  rw [store, kernels, idle, loadCommands_quiet loaded, AluChunk.kernels]
  simp only [List.foldl_cons, List.foldl_nil, kernel_first, kernel_idle, store_eq]
  rw [idle, List.reverse_append]
  rfl

theorem commands_runs {q : CommandQueue} (flushed : q.uopQueue.Flushed) (none : (c.commands oq q).runs = []) :
    q.runs = [] := by
  have computed := (storeCommands_quiet none).1
  have loaded := (CommandQueue.kernels_quiet (loadCommands_flushed flushed) computed).1
  simp only [AluChunk.loadCommands, CommandQueue.depPush_runs, CommandQueue.depPop_runs] at loaded
  obtain ⟨second, -⟩ := CommandQueue.load_quiet loaded
  obtain ⟨first, -⟩ := CommandQueue.load_quiet second
  rwa [CommandQueue.depPop_runs] at first

theorem kernels_flushed {q : CommandQueue} (flushed : q.uopQueue.Flushed) (kernels : List UopKernel) :
    (kernels.foldl CommandQueue.pushALUUop q).uopQueue.Flushed := by
  induction kernels generalizing q with
  | nil => exact flushed
  | cons kernel kernels ih => exact ih (CommandQueue.pushALUUop_flushed flushed kernel)

theorem commands_flushed {q : CommandQueue} (flushed : q.uopQueue.Flushed) :
    (c.commands oq q).uopQueue.Flushed := by
  simp only [AluChunk.commands, AluChunk.storeCommands, CommandQueue.depPush_uopQueue]
  apply CommandQueue.storeBuffer2D_flushed
  simp only [CommandQueue.depPush_uopQueue, CommandQueue.depPop_uopQueue]
  exact kernels_flushed (loadCommands_flushed flushed) _

end Commands

/-- The instructions of chunks. -/
def chunkStreams (oq : QuantizationData) : UopQueue → List AluChunk → List Insn
  | _, [] => []
  | u, c :: cs => c.stream oq u ++ chunkStreams oq u.afterChunk cs

def prologue : List Insn :=
  [noopInsn .kComputeStage true false false false, noopInsn .kStoreStage true false false false]

def epilogue : List Insn :=
  [noopInsn .kStoreStage true false false false, noopInsn .kLoadStage false false false true,
    noopInsn .kLoadStage false true false false, noopInsn .kComputeStage false false false true,
    noopInsn .kComputeStage false false true true, { operation := .finish }]

section Emission

variable {oq : QuantizationData} {u : UopQueue} {checked : Bool}

theorem foldl_runs {cs : List AluChunk} {q : CommandQueue} (flushed : q.uopQueue.Flushed)
    (none : (cs.foldl (fun q c => c.commands oq q) q).runs = []) : q.runs = [] := by
  induction cs generalizing q with
  | nil => exact none
  | cons c cs ih =>
      rw [List.foldl_cons] at none
      have first := ih (commands_flushed flushed) none
      exact commands_runs flushed first

theorem foldl_quiet {cs : List AluChunk} {stream : List Insn} (flushed : u.Flushed)
    (none : (cs.foldl (fun q c => c.commands oq q) (idle u stream checked)).runs = []) :
    ∃ v, cs.foldl (fun q c => c.commands oq q) (idle u stream checked) =
      idle v (stream ++ chunkStreams oq u cs) checked := by
  induction cs generalizing u stream with
  | nil => exact ⟨u, by rw [chunkStreams, List.append_nil]; rfl⟩
  | cons c cs ih =>
      have here : (idle u stream checked).uopQueue.Flushed := flushed
      rw [List.foldl_cons] at none ⊢
      have first := foldl_runs (commands_flushed here) none
      rw [commands_quiet flushed first] at none ⊢
      obtain ⟨v, rest⟩ := ih (u := u.afterChunk) (UopQueue.next_flushed _) none
      exact ⟨v, by rw [rest, chunkStreams, List.append_assoc]⟩

theorem chunkStreams_back {cs : List AluChunk} (some : cs ≠ []) :
    ∃ front, chunkStreams oq u cs = front ++ [noopInsn .kComputeStage true false false false] := by
  induction cs generalizing u with
  | nil => exact absurd rfl some
  | cons c cs ih =>
      rw [chunkStreams]
      by_cases last : cs = []
      · subst last
        exact ⟨(c.stream oq u).dropLast, rfl⟩
      · obtain ⟨front, eq⟩ := ih (u := u.afterChunk) last
        exact ⟨c.stream oq u ++ front, by rw [eq, List.append_assoc]⟩

/-- The end of `aluAdd`, after a push of the compute stage. -/
theorem synchronize_quiet (front : List Insn) :
    ((((idle u (front ++ [noopInsn .kComputeStage true false false false]) checked).depPop .kComputeStage
      .kLoadStage).depPop .kStoreStage .kComputeStage).synchronize).runs =
      [(front ++ [noopInsn .kComputeStage true false false false]) ++ epilogue] := by
  rw [idle, List.reverse_append]
  change [] ++ [List.reverse (epilogue.reverse ++ noopInsn .kComputeStage true false false false :: front.reverse)] = _
  simp

/-- What goes to the device in one piece is the whole stream. -/
theorem aluAddCommands_stream {cs : List AluChunk} {s : List Insn} (some : cs ≠ [])
    (fits : (aluAddCommands oq cs).runs = [s]) : s = prologue ++ chunkStreams oq {} cs ++ epilogue := by
  let q := cs.foldl (fun q c => c.commands oq q) (idle {} prologue true)
  have synced : ((q.depPop .kComputeStage .kLoadStage).depPop .kStoreStage .kComputeStage).synchronize.runs = [s] :=
    fits
  have none : q.runs = [] := by
    change q.runs ++ [_] = [s] at synced
    cases runs : q.runs with
    | nil => rfl
    | cons r rs => simp [runs] at synced
  obtain ⟨v, emitted⟩ := foldl_quiet (u := {}) rfl none
  obtain ⟨front, back⟩ := @chunkStreams_back oq {} _ some
  rw [show q = _ from emitted, back, ← List.append_assoc, synchronize_quiet] at synced
  rw [back, ← List.append_assoc]
  exact (List.cons.inj synced).1.symm

end Emission

section Tokens

variable {oq : QuantizationData} {u : UopQueue}

/-- The tokens between two chunks. -/
def between : DepQueue → Nat
  | .g2l | .s2g => 1
  | .l2g | .g2s => 0

theorem tally_prologue (k : DepQueue) : tally 0 (prologue.map (effect tlpp k)) = some (between k) := by
  cases k <;> rfl

theorem tally_chunk (c : AluChunk) (k : DepQueue) :
    tally (between k) ((c.stream oq u).map (effect tlpp k)) = some (between k) := by
  cases k <;> rfl

theorem tally_chunks (cs : List AluChunk) (k : DepQueue) :
    tally (between k) ((chunkStreams oq u cs).map (effect tlpp k)) = some (between k) := by
  induction cs generalizing u with
  | nil => rfl
  | cons c cs ih => rw [chunkStreams, List.map_append, tally_append, tally_chunk, Option.bind_some, ih]

theorem tally_epilogue (k : DepQueue) : tally (between k) (epilogue.map (effect tlpp k)) = some 0 := by
  cases k <;> rfl

theorem stream_balanced (cs : List AluChunk) : Balanced tlpp (prologue ++ chunkStreams oq u cs ++ epilogue) := by
  intro k
  rw [List.map_append, List.map_append, tally_append, tally_append, tally_prologue, Option.bind_some, tally_chunks,
    Option.bind_some, tally_epilogue]

end Tokens

section Places

variable {oq : QuantizationData} {u : UopQueue}

theorem length_stream (c : AluChunk) : (c.stream oq u).length = 18 := rfl

theorem length_chunkStreams (cs : List AluChunk) : (chunkStreams oq u cs).length = 18 * cs.length := by
  induction cs generalizing u with
  | nil => rfl
  | cons c cs ih =>
      rw [chunkStreams, List.length_append, length_stream, ih, List.length_cons]
      omega

/-- An instruction of the chunks, by the chunk and its place in it. -/
theorem getElem?_chunkStreams (cs : List AluChunk) {i : Nat} {a : Insn} (at_i : (chunkStreams oq u cs)[i]? = some a) :
    ∃ c v, cs[i / 18]? = some c ∧ (c.stream oq v)[i % 18]? = some a := by
  induction cs generalizing u i with
  | nil => simp [chunkStreams] at at_i
  | cons c cs ih =>
      rw [chunkStreams, List.getElem?_append, length_stream] at at_i
      by_cases here : i < 18
      · rw [if_pos here] at at_i
        exact ⟨c, u, by rw [Nat.div_eq_of_lt here]; rfl, by rwa [Nat.mod_eq_of_lt here]⟩
      · rw [if_neg here] at at_i
        obtain ⟨c', v, chunk, place⟩ := ih at_i
        have number : i / 18 = (i - 18) / 18 + 1 := by omega
        have rest : i % 18 = (i - 18) % 18 := by omega
        exact ⟨c', v, by rw [number, List.getElem?_cons_succ, chunk], by rw [rest, place]⟩

/-- The tokens of queue `s2g` in a first part of the chunks. -/
theorem sum_chunks (cs : List AluChunk) (f : Insn → Nat) (each : ∀ (c : AluChunk) v, ((c.stream oq v).map f).sum = 1)
    {k : Nat} (le : k ≤ cs.length) : (((chunkStreams oq u cs).take (18 * k)).map f).sum = k := by
  induction cs generalizing u k with
  | nil =>
      obtain rfl := Nat.le_zero.mp le
      rfl
  | cons c cs ih =>
      cases k with
      | zero => rfl
      | succ k =>
          have cut : 18 * (k + 1) = (c.stream oq u).length + 18 * k := by
            rw [length_stream]
            omega
          rw [chunkStreams, cut, List.take_length_add_append, List.map_append, List.sum_append, each,
            ih (Nat.le_of_succ_le_succ le)]
          omega

/-- The whole stream, with its tokens of queue `s2g` up to a chunk. -/
theorem sum_stream (cs : List AluChunk) (f : Insn → Nat) (each : ∀ (c : AluChunk) v, ((c.stream oq v).map f).sum = 1)
    {k : Nat} (le : k ≤ cs.length) :
    (((prologue ++ chunkStreams oq u cs ++ epilogue).take (2 + 18 * k)).map f).sum = (prologue.map f).sum + k := by
  have inside : 18 * k ≤ (chunkStreams oq u cs).length := by
    rw [length_chunkStreams]
    omega
  rw [List.append_assoc, show 2 + 18 * k = prologue.length + 18 * k from rfl, List.take_length_add_append,
    List.take_append_of_le_length inside, List.map_append, List.sum_append, sum_chunks cs f each le]

/-- Which half of the accumulator memory an instruction uses. -/
def accRegion (m : MemInsn) : Nat := m.sramBase / (vtaAccBuffDepth / numThreads)

/-- A load of inputs stands at the start of a chunk. -/
theorem place_of_load {c : AluChunk} {r : Nat} {a : Insn} {m : MemInsn} (at_r : (c.stream oq u)[r]? = some a)
    (load : a.operation = .load m) (acc : m.memoryType = .acc) : r ≤ 1 ∧ (m = c.load1 ∨ m = c.load2) := by
  have bound : r < 18 := (List.getElem?_eq_some_iff.mp at_r).1
  interval_cases r <;> obtain rfl := Option.some.inj at_r <;> cases load
  all_goals first | exact ⟨by decide, Or.inl rfl⟩ | exact ⟨by decide, Or.inr rfl⟩ | cases acc

theorem place_of_store {c : AluChunk} {r : Nat} {a : Insn} {m : MemInsn} (at_r : (c.stream oq u)[r]? = some a)
    (store : a.operation = .store m) : r = 16 ∧ m = c.storeInsn ∧ tlpp.pushes a .s2g = 1 := by
  have bound : r < 18 := (List.getElem?_eq_some_iff.mp at_r).1
  interval_cases r <;> obtain rfl := Option.some.inj at_r <;> cases store
  exact ⟨rfl, rfl, rfl⟩

/-- Between the prologue and the epilogue. -/
theorem place_inside {C : List Insn} {j : Nat} {a : Insn} (at_j : (prologue ++ C ++ epilogue)[j]? = some a)
    (inside : a ∉ prologue ++ epilogue) : ∃ i, j = 2 + i ∧ C[i]? = some a := by
  rw [List.mem_append, not_or] at inside
  rw [List.append_assoc, List.getElem?_append] at at_j
  split at at_j
  · exact absurd (List.mem_of_getElem? at_j) inside.1
  · rename_i after
    rw [List.getElem?_append] at at_j
    split at at_j
    · exact ⟨j - 2, (Nat.add_sub_of_le (Nat.le_of_not_lt after)).symm, at_j⟩
    · exact absurd (List.mem_of_getElem? at_j) inside.2

/-- Neither of them loads inputs or stores results. -/
theorem ends_idle {a : Insn} {m : MemInsn} (mem : a ∈ prologue ++ epilogue)
    (operation : a.operation = .load m ∨ a.operation = .store m) : m.memoryType ≠ .acc ∧ m.memoryType ≠ .out := by
  simp only [prologue, epilogue, List.cons_append, List.nil_append, List.mem_cons, List.not_mem_nil, or_false] at mem
  obtain rfl | rfl | rfl | rfl | rfl | rfl | rfl | rfl := mem <;>
    obtain eq | eq := operation <;> cases eq <;> exact ⟨by decide, by decide⟩

theorem ends_push {a : Insn} (mem : a ∈ prologue ++ epilogue) (store : tlpp.stage a = .coreStore) :
    tlpp.pushes a .s2g = 1 := by
  revert a
  decide

theorem chunks_push (cs : List AluChunk) {a : Insn} (mem : a ∈ chunkStreams oq u cs) (store : tlpp.stage a = .coreStore) :
    tlpp.pushes a .s2g = 1 := by
  obtain ⟨i, at_i⟩ := List.getElem?_of_mem mem
  obtain ⟨c, v, -, at_r⟩ := getElem?_chunkStreams cs at_i
  change getCoreType a = _ at store
  cases operation : a.operation with
  | store m => exact (place_of_store at_r operation).2.2
  | load m =>
      rw [getCoreType, operation] at store
      dsimp only at store
      split at store <;> cases store
  | alu | finish =>
      rw [getCoreType, operation] at store
      cases store

end Places

/-- What holds of the stages while they run a stream. -/
structure StreamSafe (s : List Insn) : Prop where
  executes : Executes tlpp s
  finish : s[s.length - 1]? = some { operation := .finish }
  finishLast : ∀ st, InOrderStages.Reachable tlpp s st → ({ operation := .finish }, s.length - 1) ∈ st.done →
    ∀ x ∈ s.zipIdx, getCoreType x.1 = .coreStore → x ∈ st.done
  /-- Inputs are loaded over results only after these were stored. -/
  regions : ∀ st, InOrderStages.Reachable tlpp s st → ∀ (x y : Insn × Nat) (m m' : MemInsn), x ∈ st.done → y ∈ s.zipIdx →
    y.2 < x.2 → x.1.operation = .load m → m.memoryType = .acc → y.1.operation = .store m' → m'.memoryType = .out →
    accRegion m = accRegion m' → y ∈ st.done

section Runs

variable {oq : QuantizationData} {u : UopQueue} {cs : List AluChunk} {st : State Insn CoreType DepQueue}

theorem pops_each (c : AluChunk) (v : UopQueue) : ((c.stream oq v).map (tlpp.pops · .s2g)).sum = 1 := by
  have list : (c.stream oq v).map (tlpp.pops · .s2g) = [0, 0, 0, 0, 1, 0, 0, 0, 0, 0, 0, 0, 0, 0, 0, 0, 0, 0] := by
    rfl
  rw [list]
  decide

theorem pushes_each (c : AluChunk) (v : UopQueue) : ((c.stream oq v).map (tlpp.pushes · .s2g)).sum = 1 := by
  have list : (c.stream oq v).map (tlpp.pushes · .s2g) = [0, 0, 0, 0, 0, 0, 0, 0, 0, 0, 0, 0, 0, 0, 0, 0, 1, 0] := by
    rfl
  rw [list]
  decide

/-- The instruction of the compute stage that comes after two further tokens waits for the store. -/
theorem load_after_store (reach : InOrderStages.Reachable tlpp (prologue ++ chunkStreams oq u cs ++ epilogue) st)
    {x y : Insn × Nat} {k k' : Nat} (x_mem : (prologue ++ chunkStreams oq u cs ++ epilogue)[x.2]? = some x.1)
    (y_mem : (prologue ++ chunkStreams oq u cs ++ epilogue)[y.2]? = some y.1) (core : tlpp.stage x.1 = .coreGemm)
    (store : tlpp.stage y.1 = .coreStore) (push : tlpp.pushes y.1 .s2g = 1) (later : 2 + 18 * k ≤ x.2)
    (earlier : y.2 < 2 + 18 * (k' + 1)) (enough : k' + 2 ≤ k) (small : k ≤ cs.length) (done : x ∈ st.done) :
    y ∈ st.done := by
  refine reach.inv.ran_at (k := .s2g) x_mem y_mem core store ?_ done
  have takes := sum_take_le (tlpp.pops · .s2g) (prologue ++ chunkStreams oq u cs ++ epilogue)
    (Nat.le_succ_of_le later)
  have gives := sum_take_le (tlpp.pushes · .s2g) (prologue ++ chunkStreams oq u cs ++ epilogue) earlier
  rw [sum_stream cs _ pops_each small] at takes
  rw [sum_stream cs _ pushes_each (by omega), Nat.succ_eq_add_one, sum_take_succ _ y_mem, push] at gives
  have first : (prologue.map (tlpp.pushes · .s2g)).sum = 1 := by decide
  change givenBy _ _ _ _ + 1 ≤ _ at gives
  change _ ≤ takenBy _ _ (x.2 + 1) _ at takes
  omega

theorem stream_push {x : Insn} (mem : x ∈ prologue ++ chunkStreams oq u cs ++ epilogue)
    (store : tlpp.stage x = .coreStore) : tlpp.pushes x .s2g = 1 := by
  rw [List.append_assoc, List.mem_append, List.mem_append] at mem
  obtain first | chunk | last := mem
  · exact ends_push (List.mem_append_left _ first) store
  · exact chunks_push cs chunk store
  · exact ends_push (List.mem_append_right _ last) store

theorem finish_place :
    (prologue ++ chunkStreams oq u cs ++ epilogue)[(prologue ++ chunkStreams oq u cs ++ epilogue).length - 1]? =
      some { operation := .finish } := by
  rw [← List.getLast?_eq_getElem?, List.getLast?_append]
  rfl

/-- `FINISH` is behind the pop of the last token that the store stage gives. -/
theorem stores_before_finish (reach : InOrderStages.Reachable tlpp (prologue ++ chunkStreams oq u cs ++ epilogue) st)
    (done : ({ operation := .finish }, (prologue ++ chunkStreams oq u cs ++ epilogue).length - 1) ∈ st.done)
    {x : Insn × Nat} (mem : x ∈ (prologue ++ chunkStreams oq u cs ++ epilogue).zipIdx)
    (store : tlpp.stage x.1 = .coreStore) : x ∈ st.done := by
  have at_x := List.mem_zipIdx_iff_getElem?.mp mem
  have push := stream_push (List.mem_of_getElem? at_x) store
  refine reach.inv.ran_at (k := .s2g) finish_place at_x rfl store ?_ done
  have gives := sum_take_le (tlpp.pushes · .s2g) (prologue ++ chunkStreams oq u cs ++ epilogue)
    (List.getElem?_eq_some_iff.mp at_x).1
  rw [Nat.succ_eq_add_one, sum_take_succ _ at_x, push, List.take_length] at gives
  have sums := (@stream_balanced oq u cs).conveys.sums .s2g
  rw [← List.take_length (l := List.zipIdx _), total_take, total_take, List.length_zipIdx, List.take_length, zero_add,
    zero_add] at sums
  have last : (prologue ++ chunkStreams oq u cs ++ epilogue).length - 1 + 1 =
      (prologue ++ chunkStreams oq u cs ++ epilogue).length := by
    have : 0 < (prologue ++ chunkStreams oq u cs ++ epilogue).length := by simp [prologue]
    omega
  rw [takenBy, last, List.take_length, sums]
  exact gives

end Runs

section Regions

variable {oq : QuantizationData} {u : UopQueue} {n : Int} {st : State Insn CoreType DepQueue}

theorem region_of_load (bound : n < 2 ^ 31) {k : Nat} (more : 8192 * k < n) {m : MemInsn}
    (load : m = (chunkAt n k).load1 ∨ m = (chunkAt n k).load2) : accRegion m = k % 2 := by
  have positive := chunkLen_pos more
  have small := chunkLen_le (n := n) k
  obtain ⟨load1, load2, -⟩ := chunk_insns bound more
  change m.sramBase / 1024 = _
  obtain rfl | rfl := load
  · rw [load1]
    dsimp only
    omega
  · rw [load2]
    dsimp only
    omega

theorem region_of_store (bound : n < 2 ^ 31) {k : Nat} (more : 8192 * k < n) :
    accRegion (chunkAt n k).storeInsn = k % 2 := by
  obtain ⟨-, -, store⟩ := chunk_insns bound more
  change (chunkAt n k).storeInsn.sramBase / 1024 = _
  rw [store]
  dsimp only
  omega

/-- A load of inputs in the stream: its chunk, and the half of memory. -/
theorem stream_load (bound : n < 2 ^ 31) {j : Nat} {a : Insn} {m : MemInsn}
    (at_j : (prologue ++ chunkStreams oq u ((List.range (chunkCount n)).map (chunkAt n)) ++ epilogue)[j]? = some a)
    (load : a.operation = .load m) (acc : m.memoryType = .acc) :
    ∃ k, k < chunkCount n ∧ 2 + 18 * k ≤ j ∧ j ≤ 3 + 18 * k ∧ accRegion m = k % 2 := by
  obtain ⟨i, rfl, at_i⟩ := place_inside at_j fun mem => (ends_idle mem (Or.inl load)).1 acc
  obtain ⟨c, v, chunk, at_r⟩ := getElem?_chunkStreams _ at_i
  obtain ⟨more, rfl⟩ := (getElem?_chunks _ c).mp chunk
  obtain ⟨early, which⟩ := place_of_load at_r load acc
  exact ⟨i / 18, lt_chunkCount.mpr more, by omega, by omega, region_of_load bound more which⟩

theorem stream_store (bound : n < 2 ^ 31) {j : Nat} {a : Insn} {m : MemInsn}
    (at_j : (prologue ++ chunkStreams oq u ((List.range (chunkCount n)).map (chunkAt n)) ++ epilogue)[j]? = some a)
    (store : a.operation = .store m) (out : m.memoryType = .out) :
    ∃ k, j = 18 + 18 * k ∧ accRegion m = k % 2 ∧ tlpp.pushes a .s2g = 1 := by
  obtain ⟨i, rfl, at_i⟩ := place_inside at_j fun mem => (ends_idle mem (Or.inr store)).2 out
  obtain ⟨c, v, chunk, at_r⟩ := getElem?_chunkStreams _ at_i
  obtain ⟨more, rfl⟩ := (getElem?_chunks _ c).mp chunk
  obtain ⟨place, rfl, push⟩ := place_of_store at_r store
  exact ⟨i / 18, by omega, region_of_store bound more, push⟩

theorem stream_regions (bound : n < 2 ^ 31)
    (reach : InOrderStages.Reachable tlpp
      (prologue ++ chunkStreams oq u ((List.range (chunkCount n)).map (chunkAt n)) ++ epilogue) st)
    {x y : Insn × Nat} {m m' : MemInsn} (x_done : x ∈ st.done)
    (y_mem : y ∈ (prologue ++ chunkStreams oq u ((List.range (chunkCount n)).map (chunkAt n)) ++ epilogue).zipIdx)
    (before : y.2 < x.2) (load : x.1.operation = .load m) (acc : m.memoryType = .acc)
    (store : y.1.operation = .store m') (out : m'.memoryType = .out) (same : accRegion m = accRegion m') :
    y ∈ st.done := by
  have at_x := List.mem_zipIdx_iff_getElem?.mp (reach.inv.mem_done x_done)
  have at_y := List.mem_zipIdx_iff_getElem?.mp y_mem
  obtain ⟨k, few, low, high, region⟩ := stream_load bound at_x load acc
  obtain ⟨k', place, region', push⟩ := stream_store bound at_y store out
  have core : tlpp.stage x.1 = .coreGemm := by
    change getCoreType x.1 = _
    rw [getCoreType, load]
    simp [acc]
  have coreStore : tlpp.stage y.1 = .coreStore := by
    change getCoreType y.1 = _
    rw [getCoreType, store]
  -- Chunks of one half are two apart, and each waits for one more token of the store stage.
  exact load_after_store reach at_x at_y core coreStore push low
    (show y.2 < 2 + 18 * (k' + 1) by omega) (by omega)
    (by simpa using few.le) x_done

end Regions

/-- The stream of any number of elements, once it goes to the device in one piece. -/
theorem aluAdd_stream_safe (n : Int) (oq : QuantizationData) (fuel : Nat) (q : CommandQueue) (s : List Insn)
    (positive : 1 ≤ n) (queue : aluAddQueue n oq fuel = some q) (fits : q.runs = [s]) : StreamSafe s := by
  rw [aluAddQueue, Option.map_eq_some_iff] at queue
  obtain ⟨cs, chunks, rfl⟩ := queue
  have bound : n < 2 ^ 31 := by
    by_contra large
    rw [chunksFrom_large (by omega) fuel (by omega)] at chunks
    cases chunks
  obtain ⟨fuel', result⟩ := chunks_of_small positive bound
  obtain rfl := chunksFrom_unique chunks result
  have some : (List.range (chunkCount n)).map (chunkAt n) ≠ [] := by
    have first : 0 < chunkCount n := lt_chunkCount.mpr (by omega)
    simpa using first.ne'
  obtain rfl := aluAddCommands_stream some fits
  exact
    { executes := (stream_balanced _).executes
      finish := finish_place
      finishLast := fun st reach done x mem store => stores_before_finish reach done mem store
      regions := fun st reach x y m m' done mem before load acc store out same =>
        stream_regions bound reach done mem before load acc store out same }

theorem one_element_stream_safe : ∃ q s, aluAddQueue 1 {} 2 = some q ∧ q.runs = [s] ∧ StreamSafe s := by
  have chunks : chunksFrom 1 2 0 = some [chunkAt 1 0] := by decide +kernel
  have queue : aluAddQueue 1 {} 2 = some (aluAddCommands {} [chunkAt 1 0]) := by
    rw [aluAddQueue, chunks]
    rfl
  have runs : (aluAddCommands {} [chunkAt 1 0]).runs =
      [prologue ++ chunkStreams {} {} [chunkAt 1 0] ++ epilogue] := by
    rfl
  exact ⟨_, _, queue, runs, aluAdd_stream_safe 1 {} 2 _ _ (by decide) queue runs⟩

end AlkaliFw
