import AlkaliFw.CommandStreams
import AlkaliFw.UopRing

/-! The command queue of `vta_runtime.cc` with its micro-op cache. It emits the streams of the queue that
keeps no micro-ops, and while no kernel is evicted the buffer of micro-ops has what the streams read. -/

namespace AlkaliFw

/-- The calls that `aluAdd` makes. -/
inductive VtaCall where
  | depPush (src dst : PipelineStage)
  | depPop (src dst : PipelineStage)
  | loadBuffer2D (m : MemInsn)
  | storeBuffer2D (m : MemInsn)
  | pushALUOp (kernel : UopKernel)
  | synchronize
  deriving DecidableEq, Repr

def CommandQueue.call (q : CommandQueue) : VtaCall → CommandQueue
  | .depPush src dst => q.depPush src dst
  | .depPop src dst => q.depPop src dst
  | .loadBuffer2D m => q.loadBuffer2D m
  | .storeBuffer2D m => q.storeBuffer2D m
  | .pushALUOp kernel => q.pushALUUop kernel
  | .synchronize => q.synchronize

namespace AluChunk

variable (c : AluChunk)

def loadCalls : List VtaCall :=
  [.depPop .kComputeStage .kLoadStage, .loadBuffer2D c.load1, .loadBuffer2D c.load2, .depPush .kLoadStage .kComputeStage,
    .depPop .kStoreStage .kComputeStage, .depPop .kLoadStage .kComputeStage]

def storeCalls : List VtaCall :=
  [.depPush .kComputeStage .kStoreStage, .depPop .kComputeStage .kStoreStage, .storeBuffer2D c.storeInsn,
    .depPush .kStoreStage .kComputeStage, .depPush .kComputeStage .kLoadStage]

def calls (outputquant : QuantizationData) : List VtaCall :=
  c.loadCalls ++ (c.kernels outputquant).map .pushALUOp ++ c.storeCalls

end AluChunk

/-- The calls of `aluAdd`, from the first push to `VTASynchronize`. -/
def aluAddCalls (outputquant : QuantizationData) (chunks : List AluChunk) : List VtaCall :=
  [.depPush .kComputeStage .kLoadStage, .depPush .kStoreStage .kComputeStage] ++
    chunks.flatMap (AluChunk.calls · outputquant) ++
    [.depPop .kComputeStage .kLoadStage, .depPop .kStoreStage .kComputeStage, .synchronize]

/-- The micro-op of a kernel, with indices as wide as their fields. -/
def UopKernel.uop (kernel : UopKernel) : VTAUop where
  dstIdx := kernel.dstIndex % 2 ^ 11
  srcIdx := kernel.srcIndex % 2 ^ 11

/-- A kernel that has a number. -/
def numberedUops (k : Nat × UopKernel) : List VTAUop := [k.2.uop]

def UopInsn.operation : UopInsn (Nat × UopKernel) → Operation
  | .load m => .load m
  | .compute k uopBgn uopEnd => .alu uopBgn uopEnd k.2

/-- `CommandQueue`. The kernels have the number of the push that makes them; a stream is given to the device with what
`ReadBarrier` copies. -/
structure VtaRuntime where
  uopQueue : UopRing (Nat × UopKernel) := {}
  created : Nat := 0
  insnQueue : InsnQueue := {}
  runs : List (List Insn × List VTAUop) := []
  checked : Bool := true

namespace VtaRuntime

def depPush (r : VtaRuntime) (src dst : PipelineStage) : VtaRuntime := { r with insnQueue := r.insnQueue.depPush src dst }

def depPop (r : VtaRuntime) (src dst : PipelineStage) : VtaRuntime := { r with insnQueue := r.insnQueue.depPop src dst }

/-- `Synchronize`, without `VTA_DEBUG_FORCE_SERIAL`. -/
def synchronize (r : VtaRuntime) : VtaRuntime :=
  let iq := r.insnQueue.depPush .kStoreStage .kComputeStage
  let iq := iq.depPush .kLoadStage .kComputeStage
  let iq := iq.depPop .kStoreStage .kComputeStage
  let iq := iq.depPop .kLoadStage .kComputeStage
  let iq := iq.commitPendingPop .kComputeStage
  let iq := iq.create .kComputeStage .finish
  { uopQueue := r.uopQueue.reset
    created := r.created
    insnQueue := { iq with dramBuffer := [] }
    runs := r.runs ++ [(iq.dramBuffer.reverse, r.uopQueue.readBarrier numberedUops)]
    checked := r.checked && !iq.pendingPop && decide ((r.uopQueue.readBarrier numberedUops).length * 4 ≤ vtaMaxXfer) &&
      decide (iq.dramBuffer.length * 16 ≤ vtaMaxXfer) }

/-- `CheckInsnOverFlow`, with `AutoSync`. -/
def checkInsnOverFlow (r : VtaRuntime) : VtaRuntime :=
  if (r.insnQueue.dramBuffer.length + 6) * 16 > vtaMaxXfer then r.synchronize else r

def issue (r : VtaRuntime) (stage : PipelineStage) (operation : Operation) : VtaRuntime :=
  { r with insnQueue := r.insnQueue.create stage operation }

def loadBuffer2D (r : VtaRuntime) (m : MemInsn) : VtaRuntime :=
  (r.issue (getMemPipelineStage m.memoryType) (.load m)).checkInsnOverFlow

def storeBuffer2D (r : VtaRuntime) (m : MemInsn) : VtaRuntime := (r.issue .kStoreStage (.store m)).checkInsnOverFlow

/-- The private `PushALUUop` of a new kernel. -/
def pushKernel (r : VtaRuntime) (kernel : UopKernel) : VtaRuntime :=
  match r.uopQueue.pushKernel numberedUops (r.created, kernel) with
  | none => { r with checked := false }
  | some (uopQueue, insns) =>
    { r with
      uopQueue
      created := r.created + 1
      insnQueue := insns.foldl (fun iq insn => iq.create .kComputeStage insn.operation) r.insnQueue }

def pushALUUop (r : VtaRuntime) (kernel : UopKernel) : VtaRuntime := (r.pushKernel kernel).checkInsnOverFlow

def call (r : VtaRuntime) : VtaCall → VtaRuntime
  | .depPush src dst => r.depPush src dst
  | .depPop src dst => r.depPop src dst
  | .loadBuffer2D m => r.loadBuffer2D m
  | .storeBuffer2D m => r.storeBuffer2D m
  | .pushALUOp kernel => r.pushALUUop kernel
  | .synchronize => r.synchronize

end VtaRuntime

section Calls

variable {oq : QuantizationData}

theorem chunk_calls (c : AluChunk) (q : CommandQueue) : (c.calls oq).foldl CommandQueue.call q = c.commands oq q := by
  rw [AluChunk.calls, List.foldl_append, List.foldl_append, List.foldl_map]
  rfl

theorem aluAdd_calls (cs : List AluChunk) : (aluAddCalls oq cs).foldl CommandQueue.call {} = aluAddCommands oq cs := by
  have chunks (q : CommandQueue) : (cs.flatMap (AluChunk.calls · oq)).foldl CommandQueue.call q =
      cs.foldl (fun q c => c.commands oq q) q := by
    induction cs generalizing q with
    | nil => rfl
    | cons c cs ih => rw [List.flatMap_cons, List.foldl_append, chunk_calls, ih, List.foldl_cons]
  rw [aluAddCalls, List.foldl_append, List.foldl_append, chunks]
  rfl

end Calls

/-- A load of micro-ops from where the buffer has them. -/
def Operation.linked : Operation → Operation
  | .load m => .load (if m.memoryType = .uop then { m with dramBase := m.sramBase } else m)
  | operation => operation

def Insn.linked (insn : Insn) : Insn := { insn with operation := insn.operation.linked }

theorem linked_stage (insn : Insn) : getPipelineStage insn.linked = getPipelineStage insn := by
  obtain ⟨operation, pp, pn, up, un⟩ := insn
  cases operation with
  | load m =>
      simp only [getPipelineStage, Insn.linked, Operation.linked]
      split <;> rfl
  | store | alu | finish => rfl

theorem noopInsn_linked (stage : PipelineStage) (pushPrev pushNext popPrev popNext : Bool) :
    (noopInsn stage pushPrev pushNext popPrev popNext).linked = noopInsn stage pushPrev pushNext popPrev popNext := by
  cases stage <;> rfl

namespace InsnQueue

def linked (q : InsnQueue) : InsnQueue := { q with dramBuffer := q.dramBuffer.map Insn.linked }

variable (q : InsnQueue)

theorem pushNoop_linked (stage : PipelineStage) (pushPrev pushNext popPrev popNext : Bool) :
    q.linked.pushNoop stage pushPrev pushNext popPrev popNext = (q.pushNoop stage pushPrev pushNext popPrev popNext).linked := by
  rw [pushNoop, ← noopInsn_linked]
  rfl

theorem commitPendingPop_linked (stage : PipelineStage) :
    q.linked.commitPendingPop stage = (q.commitPendingPop stage).linked := by
  rw [commitPendingPop, commitPendingPop]
  change (if q.pendingPopPrev.get stage ∨ q.pendingPopNext.get stage then _ else _) = _
  by_cases waits : q.pendingPopPrev.get stage ∨ q.pendingPopNext.get stage
  · rw [if_pos waits, if_pos waits, pushNoop_linked]
    rfl
  · rw [if_neg waits, if_neg waits]

theorem depPop_linked (src dst : PipelineStage) : q.linked.depPop src dst = (q.depPop src dst).linked := by
  have ready (b : Bool) : (if b then q.linked.commitPendingPop dst else q.linked) =
      (if b then q.commitPendingPop dst else q).linked := by
    cases b
    · rfl
    · exact q.commitPendingPop_linked dst
  rw [depPop, depPop]
  split
  · exact congrArg (fun q => { q with pendingPopPrev := q.pendingPopPrev.set dst true }) (ready _)
  · exact congrArg (fun q => { q with pendingPopNext := q.pendingPopNext.set dst true }) (ready _)

theorem depPush_linked (src dst : PipelineStage) : q.linked.depPush src dst = (q.depPush src dst).linked := by
  rw [depPush, depPush, commitPendingPop_linked]
  generalize q.commitPendingPop src = q
  have noop : (if src.toNat < dst.toNat then q.linked.pushNoop src false true false false
      else q.linked.pushNoop src true false false false) =
        (if src.toNat < dst.toNat then q.pushNoop src false true false false
          else q.pushNoop src true false false false).linked := by
    split <;> exact q.pushNoop_linked ..
  obtain ⟨buffer, pp, pn⟩ := q
  cases buffer with
  | nil => exact noop
  | cons mptr older =>
      dsimp only
      change (if getPipelineStage mptr.linked = src then _ else _) = _
      rw [linked_stage]
      split
      · change (if src.toNat < dst.toNat ∧ mptr.pushNextDep = false then _ else
          if dst.toNat < src.toNat ∧ mptr.pushPrevDep = false then _ else _) = _
        split
        · rfl
        · split
          · rfl
          · exact noop
      · exact noop

theorem create_linked (stage : PipelineStage) (operation : Operation) :
    q.linked.create stage operation.linked = (q.create stage operation).linked := rfl

end InsnQueue

/-- The two command queues after the same calls. -/
structure Mirrors (r : VtaRuntime) (q : CommandQueue) : Prop where
  insnQueue : r.insnQueue = q.insnQueue.linked
  runs : r.runs.map Prod.fst = q.runs.map (List.map Insn.linked)
  checked : r.checked = q.checked
  sramEnd : r.uopQueue.sramEnd = q.uopQueue.sramEnd
  loaded : q.uopQueue.Flushed
  placed : r.uopQueue.WellPlaced numberedUops
  flushed : r.uopQueue.Flushed
  fresh : ∀ k ∈ r.uopQueue.cache, k.1 < r.created

section Simulation

variable {r : VtaRuntime} {q : CommandQueue}

theorem numberedUops_size (k : Nat × UopKernel) : UopRing.size numberedUops k = 1 := rfl

theorem numberedUops_fit (k : Nat × UopKernel) : UopRing.Fits numberedUops k := by
  rw [UopRing.Fits, numberedUops_size]
  decide

theorem numberedUops_total (l : List (Nat × UopKernel)) : Layout.total (UopRing.size numberedUops) l = l.length := by
  induction l with
  | nil => rfl
  | cons k l ih => rw [Layout.total_cons, ih, numberedUops_size, List.length_cons, Nat.add_comm]

theorem numberedUops_length (l : List (Nat × UopKernel)) : (l.flatMap numberedUops).length = l.length := by
  rw [← numberedUops_total, List.length_flatMap]
  rfl

theorem mirrors_empty : Mirrors {} {} where
  insnQueue := rfl
  runs := rfl
  checked := rfl
  sramEnd := rfl
  loaded := rfl
  placed := UopRing.wellPlaced_empty
  flushed := rfl
  fresh k mem := by simp at mem

/-- What a synchronization adds to the instructions. -/
def InsnQueue.closed (q : InsnQueue) : InsnQueue :=
  (((((q.depPush .kStoreStage .kComputeStage).depPush .kLoadStage .kComputeStage).depPop .kStoreStage .kComputeStage).depPop
    .kLoadStage .kComputeStage).commitPendingPop .kComputeStage).create .kComputeStage .finish

theorem closed_linked (q : InsnQueue) : q.linked.closed = q.closed.linked := by
  rw [InsnQueue.closed, InsnQueue.depPush_linked, InsnQueue.depPush_linked, InsnQueue.depPop_linked,
    InsnQueue.depPop_linked, InsnQueue.commitPendingPop_linked]
  rfl

theorem closed_idles (q : InsnQueue) : Appends Operation.Idle q.operations q.closed.operations := by
  rw [InsnQueue.closed, InsnQueue.create_operations]
  refine .trans ?_ (.one trivial _)
  exact (((q.depPush_idles _ _).trans (InsnQueue.depPush_idles _ _ _)).trans ((InsnQueue.depPop_idles _ _ _).trans
    (InsnQueue.depPop_idles _ _ _))).trans (InsnQueue.commitPendingPop_idles _ _)

/-- The buffer of micro-ops is never too small. -/
theorem readBarrier_le (placed : r.uopQueue.WellPlaced numberedUops) :
    (r.uopQueue.readBarrier numberedUops).length ≤ vtaUopBuffDepth := by
  have room := placed.spread.total_le
  rw [Nat.zero_add, numberedUops_total] at room
  rwa [UopRing.readBarrier, numberedUops_length]

theorem Mirrors.synchronize (h : Mirrors r q) : Mirrors r.synchronize q.synchronize := by
  have closed : r.insnQueue.closed = q.insnQueue.closed.linked := by rw [h.insnQueue, closed_linked]
  have barrier : (r.uopQueue.readBarrier numberedUops).length * 4 ≤ vtaMaxXfer := by
    have small := readBarrier_le h.placed
    change _ ≤ 8192 at small
    change _ ≤ 33554432
    omega
  refine
    { insnQueue := ?_
      runs := ?_
      checked := ?_
      sramEnd := rfl
      loaded := rfl
      placed := h.placed.reset
      flushed := rfl
      fresh := fun k mem => by cases mem }
  · change { r.insnQueue.closed with dramBuffer := [] } = _
    rw [closed]
    rfl
  · change (r.runs ++ [(r.insnQueue.closed.dramBuffer.reverse, _)]).map Prod.fst =
      (q.runs ++ [q.insnQueue.closed.dramBuffer.reverse]).map (List.map Insn.linked)
    rw [List.map_append, List.map_append, h.runs, closed]
    exact congrArg (_ ++ [·]) List.map_reverse.symm
  · change (r.checked && !r.insnQueue.closed.pendingPop && decide ((r.uopQueue.readBarrier numberedUops).length * 4 ≤ vtaMaxXfer) &&
      decide (r.insnQueue.closed.dramBuffer.length * 16 ≤ vtaMaxXfer)) =
        (q.checked && !q.insnQueue.closed.pendingPop && decide (q.insnQueue.closed.dramBuffer.length * 16 ≤ vtaMaxXfer))
    rw [closed, h.checked, decide_eq_true barrier, Bool.and_true]
    change (q.checked && !q.insnQueue.closed.pendingPop &&
      decide ((q.insnQueue.closed.dramBuffer.map Insn.linked).length * 16 ≤ vtaMaxXfer)) = _
    rw [List.length_map]

theorem Mirrors.checkInsnOverFlow (h : Mirrors r q) : Mirrors r.checkInsnOverFlow q.checkInsnOverFlow := by
  have length : r.insnQueue.dramBuffer.length = q.insnQueue.dramBuffer.length := by
    rw [h.insnQueue]
    exact List.length_map _
  rw [VtaRuntime.checkInsnOverFlow, CommandQueue.checkInsnOverFlow, length]
  split
  · exact h.synchronize
  · exact h

theorem Mirrors.issue (h : Mirrors r q) (stage : PipelineStage) {operation : Operation} (linked : operation.linked = operation) :
    Mirrors (r.issue stage operation) (q.issue stage operation) where
  insnQueue := by
    change r.insnQueue.create stage operation = _
    rw [h.insnQueue, ← linked, InsnQueue.create_linked, linked]
    rfl
  runs := h.runs
  checked := h.checked
  sramEnd := h.sramEnd
  loaded := h.loaded
  placed := h.placed
  flushed := h.flushed
  fresh := h.fresh

theorem load_linked {u : UopQueue} (flushed : u.Flushed) : u.load.linked = .load (UopRing.blockLoad (u.push 1).2 1) := by
  obtain ⟨sramBegin, sramEnd⟩ := u
  obtain rfl : sramBegin = sramEnd := flushed
  rw [UopQueue.load, UopQueue.push]
  dsimp only
  by_cases full : sramBegin + 1 > vtaUopBuffDepth
  · rw [if_pos full]
    rfl
  · rw [if_neg full]
    change Operation.load (MemInsn.mk .uop .fpgaBuff sramBegin sramBegin 1 (sramBegin + 1 - sramBegin)
      (sramBegin + 1 - sramBegin) 0 0 0 0) = _
    rw [Nat.add_sub_cancel_left]
    rfl

/-- A new kernel: where it is placed, and the two instructions. -/
structure PushesAt (r r' : VtaRuntime) (kernel : UopKernel) (b : Nat) : Prop where
  pushed : UopRing.Pushed numberedUops r.uopQueue (r.created, kernel) r'.uopQueue
    (UopRing.placedInsns numberedUops (r.created, kernel) b)
  created : r'.created = r.created + 1
  insnQueue : r'.insnQueue = (r.insnQueue.create .kComputeStage (.load (UopRing.blockLoad b 1))).create .kComputeStage
    (.alu b (b + 1) kernel)
  runs : r'.runs = r.runs
  checked : r'.checked = r.checked

theorem Mirrors.new (h : Mirrors r q) (kernel : UopKernel) : ¬r.uopQueue.cached (r.created, kernel) := fun here =>
  lt_irrefl _ (h.fresh _ ((h.placed.cached _).mp here))

theorem Mirrors.pushesAt (h : Mirrors r q) (kernel : UopKernel) :
    PushesAt r (r.pushKernel kernel) kernel (q.uopQueue.push 1).2 ∧
      (r.pushKernel kernel).uopQueue.sramEnd = q.uopQueue.next.sramEnd := by
  obtain ⟨uopQueue, insns, eq, pushed⟩ := UopRing.pushKernel_cases h.placed h.flushed (numberedUops_fit (r.created, kernel))
  have ends := h.sramEnd
  rw [VtaRuntime.pushKernel, eq]
  dsimp only
  rw [UopQueue.next, UopQueue.push, ← ends]
  cases pushed with
  | cached here => exact absurd here (h.new kernel)
  | next new room =>
      rw [numberedUops_size] at room
      rw [if_neg (Nat.not_lt.mpr room)]
      exact ⟨⟨.next new room, rfl, rfl, rfl, rfl⟩, rfl⟩
  | wraps new full =>
      rw [numberedUops_size] at full
      rw [if_pos full]
      exact ⟨⟨.wraps new full, rfl, rfl, rfl, rfl⟩, rfl⟩

theorem pushed_mem {K U : Type} [DecidableEq K] {seq : K → List U} {ring ring' : UopRing K} {k e : K} {insns : List (UopInsn K)}
    (pushed : UopRing.Pushed seq ring k ring' insns) (mem : e ∈ ring'.cache) : e = k ∨ e ∈ ring.cache := by
  have placed {b idx : Nat} (mem : e ∈ (ring.placed seq k b idx).cache) : e = k ∨ e ∈ ring.cache := by
    change e ∈ ring.cache.take idx ++ k :: ring.kept idx (b + UopRing.size seq k) at mem
    rw [List.mem_append, List.mem_cons] at mem
    obtain first | same | last := mem
    · exact Or.inr (List.mem_of_mem_take first)
    · exact Or.inl same
    · exact Or.inr ((UopRing.mem_split e idx _).mpr (Or.inr (Or.inr last)))
  cases pushed with
  | cached here => exact Or.inr mem
  | next new room => exact placed mem
  | wraps new full => exact placed mem

theorem Mirrors.pushKernel (h : Mirrors r q) (kernel : UopKernel) : Mirrors (r.pushKernel kernel) (q.pushKernel kernel) := by
  obtain ⟨at_b, ends⟩ := h.pushesAt kernel
  obtain ⟨placed, flushed⟩ := h.placed.pushed h.flushed (numberedUops_fit _) at_b.pushed
  rw [CommandQueue.pushKernel_eq h.loaded]
  refine ⟨?_, at_b.runs ▸ h.runs, at_b.checked.trans h.checked, ends, rfl, placed, flushed, fun k mem => ?_⟩
  · rw [at_b.insnQueue, h.insnQueue, ← load_linked h.loaded]
    rfl
  · rw [at_b.created]
    obtain rfl | old := pushed_mem at_b.pushed mem
    · exact Nat.lt_add_one _
    · exact (h.fresh k old).trans (Nat.lt_add_one _)

/-- Calls that load no micro-ops themselves. -/
def VtaCall.Plain : VtaCall → Prop
  | .loadBuffer2D m => m.memoryType ≠ .uop
  | _ => True

theorem linked_plain {m : MemInsn} (plain : m.memoryType ≠ .uop) : (Operation.load m).linked = .load m := by
  rw [Operation.linked, if_neg plain]

theorem Mirrors.call (h : Mirrors r q) {c : VtaCall} (plain : c.Plain) : Mirrors (r.call c) (q.call c) := by
  cases c with
  | depPush src dst => exact { h with insnQueue := (congrArg (·.depPush src dst) h.insnQueue).trans (q.insnQueue.depPush_linked src dst) }
  | depPop src dst => exact { h with insnQueue := (congrArg (·.depPop src dst) h.insnQueue).trans (q.insnQueue.depPop_linked src dst) }
  | loadBuffer2D m => exact (h.issue _ (linked_plain plain)).checkInsnOverFlow
  | storeBuffer2D m => exact (h.issue .kStoreStage rfl).checkInsnOverFlow
  | pushALUOp kernel => exact (h.pushKernel kernel).checkInsnOverFlow
  | synchronize => exact h.synchronize

theorem Mirrors.calls (h : Mirrors r q) {cs : List VtaCall} (plain : ∀ c ∈ cs, c.Plain) :
    Mirrors (cs.foldl VtaRuntime.call r) (cs.foldl CommandQueue.call q) := by
  induction cs generalizing r q with
  | nil => exact h
  | cons c cs ih => exact ih (h.call (plain c List.mem_cons_self)) fun c' mem => plain c' (List.mem_cons_of_mem c mem)

end Simulation

/-- What an operation behind `l` has to find: an ALU instruction has its one micro-op in the buffer, and a load of it
among `l`. -/
def Fetches (image : List VTAUop) (l : List Operation) : Operation → Prop
  | .load m => m.memoryType = .uop → m.xSize = 0 ∨ ∃ b, m = UopRing.blockLoad b 1
  | .alu uopBgn uopEnd kernel =>
    uopEnd = uopBgn + 1 ∧ image[uopBgn]? = some kernel.uop ∧ .load (UopRing.blockLoad uopBgn 1) ∈ l
  | _ => True

def Finds (l : List Operation) (image : List VTAUop) : Prop :=
  ∀ before o after, l = before ++ o :: after → Fetches image before o

section Fetching

variable {l l' : List Operation} {image : List VTAUop}

theorem concat_split {β : Type} {l before after : List β} {x y : β} (eq : l ++ [y] = before ++ x :: after) :
    (l = before ∧ y = x) ∨ ∃ after', l = before ++ x :: after' := by
  obtain rfl | ⟨after', z, rfl⟩ := List.eq_nil_or_concat after
  · obtain ⟨front, back⟩ := List.append_inj' eq rfl
    exact Or.inl ⟨front, List.cons.inj back |>.1⟩
  · rw [List.concat_eq_append, ← List.cons_append, ← List.append_assoc] at eq
    exact Or.inr ⟨after', (List.append_inj' eq rfl).1⟩

theorem Finds.concat (h : Finds l image) {o : Operation} (fetches : Fetches image l o) : Finds (l ++ [o]) image := by
  intro before x after eq
  obtain ⟨rfl, rfl⟩ | ⟨after', inside⟩ := concat_split eq
  · exact fetches
  · exact h before x after' inside

theorem Finds.appends {P : Operation → Prop} (h : Finds l image) (appends : Appends P l l')
    (fetches : ∀ o, P o → ∀ l, Fetches image l o) : Finds l' image := by
  obtain ⟨more, rfl, held⟩ := appends
  induction more generalizing l with
  | nil => rwa [List.append_nil]
  | cons o more ih =>
      rw [List.append_cons]
      exact ih (h.concat (fetches o (held o List.mem_cons_self) l)) fun x mem => held x (List.mem_cons_of_mem o mem)

theorem Fetches.more {o : Operation} (fetches : Fetches image l o) (more : List VTAUop) : Fetches (image ++ more) l o := by
  cases o with
  | load m => exact fetches
  | alu b e kernel =>
      obtain ⟨one, here, loaded⟩ := fetches
      refine ⟨one, ?_, loaded⟩
      rw [List.getElem?_append_left (List.getElem?_eq_some_iff.mp here).1]
      exact here
  | store | finish => trivial

theorem idle_fetches {o : Operation} (idle : o.Idle) (l : List Operation) : Fetches image l o := by
  cases o with
  | load m => exact fun _ => Or.inl idle
  | alu => cases idle
  | store | finish => trivial

end Fetching

/-- Since the last synchronization no kernel was evicted. -/
structure Unevicted (r : VtaRuntime) : Prop where
  all : r.uopQueue.cacheIdx = r.uopQueue.cache.length
  few : r.uopQueue.cache.length ≤ r.created
  finds : Finds r.insnQueue.operations (r.uopQueue.readBarrier numberedUops)
  runs : ∀ run ∈ r.runs, Finds (run.1.map Insn.operation) run.2

section Holding

variable {r : VtaRuntime} {q : CommandQueue}

theorem finds_nil (image : List VTAUop) : Finds [] image := fun _ _ _ eq => by simp at eq

theorem unevicted_empty : Unevicted {} := ⟨rfl, le_rfl, finds_nil _, fun run mem => by simp at mem⟩

theorem Unevicted.synchronize (h : Unevicted r) : Unevicted r.synchronize where
  all := rfl
  few := Nat.zero_le _
  finds := finds_nil _
  runs run mem := by
    change run ∈ r.runs ++ [(r.insnQueue.closed.dramBuffer.reverse, r.uopQueue.readBarrier numberedUops)] at mem
    obtain old | new := List.mem_append.mp mem
    · exact h.runs run old
    · obtain rfl := List.mem_singleton.mp new
      exact h.finds.appends (closed_idles r.insnQueue) fun _ idle => idle_fetches idle

theorem Unevicted.checkInsnOverFlow (h : Unevicted r) : Unevicted r.checkInsnOverFlow := by
  rw [VtaRuntime.checkInsnOverFlow]
  split
  · exact h.synchronize
  · exact h

theorem Unevicted.issue (h : Unevicted r) (stage : PipelineStage) {operation : Operation}
    (fetches : ∀ image l, Fetches image l operation) : Unevicted (r.issue stage operation) where
  all := h.all
  few := h.few
  finds := by
    change Finds (r.insnQueue.create stage operation).operations _
    rw [InsnQueue.create_operations]
    exact h.finds.concat (fetches _ _)
  runs := h.runs

theorem Unevicted.idles (h : Unevicted r) {insnQueue : InsnQueue} (appends : Appends Operation.Idle r.insnQueue.operations insnQueue.operations) :
    Unevicted { r with insnQueue } where
  all := h.all
  few := h.few
  finds := h.finds.appends appends fun _ idle => idle_fetches idle
  runs := h.runs

/-- A push where there is room. -/
theorem pushed_next {K U : Type} [DecidableEq K] {seq : K → List U} {ring ring' : UopRing K} {k : K} {b : Nat}
    (pushed : UopRing.Pushed seq ring k ring' (UopRing.placedInsns seq k b)) (new : ¬ring.cached k)
    (room : ring.sramEnd + UopRing.size seq k ≤ vtaUopBuffDepth) :
    ring' = ring.placed seq k ring.sramEnd ring.cacheIdx ∧ b = ring.sramEnd := by
  generalize at_b : UopRing.placedInsns seq k b = insns at pushed
  cases pushed with
  | cached here => exact absurd here new
  | next _ _ =>
      simp only [UopRing.placedInsns, List.cons.injEq, UopInsn.compute.injEq] at at_b
      exact ⟨rfl, at_b.2.1.2.1⟩
  | wraps _ full => exact absurd full (Nat.not_lt.mpr room)

theorem Unevicted.pushKernel (h : Unevicted r) (mirrors : Mirrors r q) (kernel : UopKernel) (room : r.created < vtaUopBuffDepth) :
    Unevicted (r.pushKernel kernel) := by
  obtain ⟨at_b, -⟩ := mirrors.pushesAt kernel
  have ends : r.uopQueue.sramEnd = r.uopQueue.cache.length := by
    rw [mirrors.placed.sramEnd_eq h.all, numberedUops_total]
  have few := h.few
  obtain ⟨ring, b_eq⟩ := pushed_next at_b.pushed (mirrors.new kernel) (by rw [numberedUops_size]; omega)
  have cache : (r.pushKernel kernel).uopQueue.cache = r.uopQueue.cache ++ [(r.created, kernel)] := by
    rw [ring]
    exact UopRing.placed_cache h.all _
  have barrier : (r.pushKernel kernel).uopQueue.readBarrier numberedUops =
      r.uopQueue.readBarrier numberedUops ++ [kernel.uop] := by
    rw [UopRing.readBarrier, UopRing.readBarrier, cache, List.flatMap_append]
    rfl
  refine ⟨?_, ?_, ?_, at_b.runs ▸ h.runs⟩
  · rw [ring]
    exact UopRing.placed_idx h.all _
  · rw [cache, at_b.created, List.length_append]
    exact Nat.add_le_add_right few 1
  · rw [at_b.insnQueue, barrier, InsnQueue.create_operations, InsnQueue.create_operations]
    have old : Finds r.insnQueue.operations (r.uopQueue.readBarrier numberedUops ++ [kernel.uop]) :=
      fun before o after eq => (h.finds before o after eq).more _
    have loaded := @Finds.concat _ _ old (.load (UopRing.blockLoad (q.uopQueue.push 1).2 1)) fun _ => Or.inr ⟨_, rfl⟩
    refine loaded.concat ⟨rfl, ?_, List.mem_append_right _ (List.mem_singleton_self _)⟩
    rw [b_eq, ends, ← numberedUops_length]
    exact List.getElem?_concat_length

theorem plain_fetches {m : MemInsn} (plain : m.memoryType ≠ .uop) (image : List VTAUop) (l : List Operation) :
    Fetches image l (.load m) := fun same => absurd same plain

def VtaCall.isPush : VtaCall → Bool
  | .pushALUOp _ => true
  | _ => false

theorem check_created (r : VtaRuntime) : r.checkInsnOverFlow.created = r.created := by
  rw [VtaRuntime.checkInsnOverFlow]
  split <;> rfl

theorem Unevicted.call (h : Unevicted r) (mirrors : Mirrors r q) {c : VtaCall} (plain : c.Plain)
    (room : c.isPush = true → r.created < vtaUopBuffDepth) :
    Unevicted (r.call c) ∧ (r.call c).created = r.created + c.isPush.toNat := by
  cases c with
  | depPush src dst => exact ⟨h.idles (r.insnQueue.depPush_idles src dst), rfl⟩
  | depPop src dst => exact ⟨h.idles (r.insnQueue.depPop_idles src dst), rfl⟩
  | loadBuffer2D m => exact ⟨(h.issue _ (plain_fetches plain)).checkInsnOverFlow, check_created _⟩
  | storeBuffer2D m =>
      have fetches (image : List VTAUop) (l : List Operation) : Fetches image l (.store m) := trivial
      exact ⟨(h.issue .kStoreStage fetches).checkInsnOverFlow, check_created _⟩
  | pushALUOp kernel =>
      exact ⟨(h.pushKernel mirrors kernel (room rfl)).checkInsnOverFlow,
        (check_created _).trans (mirrors.pushesAt kernel).1.created⟩
  | synchronize => exact ⟨h.synchronize, rfl⟩

theorem Unevicted.calls (h : Unevicted r) (mirrors : Mirrors r q) {cs : List VtaCall} (plain : ∀ c ∈ cs, c.Plain)
    (room : r.created + cs.countP VtaCall.isPush ≤ vtaUopBuffDepth) : Unevicted (cs.foldl VtaRuntime.call r) := by
  induction cs generalizing r q with
  | nil => exact h
  | cons c cs ih =>
      rw [List.countP_cons] at room
      have here := plain c List.mem_cons_self
      obtain ⟨held, created⟩ := h.call mirrors here fun push => by
        rw [if_pos push] at room
        omega
      refine ih held (mirrors.call here) (fun c' mem => plain c' (List.mem_cons_of_mem c mem)) ?_
      cases push : c.isPush <;> simp only [push, Bool.toNat_false, Bool.toNat_true, if_true, Bool.false_eq_true, if_false] at created room <;> omega

/-- The streams are those of the queue without micro-ops, and find theirs while there is room for all kernels. -/
theorem calls_find {cs : List VtaCall} (plain : ∀ c ∈ cs, c.Plain) (room : cs.countP VtaCall.isPush ≤ vtaUopBuffDepth) :
    Mirrors (cs.foldl VtaRuntime.call {}) (cs.foldl CommandQueue.call {}) ∧
      ∀ run ∈ (cs.foldl VtaRuntime.call {}).runs, Finds (run.1.map Insn.operation) run.2 :=
  ⟨mirrors_empty.calls plain, (unevicted_empty.calls mirrors_empty plain (by rwa [Nat.zero_add])).runs⟩

section Additions

variable {oq : QuantizationData} {cs : List AluChunk}

theorem chunk_plain (c : AluChunk) : ∀ call ∈ c.calls oq, call.Plain := by
  intro call mem
  simp only [AluChunk.calls, AluChunk.loadCalls, AluChunk.storeCalls, AluChunk.kernels, List.map_cons, List.map_nil,
    List.cons_append, List.nil_append, List.mem_cons, List.not_mem_nil, or_false] at mem
  obtain rfl | rfl | rfl | rfl | rfl | rfl | rfl | rfl | rfl | rfl | rfl | rfl | rfl | rfl | rfl | rfl | rfl := mem <;>
    simp [VtaCall.Plain, AluChunk.load1, AluChunk.load2]

theorem aluAdd_plain : ∀ call ∈ aluAddCalls oq cs, call.Plain := by
  intro call mem
  rw [aluAddCalls, List.mem_append, List.mem_append, List.mem_flatMap] at mem
  obtain (first | ⟨c, -, inside⟩) | last := mem
  · simp only [List.mem_cons, List.not_mem_nil, or_false] at first
    obtain rfl | rfl := first <;> trivial
  · exact chunk_plain c call inside
  · simp only [List.mem_cons, List.not_mem_nil, or_false] at last
    obtain rfl | rfl | rfl := last <;> trivial

theorem chunk_pushes (c : AluChunk) : (c.calls oq).countP VtaCall.isPush = 6 := rfl

theorem aluAdd_pushes : (aluAddCalls oq cs).countP VtaCall.isPush = 6 * cs.length := by
  have chunks : (cs.flatMap (AluChunk.calls · oq)).countP VtaCall.isPush = 6 * cs.length := by
    induction cs with
    | nil => rfl
    | cons c cs ih => rw [List.flatMap_cons, List.countP_append, ih, chunk_pushes, List.length_cons, Nat.mul_add, Nat.add_comm]
  rw [aluAddCalls, List.countP_append, List.countP_append, chunks]
  exact Nat.zero_add _

end Additions

end Holding

end AlkaliFw
