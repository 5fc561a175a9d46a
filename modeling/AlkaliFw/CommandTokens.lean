import AlkaliFw.DeviceRun

/-! The tokens of the streams that the runtime gives to the device, wherever it cuts them: pushes and
pops that the commands asked for, and what the pops that still wait will take. -/

namespace AlkaliFw
open InOrderStages

/-- The queue of the tokens between two stages. -/
inductive Link : PipelineStage → PipelineStage → DepQueue → Prop
  | l2g : Link .kLoadStage .kComputeStage .l2g
  | g2l : Link .kComputeStage .kLoadStage .g2l
  | g2s : Link .kComputeStage .kStoreStage .g2s
  | s2g : Link .kStoreStage .kComputeStage .s2g

theorem PendingPops.get_set_ne {p : PendingPops} {s s' : PipelineStage} (other : s ≠ s') (b : Bool) :
    (p.set s b).get s' = p.get s' := by
  cases s <;> cases s' <;> first | rfl | exact absurd rfl other

namespace InsnQueue

/-- The pops that wait, by the queue that they will take from. -/
def owed (q : InsnQueue) : DepQueue → Nat
  | .l2g => q.pendingPopPrev.kComputeStage.toNat
  | .s2g => q.pendingPopNext.kComputeStage.toNat
  | .g2l => q.pendingPopNext.kLoadStage.toNat
  | .g2s => q.pendingPopPrev.kStoreStage.toNat

/-- After the instructions in `ran` and in the buffer, `v` tokens and those for the waiting pops are there. -/
structure Holds (ran : List Insn) (q : InsnQueue) (v : DepQueue → Nat) : Prop where
  tokens : ∀ k, tally 0 ((ran ++ q.dramBuffer.reverse).map (effect tlpp k)) = some (v k + q.owed k)
  noLoads : ∀ insn ∈ q.dramBuffer, getPipelineStage insn ≠ .kLoadStage

section

variable {ran buffer : List Insn} {q : InsnQueue} {v v' : DepQueue → Nat} {insn : Insn} {k : DepQueue}
variable {pp pn : PendingPops} {stage src dst : PipelineStage}

theorem tally_next (t : Nat) :
    tally 0 ((ran ++ (insn :: buffer).reverse).map (effect tlpp k)) = some t ↔
      ∃ t₀, tally 0 ((ran ++ buffer.reverse).map (effect tlpp k)) = some t₀ ∧ depPops insn k ≤ t₀ ∧
        t₀ + depPushes insn k = t + depPops insn k := by
  rw [List.reverse_cons, ← List.append_assoc, List.map_append, tally_append, Option.bind_eq_some_iff]
  refine exists_congr fun t₀ => and_congr_right fun _ => ?_
  change (if depPops insn k ≤ t₀ then some (t₀ - depPops insn k + depPushes insn k) else none) = some t ↔ _
  split
  · rw [Option.some.injEq]
    omega
  · simp only [reduceCtorEq, false_iff]
    omega

/-- One more instruction, which takes what there is. -/
theorem Holds.next (h : Holds ran q v) (stage : getPipelineStage insn ≠ .kLoadStage)
    (pays : ∀ k, depPops insn k ≤ v k + q.owed k ∧
      v k + q.owed k + depPushes insn k = v' k + (⟨[], pp, pn⟩ : InsnQueue).owed k + depPops insn k) :
    Holds ran ⟨insn :: q.dramBuffer, pp, pn⟩ v' where
  tokens k := (tally_next _).mpr ⟨_, h.tokens k, (pays k).1, (pays k).2⟩
  noLoads i mem := by
    obtain rfl | old := List.mem_cons.mp mem
    · exact stage
    · exact h.noLoads i old

/-- The pops that wait are taken by a no-op. -/
theorem Holds.commit (h : Holds ran q v) (stage : PipelineStage) : Holds ran (q.commitPendingPop stage) v := by
  rw [commitPendingPop]
  split
  · refine h.next ?_ fun k => ?_
    · cases stage <;> simp [noopInsn, getPipelineStage]
    · cases stage with
      | kNoneStage => simp [PendingPops.get] at *
      | _ => cases k <;> simp [noopInsn, depPops, depPushes, getCoreType, owed, PendingPops.get, PendingPops.set, pushNoop, nextInsn]
  · exact h

theorem commit_get : (q.commitPendingPop stage).pendingPopPrev.get stage = false ∧
    (q.commitPendingPop stage).pendingPopNext.get stage = false := by
  rw [commitPendingPop]
  split
  · cases stage <;> exact ⟨rfl, rfl⟩
  · rename_i none
    simpa using none

/-- One more pop waits. -/
theorem Holds.pend (h : Holds ran q v) (some : 0 < v k) (free : q.owed k = 0)
    (waits : ∀ k', (⟨[], pp, pn⟩ : InsnQueue).owed k' = if k' = k then 1 else q.owed k') :
    Holds ran ⟨q.dramBuffer, pp, pn⟩ (Function.update v k (v k - 1)) where
  tokens k' := by
    rw [h.tokens k']
    change _ = Option.some (Function.update v k (v k - 1) k' + (⟨[], pp, pn⟩ : InsnQueue).owed k')
    rw [waits, Function.update_apply]
    split
    · subst k'
      rw [free]
      congr 1
      omega
    · rfl
  noLoads := h.noLoads

theorem Holds.depPop (h : Holds ran q v) (link : Link src dst k) (some : 0 < v k) :
    Holds ran (q.depPop src dst) (Function.update v k (v k - 1)) := by
  have ready (b : Bool) : Holds ran (if b then q.commitPendingPop dst else q) v := by
    cases b
    · exact h
    · exact h.commit dst
  have freePrev : (if q.pendingPopPrev.get dst then q.commitPendingPop dst else q).pendingPopPrev.get dst = false := by
    split
    · exact commit_get.1
    · rename_i none
      simpa using none
  have freeNext : (if q.pendingPopNext.get dst then q.commitPendingPop dst else q).pendingPopNext.get dst = false := by
    split
    · exact commit_get.2
    · rename_i none
      simpa using none
  cases link with
  | l2g =>
      refine (ready _).pend some ?_ fun k' => ?_
      · exact congrArg Bool.toNat freePrev
      · cases k' <;> rfl
  | g2s =>
      refine (ready _).pend some ?_ fun k' => ?_
      · exact congrArg Bool.toNat freePrev
      · cases k' <;> rfl
  | g2l =>
      refine (ready _).pend some ?_ fun k' => ?_
      · exact congrArg Bool.toNat freeNext
      · cases k' <;> rfl
  | s2g =>
      refine (ready _).pend some ?_ fun k' => ?_
      · exact congrArg Bool.toNat freeNext
      · cases k' <;> rfl

theorem core_of_compute (stage : getPipelineStage insn = .kComputeStage) : getCoreType insn = .coreGemm := by
  cases operation : insn.operation with
  | load m =>
      simp only [getPipelineStage, operation] at stage
      simp only [getCoreType, operation]
      split at stage
      · cases stage
      · cases memory : m.memoryType <;> simp [getMemPipelineStage, memory] at stage ⊢
  | store m => simp [getPipelineStage, operation] at stage
  | alu | finish => simp only [getCoreType, operation]

theorem core_of_store (stage : getPipelineStage insn = .kStoreStage) : getCoreType insn = .coreStore := by
  cases operation : insn.operation with
  | load m =>
      simp only [getPipelineStage, operation] at stage
      split at stage
      · cases stage
      · cases memory : m.memoryType <;> simp [getMemPipelineStage, memory] at stage
  | store m => simp only [getCoreType, operation]
  | alu | finish => simp [getPipelineStage, operation] at stage

/-- The newest instruction gives one more token. -/
theorem Holds.flag {insn' : Insn} (h : Holds ran ⟨insn :: buffer, pp, pn⟩ v)
    (stage : getPipelineStage insn' = getPipelineStage insn)
    (gives : ∀ k', depPops insn' k' = depPops insn k' ∧
      depPushes insn' k' = depPushes insn k' + if k' = k then 1 else 0) :
    Holds ran ⟨insn' :: buffer, pp, pn⟩ (Function.update v k (v k + 1)) where
  tokens k' := by
    obtain ⟨t₀, before, pays, after⟩ := (tally_next _).mp (h.tokens k')
    refine (tally_next _).mpr ⟨t₀, before, (gives k').1 ▸ pays, ?_⟩
    rw [(gives k').1, (gives k').2, Function.update_apply]
    change _ = _ + (⟨[], pp, pn⟩ : InsnQueue).owed k' + _
    change _ = v k' + (⟨[], pp, pn⟩ : InsnQueue).owed k' + _ at after
    split
    · subst k'
      omega
    · omega
  noLoads i mem := by
    obtain rfl | old := List.mem_cons.mp mem
    · rw [stage]
      exact h.noLoads insn List.mem_cons_self
    · exact h.noLoads i (List.mem_cons_of_mem _ old)

theorem Holds.pushNoop (h : Holds ran q v) (link : Link src dst k) :
    Holds ran (if src.toNat < dst.toNat then q.pushNoop src false true false false
      else q.pushNoop src true false false false) (Function.update v k (v k + 1)) := by
  cases link
  all_goals
    refine h.next (by simp [noopInsn, getPipelineStage]) fun k' => ?_
    cases k' <;> simp [noopInsn, depPops, depPushes, getCoreType, owed, Nat.add_right_comm]

theorem Holds.depPush (h : Holds ran q v) (link : Link src dst k) :
    Holds ran (q.depPush src dst) (Function.update v k (v k + 1)) := by
  have ready := h.commit src
  have noop := ready.pushNoop link
  rw [InsnQueue.depPush]
  generalize q.commitPendingPop src = q at ready noop
  obtain ⟨buffer, pp, pn⟩ := q
  cases buffer with
  | nil => exact noop
  | cons mptr older =>
      dsimp only
      split
      · rename_i stage
        split
        · rename_i free
          refine ready.flag rfl fun k' => ?_
          cases link with
          | l2g => exact absurd stage (ready.noLoads mptr List.mem_cons_self)
          | g2s =>
              have core := core_of_compute stage
              have core' : getCoreType { mptr with pushNextDep := true } = .coreGemm := core
              cases k' <;> simp [depPops, depPushes, core, core', free.2]
          | g2l | s2g => exact absurd free.1 (by decide)
        · split
          · rename_i free
            refine ready.flag rfl fun k' => ?_
            cases link with
            | l2g | g2s => exact absurd free.1 (by decide)
            | g2l =>
                have core := core_of_compute stage
                have core' : getCoreType { mptr with pushPrevDep := true } = .coreGemm := core
                cases k' <;> simp [depPops, depPushes, core, core', free.2]
            | s2g =>
                have core := core_of_store stage
                have core' : getCoreType { mptr with pushPrevDep := true } = .coreStore := core
                cases k' <;> simp [depPops, depPushes, core, core', free.2]
          · exact noop
      · exact noop

/-- An instruction of the compute or of the store stage, with the pops that wait there. -/
theorem Holds.create (h : Holds ran q v) (operation : Operation)
    (core : stage = .kComputeStage ∧ getCoreType { operation } = .coreGemm ∨
      stage = .kStoreStage ∧ getCoreType { operation } = .coreStore)
    (noLoad : getPipelineStage { operation } ≠ .kLoadStage) : Holds ran (q.create stage operation) v := by
  refine h.next noLoad fun k => ?_
  obtain ⟨rfl, core⟩ | ⟨rfl, core⟩ := core
  · have core' : getCoreType
        { operation
          popPrevDep := q.pendingPopPrev.kComputeStage
          popNextDep := q.pendingPopNext.kComputeStage } = .coreGemm := core
    cases k <;> simp [depPops, depPushes, core', owed, PendingPops.get, PendingPops.set, nextInsn]
  · have core' : getCoreType
        { operation
          popPrevDep := q.pendingPopPrev.kStoreStage
          popNextDep := q.pendingPopNext.kStoreStage } = .coreStore := core
    cases k <;> simp [depPops, depPushes, core', owed, PendingPops.get, PendingPops.set, nextInsn]

/-- A stage has no pops that wait. -/
def Free (q : InsnQueue) (stage : PipelineStage) : Prop :=
  q.pendingPopPrev.get stage = false ∧ q.pendingPopNext.get stage = false

theorem free_commit (free : q.Free stage) (other : PipelineStage) : (q.commitPendingPop other).Free stage := by
  by_cases same : other = stage
  · subst same
    exact commit_get
  · rw [commitPendingPop]
    split
    · exact ⟨(PendingPops.get_set_ne same false).trans free.1, (PendingPops.get_set_ne same false).trans free.2⟩
    · exact free

theorem depPush_pending (q : InsnQueue) (src dst : PipelineStage) :
    (q.depPush src dst).pendingPopPrev = (q.commitPendingPop src).pendingPopPrev ∧
      (q.depPush src dst).pendingPopNext = (q.commitPendingPop src).pendingPopNext := by
  rw [InsnQueue.depPush]
  generalize q.commitPendingPop src = q
  split
  · split <;> exact ⟨rfl, rfl⟩
  · split
    · split
      · exact ⟨rfl, rfl⟩
      · split
        · exact ⟨rfl, rfl⟩
        · split <;> exact ⟨rfl, rfl⟩
    · split <;> exact ⟨rfl, rfl⟩

theorem depPush_free (q : InsnQueue) (src dst : PipelineStage) : (q.depPush src dst).Free src := by
  rw [Free, (q.depPush_pending src dst).1, (q.depPush_pending src dst).2]
  exact commit_get

theorem free_depPush (free : q.Free stage) (src dst : PipelineStage) : (q.depPush src dst).Free stage := by
  rw [Free, (q.depPush_pending src dst).1, (q.depPush_pending src dst).2]
  exact free_commit free src

theorem free_depPop (free : q.Free stage) (other : dst ≠ stage) : (q.depPop src dst).Free stage := by
  have committed (b : Bool) : (if b then q.commitPendingPop dst else q).Free stage := by
    cases b
    · exact free
    · exact free_commit free dst
  rw [InsnQueue.depPop]
  split
  · exact ⟨(PendingPops.get_set_ne other true).trans (committed _).1, (committed _).2⟩
  · exact ⟨(committed _).1, (PendingPops.get_set_ne other true).trans (committed _).2⟩

theorem owed_of_free (free : ∀ stage, q.Free stage) (k : DepQueue) : q.owed k = 0 := by
  cases k with
  | l2g => exact congrArg Bool.toNat (free .kComputeStage).1
  | s2g => exact congrArg Bool.toNat (free .kComputeStage).2
  | g2l => exact congrArg Bool.toNat (free .kLoadStage).2
  | g2s => exact congrArg Bool.toNat (free .kStoreStage).1

theorem create_free (q : InsnQueue) (stage : PipelineStage) (operation : Operation) :
    (q.create stage operation).Free stage := by
  cases stage <;> exact ⟨rfl, rfl⟩

theorem free_create (free : q.Free stage) {other : PipelineStage} (differ : other ≠ stage) (operation : Operation) :
    (q.create other operation).Free stage :=
  ⟨(PendingPops.get_set_ne differ false).trans free.1, (PendingPops.get_set_ne differ false).trans free.2⟩

end

end InsnQueue

namespace CommandQueue

variable {q : CommandQueue} {v : DepQueue → Nat} {k : DepQueue} {src dst : PipelineStage}

theorem synchronize_free (q : CommandQueue) (stage : PipelineStage) : q.synchronize.insnQueue.Free stage := by
  have compute := InsnQueue.create_free
    ((((q.insnQueue.depPush .kStoreStage .kComputeStage).depPush .kLoadStage .kComputeStage).depPop .kStoreStage
      .kComputeStage).depPop .kLoadStage .kComputeStage |>.commitPendingPop .kComputeStage) .kComputeStage .finish
  have others (stage : PipelineStage) (other : PipelineStage.kComputeStage ≠ stage)
      (free : ((q.insnQueue.depPush .kStoreStage .kComputeStage).depPush .kLoadStage .kComputeStage).Free stage) :
      q.synchronize.insnQueue.Free stage :=
    InsnQueue.free_create (InsnQueue.free_commit (InsnQueue.free_depPop (InsnQueue.free_depPop free other) other) _)
      other .finish
  cases stage with
  | kNoneStage => exact ⟨rfl, rfl⟩
  | kComputeStage => exact compute
  | kStoreStage => exact others _ (by decide) (InsnQueue.free_depPush (InsnQueue.depPush_free _ _ _) _ _)
  | kLoadStage => exact others _ (by decide) (InsnQueue.depPush_free _ _ _)

/-- The tokens of all streams and of the buffer. -/
def Ready (q : CommandQueue) (v : DepQueue → Nat) : Prop := q.insnQueue.Holds q.runs.flatten v

theorem Ready.tokens (h : q.Ready v) (k : DepQueue) :
    tally 0 ((q.runs.flatten ++ q.insnQueue.dramBuffer.reverse).map (effect tlpp k)) =
      some (v k + q.insnQueue.owed k) := InsnQueue.Holds.tokens h k

theorem Ready.of_eq (h : q.Ready v) (v' : DepQueue → Nat) (same : ∀ k, v k = v' k) : q.Ready v' := funext same ▸ h

theorem Ready.depPush (h : q.Ready v) (link : Link src dst k) :
    (q.depPush src dst).Ready (Function.update v k (v k + 1)) := InsnQueue.Holds.depPush h link

theorem Ready.depPop (h : q.Ready v) (link : Link src dst k) (some : 0 < v k) :
    (q.depPop src dst).Ready (Function.update v k (v k - 1)) := InsnQueue.Holds.depPop h link some

theorem Ready.synchronize (h : q.Ready v) : q.synchronize.Ready v := by
  have pushed := (InsnQueue.Holds.depPush h .s2g).depPush .l2g
  have popped := (pushed.depPop .s2g (by simp)).depPop .l2g (by simp)
  have finished := (popped.commit .kComputeStage).create .finish (Or.inl ⟨rfl, rfl⟩) (by decide)
  refine ⟨fun k => ?_, by simp [CommandQueue.synchronize]⟩
  have tokens := finished.tokens k
  have same : (CommandQueue.synchronize q).runs.flatten ++ (CommandQueue.synchronize q).insnQueue.dramBuffer.reverse =
      q.runs.flatten ++ ((((((q.insnQueue.depPush .kStoreStage .kComputeStage).depPush .kLoadStage .kComputeStage).depPop
        .kStoreStage .kComputeStage).depPop .kLoadStage .kComputeStage).commitPendingPop .kComputeStage).create
          .kComputeStage .finish).dramBuffer.reverse := by
    simp [CommandQueue.synchronize]
  rw [same, tokens]
  congr 1
  refine congrArg₂ _ ?_ ?_
  · cases k <;> simp
  · cases k <;> rfl

theorem Ready.checkInsnOverFlow (h : q.Ready v) : q.checkInsnOverFlow.Ready v := by
  rw [CommandQueue.checkInsnOverFlow]
  split
  · exact h.synchronize
  · exact h

theorem Ready.load (h : q.Ready v) {m : MemInsn} (acc : m.memoryType = .acc) : (q.loadBuffer2D m).Ready v := by
  refine Ready.checkInsnOverFlow ?_
  rw [acc]
  refine InsnQueue.Holds.create h _ (Or.inl ⟨rfl, ?_⟩) ?_
  · simp [getCoreType, acc]
  · simp only [getPipelineStage, acc]
    split <;> decide

theorem Ready.store (h : q.Ready v) (m : MemInsn) : (q.storeBuffer2D m).Ready v :=
  Ready.checkInsnOverFlow (InsnQueue.Holds.create h _ (Or.inr ⟨rfl, rfl⟩) (by simp [getPipelineStage]))

theorem Ready.pushALUUop (h : q.Ready v) (kernel : UopKernel) : (q.pushALUUop kernel).Ready v := by
  refine Ready.checkInsnOverFlow ?_
  have loaded : InsnQueue.Holds q.runs.flatten
      (q.insnQueue.create .kComputeStage (.load (q.uopQueue.push 1).1.uopLoad)) v := by
    refine InsnQueue.Holds.create h _ (Or.inl ⟨rfl, rfl⟩) ?_
    simp only [getPipelineStage]
    split
    · decide
    · simp [UopQueue.uopLoad, getMemPipelineStage]
  rw [pushKernel]
  dsimp only
  split
  · exact InsnQueue.Holds.create loaded _ (Or.inl ⟨rfl, rfl⟩) (by simp [getPipelineStage])
  · exact InsnQueue.Holds.create h _ (Or.inl ⟨rfl, rfl⟩) (by simp [getPipelineStage])

theorem Ready.kernels (h : q.Ready v) (kernels : List UopKernel) : (kernels.foldl CommandQueue.pushALUUop q).Ready v := by
  induction kernels generalizing q with
  | nil => exact h
  | cons kernel kernels ih => exact ih (h.pushALUUop kernel)

end CommandQueue

section Emitted

variable {q : CommandQueue} {oq : QuantizationData}

/-- A chunk takes the tokens that the one before it leaves, and leaves them again. -/
theorem AluChunk.ready (c : AluChunk) (h : q.Ready between) : (c.commands oq q).Ready between := by
  have first := h.depPop .g2l (by decide)
  have inputs := ((first.load (m := c.load1) rfl).load (m := c.load2) rfl).depPush .l2g
  have loaded := (inputs.depPop .s2g (by decide)).depPop .l2g (by decide)
  have computed := ((loaded.kernels (c.kernels oq)).depPush .g2s).depPop .g2s (by decide)
  have stored := ((computed.store c.storeInsn).depPush .s2g).depPush .g2l
  have balanced := stored.of_eq between fun k => by cases k <;> rfl
  simp only [AluChunk.commands, AluChunk.storeCommands, AluChunk.loadCommands]
  exact balanced

theorem chunks_ready (cs : List AluChunk) (h : q.Ready between) :
    (cs.foldl (fun q c => c.commands oq q) q).Ready between := by
  induction cs generalizing q with
  | nil => exact h
  | cons c cs ih =>
      rw [List.foldl_cons]
      exact ih (c.ready h)

theorem aluAddCommands_balanced (cs : List AluChunk) : Balanced tlpp (aluAddCommands oq cs).runs.flatten := by
  have empty : CommandQueue.Ready {} fun _ => 0 := ⟨fun k => by cases k <;> rfl, by simp⟩
  have pushed := ((empty.depPush .g2l).depPush .s2g).of_eq between fun k => by cases k <;> rfl
  have chunks : (cs.foldl (fun q c => c.commands oq q) ((({} : CommandQueue).depPush .kComputeStage .kLoadStage).depPush
      .kStoreStage .kComputeStage)).Ready between := chunks_ready cs pushed
  have emitted := (chunks.depPop .g2l (by decide)).depPop .s2g (by decide)
  have synced := emitted.synchronize.of_eq (fun _ => 0) fun k => by cases k <;> rfl
  intro k
  have tokens := synced.tokens k
  rw [InsnQueue.owed_of_free (CommandQueue.synchronize_free _) k] at tokens
  simpa [aluAddCommands, CommandQueue.synchronize] using tokens

end Emitted

end AlkaliFw
