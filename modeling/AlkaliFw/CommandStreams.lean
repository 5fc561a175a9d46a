import AlkaliFw.CommandTokens

/-! The operations in the streams of `aluAdd`, and the lengths at which the runtime cuts the streams. -/

namespace AlkaliFw
open InOrderStages

/-- No-ops, and `FINISH`. -/
def Operation.Idle : Operation → Prop
  | .load m => m.xSize = 0
  | .store m => m.xSize = 0
  | .alu .. => False
  | .finish => True

theorem Operation.Idle.inBounds {operation : Operation} (idle : operation.Idle) : operation.InBounds := by
  cases operation with
  | load m => exact Or.inl idle
  | store | finish => trivial
  | alu => cases idle

theorem noopInsn_idle (stage : PipelineStage) (pushPrev pushNext popPrev popNext : Bool) :
    (noopInsn stage pushPrev pushNext popPrev popNext).operation.Idle := by
  cases stage <;> exact rfl

/-- More operations behind those that were there, all of one kind. -/
def Appends (P : Operation → Prop) (l l' : List Operation) : Prop := ∃ more, l' = l ++ more ∧ ∀ o ∈ more, P o

namespace Appends

variable {P Q : Operation → Prop} {l l' l'' : List Operation}

theorem refl (P : Operation → Prop) (l : List Operation) : Appends P l l := ⟨[], (List.append_nil l).symm, by simp⟩

theorem trans (first : Appends P l l') (second : Appends P l' l'') : Appends P l l'' := by
  obtain ⟨more, rfl, all⟩ := first
  obtain ⟨more', rfl, all'⟩ := second
  exact ⟨more ++ more', List.append_assoc .., fun o mem => (List.mem_append.mp mem).elim (all o) (all' o)⟩

theorem mono (appends : Appends P l l') (weaker : ∀ o, P o → Q o) : Appends Q l l' := by
  obtain ⟨more, rfl, all⟩ := appends
  exact ⟨more, rfl, fun o mem => weaker o (all o mem)⟩

theorem one {o : Operation} (held : P o) (l : List Operation) : Appends P l (l ++ [o]) :=
  ⟨[o], rfl, fun _ mem => List.mem_singleton.mp mem ▸ held⟩

theorem mem (appends : Appends P l l') {o : Operation} (old : o ∈ l) : o ∈ l' := by
  obtain ⟨more, rfl, -⟩ := appends
  exact List.mem_append_left _ old

end Appends

namespace InsnQueue

def operations (q : InsnQueue) : List Operation := q.dramBuffer.reverse.map Insn.operation

variable {q : InsnQueue}

theorem operations_cons (insn : Insn) (l : List Insn) (pp pn : PendingPops) :
    (⟨insn :: l, pp, pn⟩ : InsnQueue).operations = l.reverse.map Insn.operation ++ [insn.operation] := by
  rw [operations, List.reverse_cons, List.map_append]
  rfl

theorem create_operations (q : InsnQueue) (stage : PipelineStage) (operation : Operation) :
    (q.create stage operation).operations = q.operations ++ [operation] := operations_cons _ _ _ _

theorem pushNoop_idles (q : InsnQueue) (stage : PipelineStage) (pushPrev pushNext popPrev popNext : Bool) :
    Appends Operation.Idle q.operations (q.pushNoop stage pushPrev pushNext popPrev popNext).operations := by
  rw [pushNoop, nextInsn, operations_cons]
  exact .one (noopInsn_idle ..) _

theorem commitPendingPop_idles (q : InsnQueue) (stage : PipelineStage) :
    Appends Operation.Idle q.operations (q.commitPendingPop stage).operations := by
  rw [commitPendingPop]
  split
  · exact q.pushNoop_idles ..
  · exact .refl _ _

theorem depPop_idles (q : InsnQueue) (src dst : PipelineStage) :
    Appends Operation.Idle q.operations (q.depPop src dst).operations := by
  have ready (b : Bool) : Appends Operation.Idle q.operations (if b then q.commitPendingPop dst else q).operations := by
    cases b
    · exact .refl _ _
    · exact q.commitPendingPop_idles dst
  rw [depPop]
  split <;> exact ready _

/-- A push that goes to the newest instruction leaves its operation. -/
theorem depPush_idles (q : InsnQueue) (src dst : PipelineStage) :
    Appends Operation.Idle q.operations (q.depPush src dst).operations := by
  refine (q.commitPendingPop_idles src).trans ?_
  rw [depPush]
  generalize q.commitPendingPop src = q
  have noop : Appends Operation.Idle q.operations (if src.toNat < dst.toNat then q.pushNoop src false true false false
      else q.pushNoop src true false false false).operations := by
    split <;> exact q.pushNoop_idles ..
  obtain ⟨buffer, pp, pn⟩ := q
  cases buffer with
  | nil => exact noop
  | cons mptr older =>
      dsimp only
      split
      · split
        · rw [operations_cons, operations_cons]
          exact .refl _ _
        · split
          · rw [operations_cons, operations_cons]
            exact .refl _ _
          · exact noop
      · exact noop

end InsnQueue

namespace CommandQueue

/-- All operations, also those of the streams that were given to the device. -/
def operations (q : CommandQueue) : List Operation := q.runs.flatten.map Insn.operation ++ q.insnQueue.operations

/-- More operations, all of one kind. -/
def Adds (P : Operation → Prop) (q q' : CommandQueue) : Prop := Appends P q.operations q'.operations

section

variable {P : Operation → Prop} {q q' q'' : CommandQueue}

theorem Adds.trans (first : Adds P q q') (second : Adds P q' q'') : Adds P q q'' := Appends.trans first second

theorem Adds.of_queue (same : q'.runs = q.runs) (added : Appends P q.insnQueue.operations q'.insnQueue.operations) :
    Adds P q q' := by
  obtain ⟨more, eq, all⟩ := added
  exact ⟨more, by rw [operations, operations, same, eq, List.append_assoc], all⟩

theorem mem_operations {insn : Insn} (mem : insn ∈ q.runs.flatten) : insn.operation ∈ q.operations :=
  List.mem_append_left _ (List.mem_map_of_mem mem)

theorem issue_adds (q : CommandQueue) (stage : PipelineStage) {operation : Operation} (held : P operation) :
    Adds P q (q.issue stage operation) := by
  refine .of_queue rfl ?_
  change Appends P _ (q.insnQueue.create stage operation).operations
  rw [InsnQueue.create_operations]
  exact .one held _

variable (idle : ∀ o : Operation, o.Idle → P o)

include idle

theorem depPush_adds (q : CommandQueue) (src dst : PipelineStage) : Adds P q (q.depPush src dst) :=
  .of_queue rfl ((q.insnQueue.depPush_idles src dst).mono idle)

theorem depPop_adds (q : CommandQueue) (src dst : PipelineStage) : Adds P q (q.depPop src dst) :=
  .of_queue rfl ((q.insnQueue.depPop_idles src dst).mono idle)

theorem synchronize_adds (q : CommandQueue) : Adds P q q.synchronize := by
  have pushed := (q.insnQueue.depPush_idles .kStoreStage .kComputeStage).trans (InsnQueue.depPush_idles _ .kLoadStage
    .kComputeStage)
  have popped := (pushed.trans (InsnQueue.depPop_idles _ .kStoreStage .kComputeStage)).trans
    (InsnQueue.depPop_idles _ .kLoadStage .kComputeStage)
  have committed := popped.trans (InsnQueue.commitPendingPop_idles _ .kComputeStage)
  obtain ⟨more, eq, all⟩ := committed.trans (.one (o := .finish) trivial _)
  rw [← InsnQueue.create_operations _ .kComputeStage] at eq
  refine ⟨more, ?_, fun o mem => idle o (all o mem)⟩
  have stream : q.synchronize.operations = q.runs.flatten.map Insn.operation ++
      (((((q.insnQueue.depPush .kStoreStage .kComputeStage).depPush .kLoadStage .kComputeStage).depPop .kStoreStage
        .kComputeStage).depPop .kLoadStage .kComputeStage).commitPendingPop .kComputeStage |>.create .kComputeStage
          .finish).operations := by
    simp [operations, synchronize, InsnQueue.operations]
  rw [stream, eq, operations, List.append_assoc]

theorem check_adds (q : CommandQueue) : Adds P q q.checkInsnOverFlow := by
  rw [checkInsnOverFlow]
  split
  · exact synchronize_adds idle q
  · exact .refl _ _

theorem load_adds (q : CommandQueue) {m : MemInsn} (held : P (.load m)) : Adds P q (q.loadBuffer2D m) :=
  (q.issue_adds _ held).trans (check_adds idle _)

theorem store_adds (q : CommandQueue) {m : MemInsn} (held : P (.store m)) : Adds P q (q.storeBuffer2D m) :=
  (q.issue_adds _ held).trans (check_adds idle _)

end

end CommandQueue

namespace UopQueue

/-- All pushed micro-ops were loaded, and are inside of the buffer. -/
def Loaded (u : UopQueue) : Prop := u.Flushed ∧ u.sramEnd ≤ vtaUopBuffDepth

variable {u : UopQueue}

theorem next_loaded (u : UopQueue) : u.next.Loaded := by
  refine ⟨rfl, ?_⟩
  change (u.push 1).1.sramEnd ≤ _
  rw [push]
  split
  · decide
  · dsimp only
    omega

theorem load_inBounds (loaded : u.Loaded) : u.load.InBounds := by
  have begins : (u.push 1).1.sramBegin + ((u.push 1).1.sramEnd - (u.push 1).1.sramBegin) ≤ vtaUopBuffDepth := by
    have flushed : u.sramBegin = u.sramEnd := loaded.1
    rw [push]
    split
    · decide
    · dsimp only
      omega
  refine Or.inr ?_
  simpa [uopLoad, MemInsn.sramEnd] using begins

theorem alu_uopEnd (loaded : u.Loaded) : (u.push 1).2 + 1 ≤ vtaUopBuffDepth := by
  have bound := loaded.2
  rw [push]
  split
  · decide
  · dsimp only
    omega

end UopQueue

namespace CommandQueue

/-- What each push of a kernel finds. -/
structure Uops (P : Operation → Prop) (kernel : UopKernel) : Prop where
  load : ∀ u : UopQueue, u.Loaded → P u.load
  alu : ∀ u : UopQueue, u.Loaded → P (u.alu kernel)

section

variable {P : Operation → Prop} {q : CommandQueue} (idle : ∀ o : Operation, o.Idle → P o)

theorem check_loaded (loaded : q.uopQueue.Loaded) : q.checkInsnOverFlow.uopQueue.Loaded := by
  rw [checkInsnOverFlow]
  split
  · exact ⟨rfl, Nat.zero_le _⟩
  · exact loaded

theorem loadBuffer2D_loaded (loaded : q.uopQueue.Loaded) (m : MemInsn) : (q.loadBuffer2D m).uopQueue.Loaded :=
  check_loaded loaded

theorem storeBuffer2D_loaded (loaded : q.uopQueue.Loaded) (m : MemInsn) : (q.storeBuffer2D m).uopQueue.Loaded :=
  check_loaded loaded

theorem pushALUUop_loaded (loaded : q.uopQueue.Loaded) (kernel : UopKernel) : (q.pushALUUop kernel).uopQueue.Loaded := by
  rw [pushALUUop, pushKernel_eq loaded.1]
  exact check_loaded (UopQueue.next_loaded _)

theorem kernels_loaded (loaded : q.uopQueue.Loaded) (kernels : List UopKernel) :
    (kernels.foldl pushALUUop q).uopQueue.Loaded := by
  induction kernels generalizing q with
  | nil => exact loaded
  | cons kernel kernels ih => exact ih (pushALUUop_loaded loaded kernel)

include idle

theorem kernel_adds (loaded : q.uopQueue.Loaded) {kernel : UopKernel} (held : Uops P kernel) :
    Adds P q (q.pushALUUop kernel) := by
  have uop := q.issue_adds .kComputeStage (held.load _ loaded)
  have alu := (q.issue .kComputeStage q.uopQueue.load).issue_adds .kComputeStage (held.alu _ loaded)
  have both : Adds P q (q.pushKernel kernel) := by
    rw [pushKernel_eq loaded.1]
    exact uop.trans alu
  exact both.trans (check_adds idle _)

theorem kernels_add (loaded : q.uopQueue.Loaded) {kernels : List UopKernel} (held : ∀ kernel ∈ kernels, Uops P kernel) :
    Adds P q (kernels.foldl pushALUUop q) := by
  induction kernels generalizing q with
  | nil => exact .refl _ _
  | cons kernel kernels ih =>
      rw [List.foldl_cons]
      have first := kernel_adds idle loaded (held kernel List.mem_cons_self)
      exact first.trans (ih (pushALUUop_loaded loaded kernel) fun k mem => held k (List.mem_cons_of_mem _ mem))

end

end CommandQueue

/-- What is added for a chunk. -/
structure AluChunk.Kept (P : Operation → Prop) (oq : QuantizationData) (c : AluChunk) : Prop where
  load1 : P (.load c.load1)
  load2 : P (.load c.load2)
  kernels : ∀ kernel ∈ c.kernels oq, CommandQueue.Uops P kernel
  store : P (.store c.storeInsn)

section Chunks

variable {P : Operation → Prop} {q : CommandQueue} {oq : QuantizationData} {c : AluChunk}

theorem loadCommands_loaded (loaded : q.uopQueue.Loaded) : (c.loadCommands q).uopQueue.Loaded := by
  simp only [AluChunk.loadCommands, CommandQueue.depPush_uopQueue, CommandQueue.depPop_uopQueue]
  apply CommandQueue.loadBuffer2D_loaded
  apply CommandQueue.loadBuffer2D_loaded
  exact loaded

theorem commands_loaded (loaded : q.uopQueue.Loaded) : (c.commands oq q).uopQueue.Loaded := by
  simp only [AluChunk.commands, AluChunk.storeCommands, CommandQueue.depPush_uopQueue]
  apply CommandQueue.storeBuffer2D_loaded
  simp only [CommandQueue.depPush_uopQueue, CommandQueue.depPop_uopQueue]
  exact CommandQueue.kernels_loaded (loadCommands_loaded loaded) _

variable (idle : ∀ o : Operation, o.Idle → P o)

include idle

theorem AluChunk.loadCommands_add (kept : c.Kept P oq) (q : CommandQueue) : CommandQueue.Adds P q (c.loadCommands q) := by
  have first := CommandQueue.depPop_adds idle q .kComputeStage .kLoadStage
  have inputs := (first.trans (CommandQueue.load_adds idle _ kept.load1)).trans (CommandQueue.load_adds idle _ kept.load2)
  have pushed := inputs.trans (CommandQueue.depPush_adds idle _ .kLoadStage .kComputeStage)
  have popped := (pushed.trans (CommandQueue.depPop_adds idle _ .kStoreStage .kComputeStage)).trans
    (CommandQueue.depPop_adds idle _ .kLoadStage .kComputeStage)
  simp only [AluChunk.loadCommands]
  exact popped

theorem AluChunk.storeCommands_add (kept : c.Kept P oq) (q : CommandQueue) :
    CommandQueue.Adds P q (c.storeCommands q) := by
  have before := (CommandQueue.depPush_adds idle q .kComputeStage .kStoreStage).trans
    (CommandQueue.depPop_adds idle _ .kComputeStage .kStoreStage)
  have stored := before.trans (CommandQueue.store_adds idle _ kept.store)
  have pushed := (stored.trans (CommandQueue.depPush_adds idle _ .kStoreStage .kComputeStage)).trans
    (CommandQueue.depPush_adds idle _ .kComputeStage .kLoadStage)
  simp only [AluChunk.storeCommands]
  exact pushed

theorem AluChunk.commands_add (kept : c.Kept P oq) (loaded : q.uopQueue.Loaded) :
    CommandQueue.Adds P q (c.commands oq q) := by
  have loads := c.loadCommands_add idle kept q
  have computed := loads.trans (CommandQueue.kernels_add idle (loadCommands_loaded loaded) kept.kernels)
  have stored := computed.trans (c.storeCommands_add idle kept _)
  rw [AluChunk.commands]
  exact stored

theorem chunks_add {cs : List AluChunk} (kept : ∀ c ∈ cs, c.Kept P oq) (loaded : q.uopQueue.Loaded) :
    CommandQueue.Adds P q (cs.foldl (fun q c => c.commands oq q) q) := by
  induction cs generalizing q with
  | nil => exact .refl _ _
  | cons c cs ih =>
      rw [List.foldl_cons]
      have first := AluChunk.commands_add idle (kept c List.mem_cons_self) loaded
      exact first.trans (ih (fun c mem => kept c (List.mem_cons_of_mem _ mem)) (commands_loaded loaded))

/-- Everything in the streams is idle or of a chunk. -/
theorem aluAddCommands_all {cs : List AluChunk} (kept : ∀ c ∈ cs, c.Kept P oq) :
    ∀ insn ∈ (aluAddCommands oq cs).runs.flatten, P insn.operation := by
  have pushed := (CommandQueue.depPush_adds idle {} .kComputeStage .kLoadStage).trans
    (CommandQueue.depPush_adds idle _ .kStoreStage .kComputeStage)
  have chunks := pushed.trans (chunks_add idle kept ⟨rfl, Nat.zero_le _⟩)
  have popped := (chunks.trans (CommandQueue.depPop_adds idle _ .kComputeStage .kLoadStage)).trans
    (CommandQueue.depPop_adds idle _ .kStoreStage .kComputeStage)
  obtain ⟨more, eq, all⟩ := popped.trans (CommandQueue.synchronize_adds idle _)
  intro insn mem
  simp only [aluAddCommands] at mem
  refine all _ ?_
  have here := CommandQueue.mem_operations mem
  rw [eq] at here
  exact here

end Chunks

section Loads

variable {q : CommandQueue} {oq : QuantizationData} {c : AluChunk}

theorem CommandQueue.load_mem (q : CommandQueue) (m : MemInsn) : .load m ∈ (q.loadBuffer2D m).operations := by
  have issued : .load m ∈ (q.issue (getMemPipelineStage m.memoryType) (.load m)).operations := by
    refine List.mem_append_right _ ?_
    change _ ∈ (q.insnQueue.create _ _).operations
    rw [InsnQueue.create_operations]
    exact List.mem_append_right _ (List.mem_singleton_self _)
  exact (CommandQueue.check_adds (fun o (_ : o.Idle) => trivial) _).mem issued

theorem AluChunk.kept_true (oq : QuantizationData) (c : AluChunk) : c.Kept (fun _ => True) oq where
  load1 := trivial
  load2 := trivial
  kernels _ _ := ⟨fun _ _ => trivial, fun _ _ => trivial⟩
  store := trivial

theorem AluChunk.load2_mem (oq : QuantizationData) (c : AluChunk) (loaded : q.uopQueue.Loaded) :
    .load c.load2 ∈ (c.commands oq q).operations := by
  have idle (o : Operation) (_ : o.Idle) : True := trivial
  have issued := CommandQueue.load_mem ((q.depPop .kComputeStage .kLoadStage).loadBuffer2D c.load1) c.load2
  have pushed := (CommandQueue.depPush_adds idle _ .kLoadStage .kComputeStage).mem issued
  have popped := (CommandQueue.depPop_adds idle _ .kLoadStage .kComputeStage).mem
    ((CommandQueue.depPop_adds idle _ .kStoreStage .kComputeStage).mem pushed)
  have loads : .load c.load2 ∈ (c.loadCommands q).operations := by
    simp only [AluChunk.loadCommands]
    exact popped
  have computed := (CommandQueue.kernels_add idle (loadCommands_loaded loaded) (c.kept_true oq).kernels).mem loads
  have stored := (c.storeCommands_add idle (c.kept_true oq) _).mem computed
  rw [AluChunk.commands]
  exact stored

theorem chunks_loaded (oq : QuantizationData) (cs : List AluChunk) (loaded : q.uopQueue.Loaded) :
    (cs.foldl (fun q c => c.commands oq q) q).uopQueue.Loaded := by
  induction cs generalizing q with
  | nil => exact loaded
  | cons c cs ih =>
      rw [List.foldl_cons]
      exact ih (commands_loaded loaded)

theorem CommandQueue.synchronize_operations (q : CommandQueue) :
    q.synchronize.operations = q.synchronize.runs.flatten.map Insn.operation := by
  rw [operations]
  exact List.append_nil _

/-- Every chunk loads its second input. -/
theorem aluAddCommands_load2 {cs : List AluChunk} (mem : c ∈ cs) :
    ∃ insn ∈ (aluAddCommands oq cs).runs.flatten, insn.operation = .load c.load2 := by
  have idle (o : Operation) (_ : o.Idle) : True := trivial
  obtain ⟨front, back, rfl⟩ := List.append_of_mem mem
  let start := (({} : CommandQueue).depPush .kComputeStage .kLoadStage).depPush .kStoreStage .kComputeStage
  have loaded := chunks_loaded oq front (q := start) ⟨rfl, Nat.zero_le _⟩
  have here := c.load2_mem oq loaded
  have after : (c.commands oq _).uopQueue.Loaded := commands_loaded loaded
  have rest := chunks_add idle (fun c (_ : c ∈ back) => c.kept_true oq) after
  have later := rest.mem here
  have popped := (CommandQueue.depPop_adds idle _ .kStoreStage .kComputeStage).mem
    ((CommandQueue.depPop_adds idle _ .kComputeStage .kLoadStage).mem later)
  have synced := (CommandQueue.synchronize_adds idle _).mem popped
  rw [CommandQueue.synchronize_operations, List.mem_map] at synced
  obtain ⟨insn, ran, same⟩ := synced
  refine ⟨insn, ?_, same⟩
  simp only [aluAddCommands, List.foldl_append, List.foldl_cons]
  exact ran

end Loads

theorem UopQueue.empty_flushed : UopQueue.Flushed {} := rfl

/-- Between two commands that leave no pops to wait for. -/
def resting (u : UopQueue) (l : List Insn) (runs : List (List Insn)) (checked : Bool) : CommandQueue :=
  ⟨u, ⟨l, {}, {}⟩, runs, checked⟩

namespace CommandQueue

variable {q : CommandQueue}

/-- The number of instructions in the buffer. -/
def count (q : CommandQueue) : Nat := q.insnQueue.dramBuffer.length

theorem check_room (room : q.count + 6 ≤ 2 ^ 21) : q.checkInsnOverFlow = q := by
  have limit : vtaMaxXfer = 2 ^ 21 * 16 := rfl
  change q.insnQueue.dramBuffer.length + 6 ≤ 2 ^ 21 at room
  rw [checkInsnOverFlow, limit, if_neg (by omega)]

theorem check_full (full : 2 ^ 21 < q.count + 6) : q.checkInsnOverFlow = q.synchronize := by
  have limit : vtaMaxXfer = 2 ^ 21 * 16 := rfl
  change 2 ^ 21 < q.insnQueue.dramBuffer.length + 6 at full
  rw [checkInsnOverFlow, limit, if_pos (by omega)]

theorem load_room (m : MemInsn) (room : q.count + 7 ≤ 2 ^ 21) :
    q.loadBuffer2D m = q.issue (getMemPipelineStage m.memoryType) (.load m) := check_room room

theorem store_room (m : MemInsn) (room : q.count + 7 ≤ 2 ^ 21) :
    q.storeBuffer2D m = q.issue .kStoreStage (.store m) := check_room room

theorem kernel_room (flushed : q.uopQueue.Flushed) (kernel : UopKernel) (room : q.count + 8 ≤ 2 ^ 21) :
    q.pushALUUop kernel = q.issueKernel kernel := by
  rw [pushALUUop, pushKernel_eq flushed]
  exact check_room room

theorem kernels_room (flushed : q.uopQueue.Flushed) (kernels : List UopKernel)
    (room : q.count + 2 * kernels.length + 6 ≤ 2 ^ 21) : kernels.foldl pushALUUop q = kernels.foldl issueKernel q := by
  induction kernels generalizing q with
  | nil => rfl
  | cons kernel kernels ih =>
      rw [List.length_cons] at room
      rw [List.foldl_cons, List.foldl_cons, kernel_room flushed kernel (by omega)]
      refine ih (q := q.issueKernel kernel) rfl ?_
      change q.count + 2 + 2 * kernels.length + 6 ≤ _
      omega

end CommandQueue

section Lengths

variable {u : UopQueue} {l : List Insn} {runs : List (List Insn)} {checked : Bool} {c : AluChunk} {oq : QuantizationData}

theorem loadCommands_room (room : l.length + 8 ≤ 2 ^ 21) :
    c.loadCommands (resting u l runs checked) =
      ⟨u, ⟨noopInsn .kLoadStage false true false false :: noopInsn .kLoadStage false false false true ::
          { operation := .load c.load2 } :: { operation := .load c.load1 } :: l,
        { kComputeStage := true }, { kComputeStage := true }⟩, runs, checked⟩ := by
  have first : ((resting u l runs checked).depPop .kComputeStage .kLoadStage).loadBuffer2D c.load1 =
      ((resting u l runs checked).depPop .kComputeStage .kLoadStage).issue .kComputeStage (.load c.load1) :=
    CommandQueue.load_room _ (show l.length + 7 ≤ _ by omega)
  have second : (((resting u l runs checked).depPop .kComputeStage .kLoadStage).issue .kComputeStage
      (.load c.load1)).loadBuffer2D c.load2 = _ := CommandQueue.load_room _ (show l.length + 1 + 7 ≤ _ by omega)
  simp only [AluChunk.loadCommands, first, second]
  rfl

/-- The commands that store the result, after an ALU instruction. -/
theorem storeCommands_room (v : UopQueue) (kernel : UopKernel) (room : l.length + 8 ≤ 2 ^ 21) :
    c.storeCommands (resting u ({ operation := v.alu kernel } :: l) runs checked) =
      resting u (noopInsn .kComputeStage true false false false ::
        { operation := .store c.storeInsn, popPrevDep := true, pushPrevDep := true } ::
        { operation := v.alu kernel, pushNextDep := true } :: l) runs checked := by
  have store : (((resting u ({ operation := v.alu kernel } :: l) runs checked).depPush .kComputeStage
      .kStoreStage).depPop .kComputeStage .kStoreStage).storeBuffer2D c.storeInsn = _ :=
    CommandQueue.store_room _ (show l.length + 1 + 7 ≤ _ by omega)
  simp only [AluChunk.storeCommands, store]
  exact store_eq v kernel

/-- A chunk for which there is room. -/
theorem commands_room (flushed : u.Flushed) (room : l.length + 23 ≤ 2 ^ 21) :
    c.commands oq (resting u l runs checked) = resting u.afterChunk ((c.stream oq u).reverse ++ l) runs checked := by
  rw [AluChunk.commands, loadCommands_room (by omega), CommandQueue.kernels_room flushed, AluChunk.kernels]
  · simp only [List.foldl_cons, List.foldl_nil, kernel_first, kernel_idle]
    exact storeCommands_room _ _ (by simp only [List.length_cons]; omega)
  · change l.length + 4 + 2 * 6 + 6 ≤ _
    omega

/-- A push that does not go to the newest instruction, as that is of another stage. -/
theorem depPush_other {insn : Insn} {pp pn : PendingPops} {src : PipelineStage} (dst : PipelineStage)
    (other : getPipelineStage insn ≠ src) (prev : pp.get src = false) (next : pn.get src = false) :
    (⟨insn :: l, pp, pn⟩ : InsnQueue).depPush src dst =
      if src.toNat < dst.toNat then (⟨insn :: l, pp, pn⟩ : InsnQueue).pushNoop src false true false false
      else (⟨insn :: l, pp, pn⟩ : InsnQueue).pushNoop src true false false false := by
  have ready : (⟨insn :: l, pp, pn⟩ : InsnQueue).commitPendingPop src = ⟨insn :: l, pp, pn⟩ := by
    rw [InsnQueue.commitPendingPop]
    exact if_neg (by simp [prev, next])
  rw [InsnQueue.depPush, ready]
  exact if_neg other

theorem acc_stage {m : MemInsn} (acc : m.memoryType = .acc) :
    getPipelineStage { operation := .load m } ≠ .kStoreStage ∧ getPipelineStage { operation := .load m } ≠ .kLoadStage := by
  simp only [getPipelineStage, getMemPipelineStage, acc]
  split <;> exact ⟨by decide, by decide⟩

/-- A synchronization, with a pop of the load stage that waits or without one. -/
theorem synchronize_resting {insn : Insn} (other : getPipelineStage insn ≠ .kStoreStage) (waits : Bool) :
    ∃ runs', CommandQueue.synchronize ⟨u, ⟨insn :: l, {}, { kLoadStage := waits }⟩, runs, checked⟩ =
      resting {} [] runs' (checked && decide ((l.length + 5 + waits.toNat) * 16 ≤ vtaMaxXfer)) := by
  rw [CommandQueue.synchronize]
  dsimp only
  rw [depPush_other .kComputeStage other rfl rfl]
  cases waits with
  | false => exact ⟨_, congrArg (resting {} [] _) (by rw [Bool.and_assoc]; rfl)⟩
  | true => exact ⟨_, congrArg (resting {} [] _) (by rw [Bool.and_assoc]; rfl)⟩

/-- Where the first load was given away, the second one is alone in the buffer. -/
theorem second_load (c : AluChunk) :
    ((((resting {} [] runs checked).loadBuffer2D c.load2).depPush .kLoadStage .kComputeStage).depPop .kStoreStage
      .kComputeStage).depPop .kLoadStage .kComputeStage =
      ⟨{}, ⟨[noopInsn .kLoadStage false true false false, { operation := .load c.load2 }],
        { kComputeStage := true }, { kComputeStage := true }⟩, runs, checked⟩ := by
  have issued : (resting {} [] runs checked).loadBuffer2D c.load2 =
      resting {} [{ operation := .load c.load2 }] runs checked :=
    CommandQueue.load_room _ (show 0 + 7 ≤ _ by decide)
  have pushed : (resting {} [{ operation := .load c.load2 }] runs checked).depPush .kLoadStage .kComputeStage =
      resting {} [noopInsn .kLoadStage false true false false, { operation := .load c.load2 }] runs checked := by
    rw [CommandQueue.depPush, resting, depPush_other .kComputeStage (acc_stage rfl).2 rfl rfl]
    rfl
  rw [issued, pushed]
  rfl

/-- A chunk whose first load fills the buffer. -/
theorem commands_cut_load (full : l.length = 2 ^ 21 - 6) :
    ∃ u' l' runs', c.commands oq (resting u l runs checked) =
      resting u' (noopInsn .kComputeStage true false false false :: l') runs' checked ∧ u'.Flushed ∧ l'.length = 15 := by
  obtain ⟨runs', synced⟩ := @synchronize_resting u l runs checked { operation := .load c.load1 } (acc_stage rfl).1 true
  have cut : ((resting u l runs checked).depPop .kComputeStage .kLoadStage).loadBuffer2D c.load1 =
      resting {} [] runs' checked := by
    rw [CommandQueue.loadBuffer2D, CommandQueue.check_full]
    · refine Eq.trans synced (congrArg _ ?_)
      rw [full]
      exact Bool.and_true _
    · change _ < l.length + 1 + 6
      omega
  rw [AluChunk.commands, AluChunk.loadCommands]
  rw [cut, second_load, CommandQueue.kernels_room UopQueue.empty_flushed, AluChunk.kernels]
  · simp only [List.foldl_cons, List.foldl_nil, kernel_first, kernel_idle]
    exact ⟨_, _, runs', storeCommands_room _ _ (show 13 + 8 ≤ _ by decide), rfl, rfl⟩
  · change 2 + 2 * 6 + 6 ≤ _
    decide

/-- A chunk whose first kernel fills the buffer. -/
theorem commands_cut_kernel (flushed : u.Flushed) (full : l.length = 2 ^ 21 - 10) :
    ∃ u' l' runs', c.commands oq (resting u l runs checked) =
      resting u' (noopInsn .kComputeStage true false false false :: l') runs' checked ∧ u'.Flushed ∧ l'.length = 11 := by
  have cut (kernel : UopKernel) (l₁ : List Insn) (four : l₁.length = l.length + 4) : ∃ runs',
      CommandQueue.pushALUUop ⟨u, ⟨l₁, { kComputeStage := true }, { kComputeStage := true }⟩, runs, checked⟩ kernel =
        resting {} [] runs' checked := by
    obtain ⟨runs', synced⟩ := @synchronize_resting u.next
      ({ operation := u.load, popPrevDep := true, popNextDep := true } :: l₁) runs checked { operation := u.alu kernel }
      (fun same => nomatch same) false
    refine ⟨runs', ?_⟩
    rw [CommandQueue.pushALUUop, CommandQueue.pushKernel_eq flushed, kernel_first, CommandQueue.check_full]
    · refine Eq.trans synced (congrArg _ ?_)
      rw [List.length_cons, four, full]
      exact Bool.and_true _
    · change _ < l₁.length + 2 + 6
      omega
  rw [AluChunk.commands, loadCommands_room (by omega), AluChunk.kernels, List.foldl_cons]
  obtain ⟨runs', given⟩ := cut (c.kernel .add none (c.sramshift + c.processdatalengthelem)) (_ :: _ :: _ :: _ :: l) rfl
  rw [given, CommandQueue.kernels_room UopQueue.empty_flushed]
  · simp only [resting, List.foldl_cons, List.foldl_nil, kernel_idle]
    exact ⟨_, _, runs', storeCommands_room _ _ (show 9 + 8 ≤ _ by decide), rfl, rfl⟩
  · change 0 + 2 * 5 + 6 ≤ _
    decide

end Lengths

/-- So many instructions are in the buffer, the newest of them a push that was not attached, and no `CHECK` failed. -/
def Rests (q : CommandQueue) (count : Nat) : Prop :=
  ∃ u insn l runs, q = resting u (insn :: l) runs true ∧ u.Flushed ∧ insn ∈ prologue ∧ l.length + 1 = count

namespace Rests

variable {q : CommandQueue} {count : Nat} {oq : QuantizationData}

theorem start : Rests ((({} : CommandQueue).depPush .kComputeStage .kLoadStage).depPush .kStoreStage .kComputeStage) 2 :=
  ⟨{}, noopInsn .kStoreStage true false false false, [noopInsn .kComputeStage true false false false], [], rfl, rfl,
    by decide, rfl⟩

theorem chunk (h : Rests q count) (oq : QuantizationData) (c : AluChunk) (room : count + 23 ≤ 2 ^ 21) : Rests (c.commands oq q) (count + 18) := by
  obtain ⟨u, insn, l, runs, rfl, flushed, -, rfl⟩ := h
  rw [commands_room flushed (by rw [List.length_cons]; omega)]
  refine ⟨u.afterChunk, noopInsn .kComputeStage true false false false, (c.stream oq u).reverse.tail ++ insn :: l, runs, rfl,
    rfl, by decide, ?_⟩
  rw [List.length_append, List.length_tail, List.length_reverse, length_stream, List.length_cons]
  omega

theorem cutLoad (h : Rests q (2 ^ 21 - 6)) (c : AluChunk) : Rests (c.commands oq q) 16 := by
  obtain ⟨u, insn, l, runs, rfl, -, -, full⟩ := h
  obtain ⟨u', l', runs', eq, flushed, length⟩ := @commands_cut_load u (insn :: l) runs true c oq full
  exact ⟨u', _, l', runs', eq, flushed, by decide, by rw [length]⟩

theorem cutKernel (h : Rests q (2 ^ 21 - 10)) (c : AluChunk) : Rests (c.commands oq q) 12 := by
  obtain ⟨u, insn, l, runs, rfl, flushed, -, full⟩ := h
  obtain ⟨u', l', runs', eq, flushed', length⟩ := @commands_cut_kernel u (insn :: l) runs true c oq flushed full
  exact ⟨u', _, l', runs', eq, flushed', by decide, by rw [length]⟩

theorem chunks (h : Rests q count) (oq : QuantizationData) (cs : List AluChunk) (room : count + 18 * cs.length + 5 ≤ 2 ^ 21) :
    Rests (cs.foldl (fun q c => c.commands oq q) q) (count + 18 * cs.length) := by
  induction cs generalizing q count with
  | nil => exact h
  | cons c cs ih =>
      rw [List.length_cons] at room ⊢
      have rest := ih (h.chunk oq c (by omega)) (by omega)
      rw [List.foldl_cons]
      rwa [show count + 18 * (cs.length + 1) = count + 18 + 18 * cs.length by omega]

/-- The chunks up to one in which the buffer is given away, and the others. -/
theorem past {after : Nat} (h : Rests q count) (oq : QuantizationData) (k : Nat) (cs : List AluChunk)
    (cut : ∀ q (c : AluChunk), Rests q (count + 18 * k) → Rests (c.commands oq q) after)
    (room : count + 18 * k + 5 ≤ 2 ^ 21) (more : k < cs.length) :
    ∃ (q' : CommandQueue) (rest : List AluChunk),
      cs.foldl (fun q c => c.commands oq q) q = rest.foldl (fun q c => c.commands oq q) q' ∧
        Rests q' after ∧ rest.length + k + 1 = cs.length := by
  obtain ⟨c, rest, eq⟩ := List.exists_cons_of_length_pos (l := cs.drop k) (by rw [List.length_drop]; omega)
  have length : (cs.take k).length = k := List.length_take_of_le more.le
  have before := h.chunks oq (cs.take k) (by rwa [length])
  rw [length] at before
  refine ⟨c.commands oq ((cs.take k).foldl (fun q c => c.commands oq q) q), rest, ?_, cut _ c before, ?_⟩
  · conv_lhs => rw [← List.take_append_drop k cs, eq, List.foldl_append, List.foldl_cons]
  · have lengths := congrArg List.length eq
    rw [List.length_drop, List.length_cons] at lengths
    omega

/-- The last synchronization. -/
theorem finish (h : Rests q count) (room : count + 6 ≤ 2 ^ 21) :
    ((q.depPop .kComputeStage .kLoadStage).depPop .kStoreStage .kComputeStage).synchronize.checked = true := by
  obtain ⟨u, insn, l, runs, rfl, -, newest, rfl⟩ := h
  have limit : vtaMaxXfer = 2 ^ 21 * 16 := rfl
  have fits : decide ((l.length + 7) * 16 ≤ vtaMaxXfer) = true := decide_eq_true (by omega)
  simp only [prologue, List.mem_cons, List.not_mem_nil, or_false] at newest
  obtain rfl | rfl := newest <;> exact fits

end Rests

/-- The buffer is given away twice when there are enough chunks, and has just the room for it. -/
theorem aluAddCommands_checked (oq : QuantizationData) {cs : List AluChunk} (few : cs.length ≤ 262144) :
    (aluAddCommands oq cs).checked = true := by
  have finished (count : Nat) (room : count + 6 ≤ 2 ^ 21)
      (rests : Rests (cs.foldl (fun q c => c.commands oq q) ((({} : CommandQueue).depPush .kComputeStage .kLoadStage).depPush
        .kStoreStage .kComputeStage)) count) : (aluAddCommands oq cs).checked = true := by
    have checked := rests.finish room
    simp only [aluAddCommands]
    exact checked
  by_cases one : cs.length ≤ 116508
  · exact finished _ (by omega) (Rests.start.chunks oq cs (by omega))
  · -- A first load fills the buffer, and later a first kernel does.
    obtain ⟨q₁, rest₁, eq₁, rests₁, length₁⟩ :=
      Rests.start.past oq 116508 cs (fun _ c full => full.cutLoad c) (by decide) (by omega)
    by_cases two : rest₁.length ≤ 116507
    · exact finished _ (by omega) (eq₁ ▸ rests₁.chunks oq rest₁ (by omega))
    · obtain ⟨q₂, rest₂, eq₂, rests₂, length₂⟩ :=
        rests₁.past oq 116507 rest₁ (fun _ c full => full.cutKernel c) (by decide) (by omega)
      exact finished _ (by omega) (eq₁ ▸ eq₂ ▸ rests₂.chunks oq rest₂ (by omega))

/-- When there is a second half of the memory to use, its last chunk fits with its padding. -/
def LastFits (n : Int) : Prop := chunkCount n % 2 = 0 → HalfEnough (lastLen n)

section Bounds

variable {n : Int} {k : Nat}

theorem load2_inBounds_iff (bound : n < 2 ^ 31) (more : 8192 * k < n) :
    (Operation.load (chunkAt n k).load2).InBounds ↔ (k % 2 = 1 → HalfEnough (chunkLen n k)) := by
  have positive := chunkLen_pos more
  have small := chunkLen_le (n := n) k
  obtain ⟨-, load2, -⟩ := chunk_insns bound more
  obtain ⟨-, end2, -⟩ := chunk_sramEnd bound more
  have size : (chunkAt n k).load2.xSize ≠ 0 := by
    rw [load2]
    dsimp only
    omega
  change (_ = 0 ∨ _ ≤ 2048) ↔ _
  rw [or_iff_right size, end2, HalfEnough]
  omega

theorem load1_inBounds (bound : n < 2 ^ 31) (more : 8192 * k < n) : (Operation.load (chunkAt n k).load1).InBounds := by
  have positive := chunkLen_pos more
  have small := chunkLen_le (n := n) k
  obtain ⟨end1, -, -⟩ := chunk_sramEnd bound more
  refine Or.inr ?_
  change _ ≤ 2048
  rw [end1]
  omega

/-- The kernels of a chunk use what its loads wrote, and the start of the memory. -/
theorem kernel_indices (bound : n < 2 ^ 31) (more : 8192 * k < n) (oq : QuantizationData) {kernel : UopKernel}
    (mem : kernel ∈ (chunkAt n k).kernels oq) (x : Nat) (inside : x < kernel.extent) :
    kernel.dstIndex + x * kernel.dstFactor < vtaAccBuffDepth ∧ kernel.srcIndex + x * kernel.srcFactor < vtaAccBuffDepth := by
  have positive := chunkLen_pos more
  have small := chunkLen_le (n := n) k
  change _ < 2048 ∧ _ < 2048
  rw [chunkAt_eq bound more] at mem
  simp only [AluChunk.kernels, List.mem_cons, List.not_mem_nil, or_false] at mem
  obtain rfl | rfl | rfl | rfl | rfl | rfl := mem <;> simp only [AluChunk.kernel] at inside ⊢ <;> omega

theorem chunk_kept (bound : n < 2 ^ 31) (more : 8192 * k < n) (fits : LastFits n) (oq : QuantizationData) :
    (chunkAt n k).Kept Operation.InBounds oq where
  load1 := load1_inBounds bound more
  load2 := by
    refine (load2_inBounds_iff bound more).mpr fun odd => ?_
    by_cases last : n ≤ 8192 * ((k + 1 : Nat) : Int)
    · rw [chunkLen_last more last]
      refine fits ?_
      rw [chunkCount]
      omega
    · rw [chunkLen_full (by omega), HalfEnough]
      decide
  kernels kernel mem :=
    { load := fun u loaded => UopQueue.load_inBounds loaded
      alu := fun u loaded => ⟨UopQueue.alu_uopEnd loaded, kernel_indices bound more oq mem⟩ }
  store := trivial

theorem operations_inBounds (bound : n < 2 ^ 31) (fits : LastFits n) (oq : QuantizationData) :
    ∀ insn ∈ (aluAddCommands oq ((List.range (chunkCount n)).map (chunkAt n))).runs.flatten, insn.operation.InBounds :=
  aluAddCommands_all (fun _ => Operation.Idle.inBounds) fun c mem => by
    obtain ⟨k, more, rfl⟩ := mem_chunks mem
    exact chunk_kept bound more fits oq

/-- Otherwise the load of the last chunk is not in bounds. -/
theorem operation_outOfBounds (positive : 1 ≤ n) (bound : n < 2 ^ 31) (large : ¬LastFits n) (oq : QuantizationData) :
    ∃ insn ∈ (aluAddCommands oq ((List.range (chunkCount n)).map (chunkAt n))).runs.flatten, ¬insn.operation.InBounds := by
  obtain ⟨even, past⟩ := Classical.not_imp.mp large
  have some : 0 < chunkCount n := lt_chunkCount.mpr (by omega)
  have last : chunkCount n - 1 < chunkCount n := by omega
  have more := lt_chunkCount.mp last
  have mem : chunkAt n (chunkCount n - 1) ∈ (List.range (chunkCount n)).map (chunkAt n) :=
    List.mem_map_of_mem (List.mem_range.mpr last)
  obtain ⟨insn, ran, load⟩ := @aluAddCommands_load2 oq _ _ mem
  refine ⟨insn, ran, ?_⟩
  rw [load, load2_inBounds_iff bound more, chunkLen_last more]
  · exact fun fits => past (fits (by omega))
  · have none : ¬chunkCount n < chunkCount n := lt_irrefl _
    rw [lt_chunkCount] at none
    omega

end Bounds

end AlkaliFw
