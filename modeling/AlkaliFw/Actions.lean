import AlkaliFw.System

/-! Every action of the command code. A callback of command `c` and the calls of the polling
thread on `c` consist of the actions below and of runs of `nvme_cmd_return`; what all of
these keep, they keep. -/

namespace AlkaliFw
open Resumption

/-- The callbacks with which a command asks for data. -/
def Cb.Ends : Cb → Prop
  | .nvmeCmdReturnCb | .vendorCb | .rpmsgCmdReturnCb => True
  | _ => False

structure NvmeCmdPriv.Fit (p : NvmeCmdPriv) : Prop where
  len : p.xferLen < 2 ^ 32
  cb : ∀ f, p.xferCb = some f → f.Ends

/-- Every record holds a length below 2^32 and a callback that ends a transfer. -/
def Fitted (s : Fw) : Prop := ∀ c, (s.cmds c).Fit

/-- What the command code puts into a DMA queue for `c`, completions apart: a list request
or a data chunk. -/
inductive Shape (c : Slot) : Chan → Desc → Prop where
  | list {d : Desc} {b : Nat} (loc : d.localAddr = .prp b) (cb : d.callback = some (.prpCb, c)) (owner : d.owner = c) :
      Shape c .rx d
  | data {ch : Chan} {d : Desc} {a : Nat} (loc : d.localAddr = .ram a)
      (cb : d.callback = none ∨ ∃ f, f.Ends ∧ d.callback = some (f, c)) (owner : d.owner = c) :
      Shape c ch d

/-- The queue commands. -/
inductive QueueUpdate : (NvmeCmdPriv → QId → Fw → Fw) → Prop where
  | createSq : QueueUpdate createSq
  | createCq : QueueUpdate createCq
  | deleteSq : QueueUpdate deleteSq
  | deleteCq : QueueUpdate deleteCq

/-- Assignments to a record that leave its queue, its block and its identifiers alone. -/
structure Assigns (f : NvmeCmdPriv → NvmeCmdPriv) : Prop where
  qid : ∀ p, (f p).qid = p.qid
  block : ∀ p, (f p).block = p.block
  cid : ∀ p, (f p).sqBuf.cid = p.sqBuf.cid
  entry : ∀ p, (f p).cqBuf.cid = p.cqBuf.cid ∧ (f p).cqBuf.sqId = p.cqBuf.sqId ∧ (f p).cqBuf.cdw0 = p.cqBuf.cdw0
  fit : ∀ p, p.Fit → (f p).Fit

/-- An action on behalf of `c`, outside of the completion ring, with the updates of queues in `U`. -/
inductive CmdActs (P : Platform) (c : Slot) (U : (NvmeCmdPriv → QId → Fw → Fw) → Prop) : Access → Fw → Fw → Prop where
  | look (s : Fw) : CmdActs P c U .other s s
  | ofCmd (s : Fw) : CmdActs P c U (.cmd c) s s
  | clock (s : Fw) : CmdActs P c U .other s { s with clock := s.clock + 1 }
  | fill {s : Fw} {b : Nat} {slab : Slab kMemSlabMax} (alloc : P.descSlabAlloc s.descSlab s.clock = (some b, slab)) :
      CmdActs P c U .other s { s with descSlab := slab, clock := s.clock + 1 }
  | noDescriptor (s : Fw) : CmdActs P c U .other s (Fw.note { s with clock := s.clock + 1 } (.noDescriptor c))
  | put {ch : Chan} {d : Desc} (s : Fw) (shape : Shape c ch d) : CmdActs P c U (.submit d.callback) s (s.put ch d)
  | notify {v : Nat} (s : Fw) (word : v < 2 ^ 32) : CmdActs P c U .other s (s.sysWrite32 nvmeTcRegIrqHost v)
  | cmd {f : NvmeCmdPriv → NvmeCmdPriv} (s : Fw) (assigns : Assigns f) :
      CmdActs P c U (.cmd c) s (s.setCmd c f)
  | cmdFree (s : Fw) : CmdActs P c U (.cmd c) s (Fw.note { s with cmdSlab := s.cmdSlab.free c } (.cmdFree c))
  | lost (why : Loss) (s : Fw) : CmdActs P c U .other s (s.note (.lost c why))
  | prpAlloc {s : Fw} {b : Nat} {slab : Slab nvmePrpSlabSize} (alloc : P.kMemSlabAlloc s.prpSlab s.clock = (some b, slab)) :
      CmdActs P c U .other s (Fw.note { s with prpSlab := slab, clock := s.clock + 1 } (.prpAlloc c b))
  | noPrpBuffer (s : Fw) : CmdActs P c U .other s (Fw.note { s with clock := s.clock + 1 } (.noPrpBuffer c))
  | prpFree (b : Nat) (s : Fw) :
      CmdActs P c U .other s (Fw.note { s with prpSlab := s.prpSlab.free b } (.prpFree c b))
  | ram (r : Nat → UInt8) (s : Fw) : CmdActs P c U .other s { s with ram := r }
  | queues (s : Fw) : CmdActs P c U (.cmd c) s
      ((s.setTc fun tc => { tc with queues := 1 }).setCmd c fun p => { p with cqBuf := { p.cqBuf with cdw0 := 0 } })
  | queue {f : NvmeCmdPriv → QId → Fw → Fw} (update : U f) (p : NvmeCmdPriv) {q : QId} (io : q ≠ admQueueId)
      (s : Fw) : CmdActs P c U .other s (f p q s)
  | sent {m : RpmsgPayload} (s : Fw) (priv : m.priv = c) :
      CmdActs P c U .other s (Fw.note { s with clock := s.clock + 1, apu := s.apu ++ [m] } (.sent m))
  | buffer {l : PoolBlock} {size : Nat} (s : Fw) (owner : l.owner = c)
      (pick : P.poolPick s.clock s.pool size = some (l.block, l.size)) :
      CmdActs P c U .other s
        ((Fw.note { s with clock := s.clock + 1, pool := l :: s.pool } (.poolAlloc l)).setCmd c fun p =>
          { p with block := l.block })
  | poolFree (s : Fw) : CmdActs P c U (.cmd c) s
      (Fw.note { s with pool := s.pool.filter fun l => l.block.id ≠ (s.cmds c).block.id }
        (.poolFree c (s.cmds c).block ((s.pool.find? fun l => l.block.id = (s.cmds c).block.id).map (·.owner))))

abbrev CmdAct (P : Platform) (c : Slot) : Access → Fw → Fw → Prop := CmdActs P c QueueUpdate

theorem CmdActs.mono {P : Platform} {c : Slot} {U U' : (NvmeCmdPriv → QId → Fw → Fw) → Prop} {l : Access} {s t : Fw}
    (act : CmdActs P c U l s t) (more : ∀ f, U f → U' f) : CmdActs P c U' l s t := by
  cases act with
  | look => exact .look s
  | ofCmd => exact .ofCmd s
  | clock => exact .clock s
  | fill alloc => exact .fill alloc
  | noDescriptor => exact .noDescriptor s
  | put s shape => exact .put s shape
  | notify s word => exact .notify s word
  | cmd s assigns => exact .cmd s assigns
  | cmdFree => exact .cmdFree s
  | lost why => exact .lost why s
  | prpAlloc alloc => exact .prpAlloc alloc
  | noPrpBuffer => exact .noPrpBuffer s
  | prpFree b => exact .prpFree b s
  | ram r => exact .ram r s
  | queues => exact .queues s
  | queue update p io => exact .queue (more _ update) p io s
  | sent s priv => exact .sent s priv
  | buffer s owner pick => exact .buffer s owner pick
  | poolFree => exact .poolFree s

/-- Any action on behalf of `c`, once its completion entry is prepared. -/
inductive FineAct (P : Platform) (c : Slot) : Access → Fw → Fw → Prop where
  | own {l : Access} {s t : Fw} (act : CmdAct P c l s t) : FineAct P c l s t
  | look (l : Access) (s : Fw) : FineAct P c l s s
  | phase (q : QId) (v : Bool) (s : Fw) :
      FineAct P c (.ring q) s (s.setTc fun tc => { tc with cqPhase := Function.update tc.cqPhase q v })
  | tail (q : QId) {v : Nat} (s : Fw) (word : v < 2 ^ 16) :
      FineAct P c (.ring q) s (s.setTc fun tc => { tc with cqTail := Function.update tc.cqTail q v })
  | entry {d : Desc} (s : Fw) (loc : d.localAddr = .cqBuf c) (cb : d.callback = some (.cqCb, c)) (owner : d.owner = c) :
      FineAct P c (.submit (some (.cqCb, c))) s (s.put .tx d)

/-- Code for `c` in which `nvme_cmd_return` counts as one step. -/
def MadeOf (P : Platform) (c : Slot) (U : (NvmeCmdPriv → QId → Fw → Fw) → Prop) {α : Type} (p : Code α) : Prop :=
  p.Over Fitted (CmdActs P c U) fun q => q = nvmeCmdReturn P c

abbrev Made (P : Platform) (c : Slot) {α : Type} (p : Code α) : Prop := MadeOf P c QueueUpdate p

section

variable (P : Platform) (c : Slot) {U : (NvmeCmdPriv → QId → Fw → Fw) → Prop}

theorem made_ofCmd_bind {α β : Type} (f : NvmeCmdPriv → α) {g : α → Code β} (h : ∀ a, MadeOf P c U (g a)) :
    MadeOf P c U (ofCmd c f >>= g) := Prog.over_look_bind .ofCmd fun _ _ => h _

theorem made_setCmd {f : NvmeCmdPriv → NvmeCmdPriv} (assigns : Assigns f) : MadeOf P c U (setCmd c f) :=
  Prog.over_change fun s => .cmd s assigns

theorem made_loseUnless (ok : Bool) (why : Loss) : MadeOf P c U (loseUnless ok c why) :=
  Prog.over_when fun _ => Prog.over_change fun s => .lost why s

theorem kMemSlabAlloc_none {n : Nat} {s slab : Slab n} {clock : Nat} (h : P.kMemSlabAlloc s clock = (none, slab)) :
    slab = s := by
  unfold Platform.kMemSlabAlloc at h
  split at h
  · cases h
  · cases h
    rfl

theorem descSlabAlloc_none {s slab : Slab kMemSlabMax} {clock : Nat} (h : P.descSlabAlloc s clock = (none, slab)) :
    slab = s := by
  unfold Platform.descSlabAlloc at h
  split at h
  · exact kMemSlabAlloc_none P h
  · cases h
    rfl

/-- A submission takes a descriptor and queues it, or finds none. -/
theorem over_nvmeDmaXfer {G : Fw → Prop} {R : Access → Fw → Fw → Prop} {C : Code Unit → Prop} (ch : Chan) (tag host : Nat) (loc : Local)
    (len : Nat) (callback : Option (Cb × Slot))
    (fill : ∀ s b slab, P.descSlabAlloc s.descSlab s.clock = (some b, slab) →
      R .other s { s with descSlab := slab, clock := s.clock + 1 })
    (noDescriptor : ∀ s, R .other s (Fw.note { s with clock := s.clock + 1 } (.noDescriptor c)))
    (put : ∀ s block q, R (.submit callback) s (s.put ch ⟨callback, host, loc, len, tag, block, c, q⟩)) :
    (nvmeDmaXfer P ch tag host loc len callback c).Over G R C := by
  refine Prog.over_swap_bind (fun s => ?_) fun s => ?_
  · rcases alloc : P.descSlabAlloc s.descSlab s.clock with ⟨_ | block, slab⟩
    · rw [descSlabAlloc_none P alloc]
      exact noDescriptor s
    · exact fill s block slab alloc
  · rcases alloc : (P.descSlabAlloc s.descSlab s.clock).1 with _ | block
    · simp only [alloc]
      exact Prog.over_pure _
    · simp only [alloc]
      exact Prog.over_bind (Prog.over_change fun t => put t block _) fun _ => Prog.over_pure _

theorem made_nvmeDmaXfer (ch : Chan) (tag host : Nat) (loc : Local) (len : Nat) (callback : Option (Cb × Slot))
    (shape : ∀ block q, Shape c ch ⟨callback, host, loc, len, tag, block, c, q⟩) :
    MadeOf P c U (nvmeDmaXfer P ch tag host loc len callback c) :=
  over_nvmeDmaXfer P c ch tag host loc len callback (fun _ _ _ alloc => .fill alloc) (fun s => .noDescriptor s)
    fun s block q => .put s (shape block q)

theorem made_nvmeCmdReturn : MadeOf P c U (nvmeCmdReturn P c) := Prog.over_call rfl

theorem made_transferChunk (hostAddr localAddr len : Nat) :
    MadeOf P c U (transferChunk P c hostAddr localAddr len) := by
  refine Prog.over_look_bind .ofCmd fun s fit => made_ofCmd_bind P c _ fun dir => Prog.over_bind ?_ fun ok => ?_
  · have callback : (if (s.cmds c).xferLen = len then (s.cmds c).xferCb.map (·, c) else none) = none ∨ ∃ f, f.Ends ∧
        (if (s.cmds c).xferLen = len then (s.cmds c).xferCb.map (·, c) else none) = some (f, c) := by
      split
      · cases e : (s.cmds c).xferCb with
        | none => exact .inl rfl
        | some f => exact .inr ⟨f, (fit c).cb f e, rfl⟩
      · exact .inl rfl
    refine Prog.over_ite (fun _ => ?_) fun _ => ?_ <;>
      exact made_nvmeDmaXfer P c _ _ _ _ _ _ fun _ _ => .data rfl callback rfl
  · refine Prog.over_bind (Prog.over_when fun _ => made_loseUnless P c ok _) fun _ => Prog.over_bind ?_ fun _ => ?_
    · exact made_setCmd P c ⟨fun _ => rfl, fun _ => rfl, fun _ => rfl, fun _ => ⟨rfl, rfl, rfl⟩, fun _ h => ⟨Nat.mod_lt _ (by decide), h.cb⟩⟩
    · exact made_setCmd P c ⟨fun _ => rfl, fun _ => rfl, fun _ => rfl, fun _ => ⟨rfl, rfl, rfl⟩, fun _ h => ⟨h.len, h.cb⟩⟩

theorem made_prpEntry (b i : Nat) : MadeOf P c U (prpEntry P b i) :=
  Prog.over_ite (fun _ => Prog.over_look_bind .look fun _ _ => Prog.over_pure _) fun _ => Prog.Over.stuck

theorem made_prpFetch (b host mps : Nat) : MadeOf P c U (prpFetch P c b host mps) := by
  refine Prog.over_bind (made_setCmd P c ⟨fun _ => rfl, fun _ => rfl, fun _ => rfl, fun _ => ⟨rfl, rfl, rfl⟩, fun _ h => ⟨h.len, h.cb⟩⟩) fun _ => made_ofCmd_bind P c _ fun size => ?_
  refine Prog.over_bind (made_nvmeDmaXfer P c _ _ _ _ _ _ fun _ _ => .list rfl rfl rfl) fun ok => ?_
  exact made_loseUnless P c ok _

theorem made_prpLoop (b mps prpSize fuel i : Nat) : MadeOf P c U (prpLoop P c b mps prpSize fuel i) := by
  induction fuel generalizing i with
  | zero => exact Prog.Over.stuck
  | succ fuel ih =>
    refine made_ofCmd_bind P c _ fun left => Prog.over_ite (fun _ => Prog.over_ite (fun _ => ?_) fun _ => ?_) fun _ => ?_
    · exact Prog.over_bind (made_prpEntry P c b i) fun link => made_prpFetch P c b link mps
    · refine Prog.over_bind (made_prpEntry P c b i) fun host => made_ofCmd_bind P c _ fun addr => ?_
      exact Prog.over_bind (made_transferChunk P c _ _ _) fun _ => ih (i + 1)
    · exact Prog.over_change fun s => .prpFree b s

theorem made_prpCb (loc : Local) : MadeOf P c U (prpCb P c loc) := by
  cases loc with
  | prp b =>
    refine Prog.over_look_bind .look fun _ _ => made_ofCmd_bind P c _ fun size =>
      made_ofCmd_bind P c _ fun left => ?_
    exact Prog.over_ite (fun _ => Prog.Over.stuck) fun _ => made_prpLoop P c b _ _ _ _
  | _ => exact Prog.Over.stuck

theorem made_prpAlloc_bind {α : Type} {g : Option Nat → Code α} (h : ∀ b, MadeOf P c U (g b)) :
    MadeOf P c U (prpAlloc P c >>= g) := by
  refine Prog.over_swap_bind (fun s => ?_) fun _ => h _
  rcases alloc : P.kMemSlabAlloc s.prpSlab s.clock with ⟨_ | b, slab⟩
  · rw [kMemSlabAlloc_none P alloc]
    exact .noPrpBuffer s
  · exact .prpAlloc alloc

theorem made_transferDataWithPrps : MadeOf P c U (transferDataWithPrps P c) := by
  refine made_ofCmd_bind P c _ fun host => Prog.over_look_bind .look fun s _ => ?_
  refine Prog.over_ite (fun _ => Prog.Over.stuck) fun _ => ?_
  refine made_ofCmd_bind P c _ fun left => made_ofCmd_bind P c _ fun addr => ?_
  refine Prog.over_bind (made_transferChunk P c _ _ _) fun _ => made_ofCmd_bind P c _ fun left => ?_
  refine Prog.over_ite (fun _ => Prog.over_pure _) fun _ => Prog.over_ite (fun _ => ?_) fun _ => ?_
  · refine made_prpAlloc_bind P c fun buf => ?_
    cases buf with
    | none => exact made_nvmeCmdReturn P c
    | some b =>
      refine made_ofCmd_bind P c _ fun prp2 => Prog.over_bind (made_prpFetch P c b _ _) fun _ => ?_
      exact made_ofCmd_bind P c _ fun _ => Prog.over_pure _
  · exact made_ofCmd_bind P c _ fun prp2 => made_ofCmd_bind P c _ fun left => made_ofCmd_bind P c _ fun addr =>
      made_transferChunk P c _ _ _

theorem made_nvmeCmdTransferData : MadeOf P c U (nvmeCmdTransferData P c) := by
  refine made_ofCmd_bind P c _ fun psdt => Prog.over_ite (fun _ => Prog.over_pure _) fun _ => ?_
  exact Prog.over_bind (made_transferDataWithPrps P c) fun _ => Prog.over_pure _

theorem made_setXfer {buf len : Nat} {dir : Dir} {cb : Cb} (word : len < 2 ^ 32) (ends : cb.Ends) :
    MadeOf P c U (setXfer c buf len dir cb) := by
  refine made_setCmd P c ⟨fun _ => rfl, fun _ => rfl, fun _ => rfl, fun _ => ⟨rfl, rfl, rfl⟩, fun p _ => ⟨word, fun f e => ?_⟩⟩
  cases e
  exact ends

/-- Both `nvme_cmd_get_data` and `nvme_cmd_return_data`. -/
theorem made_transfer {buf len : Nat} {dir : Dir} {cb : Cb} (word : len < 2 ^ 32) (ends : cb.Ends) :
    MadeOf P c U
      (do setXfer c buf len dir cb
          let rejected ← nvmeCmdTransferData P c
          .when rejected (nvmeCmdReturn P c) : Code Unit) := by
  refine Prog.over_bind (made_setXfer P c word ends) fun _ => Prog.over_bind (made_nvmeCmdTransferData P c) fun _ => ?_
  exact Prog.over_when fun _ => made_nvmeCmdReturn P c

theorem made_identifyWith (b : RespBuf) : MadeOf P c U (identifyWith P b c) :=
  Prog.over_bind (Prog.over_change fun s => .ram _ s) fun _ => made_transfer P c (by decide) trivial

theorem made_nvmeCmdAdmIdentify : MadeOf P c U (nvmeCmdAdmIdentify P c) := by
  refine made_ofCmd_bind P c _ fun cns => ?_
  split
  · exact made_identifyWith P c _
  · exact made_identifyWith P c _
  · exact made_identifyWith P c _
  · exact made_identifyWith P c _
  · exact made_nvmeCmdReturn P c

theorem made_nvmeCmdAdmGetLog : MadeOf P c U (nvmeCmdAdmGetLog P c) := by
  refine made_ofCmd_bind P c _ fun numd => made_ofCmd_bind P c _ fun lid => ?_
  split
  · refine Prog.over_bind (Prog.over_change fun s => .ram _ s) fun _ => made_transfer P c ?_ trivial
    have : smartRespSize = 512 := rfl
    split <;> omega
  · exact made_nvmeCmdReturn P c

theorem made_nvmeCmdAdmSetFeatures : MadeOf P c U (nvmeCmdAdmSetFeatures P c) := by
  refine made_ofCmd_bind P c _ fun fid => Prog.over_bind (Prog.over_when fun _ => ?_) fun _ => made_nvmeCmdReturn P c
  exact Prog.over_change fun s => .queues s

theorem made_queueCommand {update : NvmeCmdPriv → QId → Fw → Fw} (hu : U update) :
    MadeOf P c U (queueCommand P c update) := by
  refine made_ofCmd_bind P c _ fun p => Prog.over_ite (fun _ => made_nvmeCmdReturn P c) fun range => ?_
  split
  · rename_i h
    refine Prog.over_bind (Prog.over_change fun s => .queue hu p ?_ s) fun _ => made_nvmeCmdReturn P c
    exact fun same => range (.inl (congrArg Fin.val same))
  · exact Prog.Over.stuck

theorem made_ioCommand {address : Nat → Nat → Nat} {move : Slot → Nat → Nat → Code Unit}
    (h : ∀ buf len, len < 2 ^ 32 → MadeOf P c U (move c buf len)) : MadeOf P c U (ioCommand P address move c) := by
  refine made_ofCmd_bind P c _ fun lba => Prog.over_look_bind .ofCmd fun s _ => ?_
  refine Prog.over_ite (fun _ => h _ _ ?_) fun _ => made_nvmeCmdReturn P c
  have := Nat.mod_lt (s.cmds c).sqBuf.cdw12 (Nat.two_pow_pos 16)
  rw [show blkSize = 512 from rfl]
  dsimp only
  omega

theorem made_sendCmd : MadeOf P c U (sendCmd P c) := by
  refine made_ofCmd_bind P c _ fun p => Prog.over_swap_bind (fun s => .clock s) fun s => ?_
  refine Prog.over_ite (fun _ => Prog.over_change fun s => .lost _ s) fun _ => Prog.over_swap_bind (fun s => ?_) fun s => ?_
  · dsimp only
    split
    · exact .sent s rfl
    · exact .clock s
  · exact made_loseUnless P c _ _

theorem made_bufferAlloc_bind {α : Type} (size : Nat) {g : Bool → Code α} (h : ∀ b, MadeOf P c U (g b)) :
    MadeOf P c U (bufferAlloc P c size >>= g) := by
  refine Prog.over_swap_bind (fun s => ?_) fun _ => h _
  dsimp only
  split
  · rename_i b n pick
    exact CmdActs.buffer (l := ⟨b, n, c, (P.poolPick_size _ _ _ _ _ pick).2⟩) s rfl pick
  · exact .clock s

theorem made_vendorTransfer (dir : Nat) {size : Nat} (word : size < 2 ^ 32) : MadeOf P c U (vendorTransfer P c dir size) := by
  refine Prog.over_ite (fun _ => made_sendCmd P c) fun _ => made_ofCmd_bind P c _ fun buf => ?_
  refine Prog.over_bind (made_setXfer P c word trivial) fun _ => Prog.over_bind (made_nvmeCmdTransferData P c) fun _ => ?_
  exact Prog.over_when fun _ => Prog.over_change fun s => .lost _ s

theorem made_nvmeCmdVendor (zeroBased : Bool) : MadeOf P c U (nvmeCmdVendor P c zeroBased) := by
  refine made_ofCmd_bind P c _ fun opc => Prog.over_bind (Prog.over_when fun _ => ?_) fun _ =>
    Prog.over_look_bind .ofCmd fun s _ => ?_
  · exact made_setCmd P c ⟨fun _ => rfl, fun _ => rfl, fun _ => rfl, fun _ => ⟨rfl, rfl, rfl⟩, fun _ h => ⟨h.len, h.cb⟩⟩
  · have word : bufferSize (s.cmds c).sqBuf.ndt < 2 ^ 32 := Nat.mod_lt _ (by decide)
    refine Prog.over_ite (fun _ => made_bufferAlloc_bind P c _ fun ok => ?_) fun _ => made_vendorTransfer P c _ word
    exact Prog.over_ite (fun _ => made_vendorTransfer P c _ word) fun _ => Prog.over_change fun s => .lost _ s

theorem made_handleAdm : Made P c (handleAdm P c) := by
  refine made_ofCmd_bind P c _ fun opc => ?_
  split
  · exact made_nvmeCmdAdmGetLog P c
  · exact made_nvmeCmdAdmIdentify P c
  · exact made_nvmeCmdAdmSetFeatures P c
  · exact made_queueCommand P c .createSq
  · exact made_queueCommand P c .createCq
  · exact made_queueCommand P c .deleteSq
  · exact made_queueCommand P c .deleteCq
  · exact made_nvmeCmdVendor P c false
  · exact made_nvmeCmdVendor P c true
  · exact Prog.over_ite (fun _ => made_nvmeCmdVendor P c false) fun _ => made_nvmeCmdReturn P c

theorem made_handleIo : MadeOf P c U (handleIo P c) := by
  refine made_ofCmd_bind P c _ fun opc => ?_
  split
  · exact made_nvmeCmdReturn P c
  · exact made_ioCommand P c fun _ _ word => made_transfer P c word trivial
  · exact made_ioCommand P c fun _ _ word => made_transfer P c word trivial
  · exact Prog.over_ite (fun _ => made_nvmeCmdVendor P c false) fun _ => made_nvmeCmdReturn P c

/-- What `nvme_cmd_handler` does after it has prepared the completion entry. -/
def dispatch : Code Unit := do
  let q ← ofCmd c (·.qid)
  if q = admQueueId then handleAdm P c else handleIo P c

theorem nvmeCmdHandler_eq : nvmeCmdHandler P c = (fillCqResp c >>= fun _ => dispatch P c) := rfl

theorem made_dispatch : Made P c (dispatch P c) :=
  made_ofCmd_bind P c _ fun _ => Prog.over_ite (fun _ => made_handleAdm P c) fun _ => made_handleIo P c

theorem made_cqCb : MadeOf P c U (cqCb c) := by
  refine made_ofCmd_bind P c _ fun q => Prog.over_bind (Prog.over_change fun s => .notify s (Nat.mod_lt _ (by decide))) fun _ => ?_
  exact Prog.over_change fun s => .cmdFree s

theorem made_kMemPoolFree : MadeOf P c U (kMemPoolFree c) := Prog.over_change fun s => .poolFree s

/-- Every callback that is installed for `c`, but for the handler of a fetched entry. -/
theorem made_callback {cb : Cb} (other : cb ≠ .nvmeCmdHandler) (loc : Local) : MadeOf P c U (callback P cb c loc) := by
  cases cb with
  | nvmeCmdHandler => exact absurd rfl other
  | cqCb => exact made_cqCb P c
  | nvmeCmdReturnCb => exact made_nvmeCmdReturn P c
  | prpCb => exact made_prpCb P c loc
  | vendorCb => exact made_sendCmd P c
  | rpmsgCmdReturnCb => exact Prog.over_bind (made_kMemPoolFree P c) fun _ => made_nvmeCmdReturn P c

/-- The calls of the polling thread. -/
theorem made_rpmsgEndpointCb (m : RpmsgPayload) : MadeOf P m.priv U (rpmsgEndpointCb P m) := by
  refine Prog.over_ite (fun _ => ?_) fun _ => Prog.over_ite (fun _ => ?_) fun _ => Prog.over_change fun s => .lost _ s
  · refine Prog.over_bind (made_nvmeCmdReturn P _) fun _ => made_ofCmd_bind P _ _ fun data => ?_
    exact Prog.over_when fun _ => made_kMemPoolFree P _
  · refine made_ofCmd_bind P _ _ fun psdt => Prog.over_bind (made_setXfer P _ m.word trivial) fun _ => ?_
    refine Prog.over_ite (fun _ => made_nvmeCmdReturn P _) fun _ => ?_
    exact Prog.over_bind (made_nvmeCmdTransferData P _) fun _ => Prog.over_pure _

/-! Action by action. -/

theorem acts_nvmeTcGetCqAddr (q : QId) : (nvmeTcGetCqAddr q).Acts Fitted (FineAct P c) := by
  refine Prog.acts_look_bind (.look _) fun s _ => Prog.acts_look_bind (.look _) fun s' _ => ?_
  refine Prog.acts_ite (fun _ => Prog.acts_stuck) fun _ => Prog.acts_look_bind (.look _) fun _ _ => ?_
  refine Prog.acts_ite (fun _ => ?_) fun _ => Prog.acts_pure _
  refine Prog.acts_look_bind (.look _) fun _ _ => Prog.acts_bind ?_ fun _ => ?_
  · exact Prog.acts_when fun _ => Prog.acts_look_bind (.look _) fun _ _ => Prog.acts_change fun s => .phase q _ s
  · refine Prog.acts_look_bind (.look _) fun _ _ => Prog.acts_look_bind (.look _) fun _ _ => ?_
    exact Prog.acts_bind (Prog.acts_change fun s => .tail q s (Nat.mod_lt _ (by decide))) fun _ => Prog.acts_pure _

theorem acts_nvmeCmdReturn : (nvmeCmdReturn P c).Acts Fitted (FineAct P c) := by
  refine Prog.acts_look_bind (.look _) fun s _ => Prog.acts_bind (acts_nvmeTcGetCqAddr P c _) fun cqAddr => ?_
  refine Prog.acts_ite (fun _ => Prog.acts_change fun s => .own (.lost _ s)) fun _ => ?_
  refine Prog.acts_look_bind (.look _) fun _ _ => Prog.acts_bind (Prog.acts_change fun s => .own (.cmd s ?_)) fun _ =>
    Prog.acts_bind ?_ fun ok => Prog.acts_when fun _ => Prog.acts_change fun s => .own (.lost _ s)
  · exact ⟨fun _ => rfl, fun _ => rfl, fun _ => rfl, fun _ => ⟨rfl, rfl, rfl⟩, fun _ h => ⟨h.len, h.cb⟩⟩
  · exact (over_nvmeDmaXfer P c (C := fun _ => False) _ _ _ _ _ _ (fun _ _ _ alloc => .own (.fill alloc))
      (fun s => .own (.noDescriptor s)) fun s block q => .entry s rfl rfl rfl).acts (fun _ _ _ h => h) fun _ => False.elim

theorem MadeOf.acts {P : Platform} {c : Slot} {α : Type} {p : Code α} (h : Made P c p) : p.Acts Fitted (FineAct P c) := by
  refine Prog.Over.acts h (fun _ _ _ => .own) ?_
  rintro _ rfl
  exact acts_nvmeCmdReturn P c

end
end AlkaliFw
