import AlkaliFw.Ledger

/-! The memories of the host and of the RPU. The code of the firmware writes to neither, but for its response buffers;
it queues transfers, and their local addresses are 32-bit words. -/

namespace AlkaliFw
open Resumption

/-- An address outside of the response buffers. -/
def Platform.Fixed (P : Platform) (a : Nat) : Prop :=
  ∀ b, (a < P.respBuf b ∨ P.respBuf b + nvmeCmdIdentifyRespSize ≤ a) ∧
    ∀ w ∈ respData P b, a < P.respBuf b + w.1 ∨ P.respBuf b + w.1 + w.2.length ≤ a

/-- What happens while the DMA engine moves nothing. -/
structure MemKept (P : Platform) (s t : Fw) : Prop where
  host : t.host = s.host
  ram : ∀ a, P.Fixed a → t.ram a = s.ram a
  trace : ∃ new, t.trace = new ++ s.trace ∧ ∀ ch, new.filterMap (Obs.finished? ch) = []

structure NvmeCmdPriv.Narrow (p : NvmeCmdPriv) : Prop where
  buf : p.xferBuf < 2 ^ 32
  block : p.block.data < 2 ^ 32

/-- Local addresses are 32-bit words. -/
structure Narrow (s : Fw) : Prop where
  cmds : ∀ c, (s.cmds c).Narrow
  queued : ∀ ch d p, .queued ch d p ∈ s.trace → ∀ a, d.localAddr = .ram a → a < 2 ^ 32
  apu : ∀ m ∈ s.apu, m.buf < 2 ^ 32

/-- An action of the firmware. -/
def Deed (P : Platform) (_ : Access) (s t : Fw) : Prop := MemKept P s t ∧ (Narrow s → Narrow t)

/-- Code of the firmware. -/
abbrev Deeds (P : Platform) {α : Type} (p : Code α) : Prop := p.Acts Narrow (Deed P)

/-- Events that are neither submissions nor transfers. -/
def Obs.Aloof : Obs → Prop
  | .queued .. | .finished .. => False
  | _ => True

section Kinds

variable {P : Platform} {l : Access} {s t u : Fw}

theorem MemKept.refl (s : Fw) : MemKept P s s := ⟨rfl, fun _ _ => rfl, [], rfl, fun _ => rfl⟩

theorem MemKept.trans (h : MemKept P s t) (g : MemKept P t u) : MemKept P s u := by
  obtain ⟨new, old, none⟩ := h.trace
  obtain ⟨new', old', none'⟩ := g.trace
  refine ⟨g.host.trans h.host, fun a fixed => (g.ram a fixed).trans (h.ram a fixed), new' ++ new, ?_, fun ch => ?_⟩
  · rw [old', old, List.append_assoc]
  · rw [List.filterMap_append, none', none]
    rfl

theorem deed_refl (l : Access) (s : Fw) : Deed P l s s := ⟨.refl s, id⟩

theorem Obs.Aloof.finished {o : Obs} (h : o.Aloof) (ch : Chan) : o.finished? ch = none := by
  cases o <;> first | rfl | exact h.elim

/-- An action that submits nothing. -/
theorem deed_of (host : t.host = s.host) (ram : ∀ a, P.Fixed a → t.ram a = s.ram a)
    (cmds : ∀ c, (s.cmds c).Narrow → (t.cmds c).Narrow) (apu : ∀ m ∈ t.apu, m ∈ s.apu ∨ m.buf < 2 ^ 32)
    (trace : t.trace = s.trace ∨ ∃ o : Obs, t.trace = o :: s.trace ∧ o.Aloof) : Deed P l s t := by
  have narrow (queued : ∀ ch d p, .queued ch d p ∈ t.trace → .queued ch d p ∈ s.trace) (h : Narrow s) : Narrow t :=
    ⟨fun c => cmds c (h.cmds c), fun ch d p mem => h.queued ch d p (queued ch d p mem),
      fun m mem => (apu m mem).elim (h.apu m) id⟩
  rcases trace with same | ⟨o, more, aloof⟩
  · exact ⟨⟨host, ram, [], same, fun _ => rfl⟩, narrow fun _ _ _ mem => same ▸ mem⟩
  · refine ⟨⟨host, ram, [o], more, fun ch => List.filterMap_cons_none (aloof.finished ch)⟩, narrow fun ch d p mem => ?_⟩
    rw [more] at mem
    rcases List.mem_cons.mp mem with rfl | old
    · exact aloof.elim
    · exact old

/-- An action on neither the memories nor the records. -/
theorem deed_aside (host : t.host = s.host) (ram : t.ram = s.ram) (cmds : t.cmds = s.cmds) (apu : t.apu = s.apu)
    (trace : t.trace = s.trace ∨ ∃ o : Obs, t.trace = o :: s.trace ∧ o.Aloof) : Deed P l s t :=
  deed_of host (fun _ _ => congrFun ram _) (fun _ h => cmds ▸ h) (fun _ mem => .inl (apu ▸ mem)) trace

theorem deed_record (c : Slot) {p : NvmeCmdPriv} (host : t.host = s.host) (ram : t.ram = s.ram)
    (cmds : t.cmds = Function.update s.cmds c p) (narrow : (s.cmds c).Narrow → p.Narrow) (apu : t.apu = s.apu)
    (trace : t.trace = s.trace ∨ ∃ o : Obs, t.trace = o :: s.trace ∧ o.Aloof) : Deed P l s t := by
  refine deed_of host (fun _ _ => congrFun ram _) (fun d h => ?_) (fun _ mem => .inl (apu ▸ mem)) trace
  rw [cmds]
  by_cases own : d = c
  · subst own
    rw [Function.update_self]
    exact narrow h
  · rwa [Function.update_of_ne own]

theorem deed_setCmd {c : Slot} {f : NvmeCmdPriv → NvmeCmdPriv} (narrow : ∀ p, p.Narrow → (f p).Narrow) :
    Deed P l s (s.setCmd c f) := deed_record c rfl rfl rfl (narrow _) rfl (.inl rfl)

theorem deed_put {ch : Chan} {d : Desc} (narrow : ∀ a, d.localAddr = .ram a → a < 2 ^ 32) : Deed P l s (s.put ch d) := by
  refine ⟨⟨rfl, fun _ _ => rfl, [.queued ch d (s.cmds d.owner)], rfl, fun ch => rfl⟩, fun h => ⟨h.cmds, ?_, h.apu⟩⟩
  intro ch' d' p mem a loc
  rcases List.mem_cons.mp mem with new | old
  · cases new
    exact narrow a loc
  · exact h.queued ch' d' p old a loc

theorem Deed.trans (h : Deed P l s t) (g : Deed P l t u) : Deed P l s u := ⟨h.1.trans g.1, g.2 ∘ h.2⟩

theorem deed_setTc (s : Fw) (f : NvmeTcPriv → NvmeTcPriv) : Deed P l s (s.setTc f) := deed_aside rfl rfl rfl rfl (.inl rfl)

theorem deed_sysWrite32 (s : Fw) (reg value : Nat) : Deed P l s (s.sysWrite32 reg value) :=
  deed_aside rfl rfl rfl rfl (.inl rfl)

theorem deed_get (s : Fw) (ch : Chan) : Deed P l s (s.get ch) := by
  unfold Fw.get
  split
  · exact deed_refl l s
  · exact deed_aside rfl rfl rfl rfl (.inr ⟨_, rfl, trivial⟩)

end Kinds

section Commands

variable (P : Platform) (c : Slot)

theorem deeds_look {α β : Type} {l : Access} {f : Fw → α} {g : α → Code β} (h : ∀ s, Narrow s → Deeds P (g (f s))) :
    Deeds P (Prog.look l f >>= g) := Prog.acts_look_bind (deed_refl l) h

theorem deeds_ofCmd {α β : Type} {f : NvmeCmdPriv → α} {g : α → Code β} (h : ∀ p, p.Narrow → Deeds P (g (f p))) :
    Deeds P (ofCmd c f >>= g) := deeds_look P fun _ narrow => h _ (narrow.cmds c)

theorem deeds_setCmd {f : NvmeCmdPriv → NvmeCmdPriv} (narrow : ∀ p, p.Narrow → (f p).Narrow) : Deeds P (setCmd c f) :=
  Prog.acts_change fun _ => deed_setCmd narrow

theorem deeds_lose (why : Loss) : Deeds P (lose c why) :=
  Prog.acts_change fun _ => deed_aside rfl rfl rfl rfl (.inr ⟨_, rfl, trivial⟩)

theorem deeds_loseUnless (ok : Bool) (why : Loss) : Deeds P (loseUnless ok c why) :=
  Prog.acts_when fun _ => deeds_lose P c why

theorem deeds_nvmeDmaXfer {ch : Chan} {tag host : Nat} {loc : Local} {len : Nat} {callback : Option (Cb × Slot)}
    (narrow : ∀ a, loc = .ram a → a < 2 ^ 32) : Deeds P (nvmeDmaXfer P ch tag host loc len callback c) :=
  (over_nvmeDmaXfer P c (C := fun _ => False) ch tag host loc len callback (fun _ _ _ _ => deed_aside rfl rfl rfl rfl (.inl rfl))
    (fun _ => deed_aside rfl rfl rfl rfl (.inr ⟨_, rfl, trivial⟩)) fun _ _ _ => deed_put narrow).acts (fun _ _ _ h => h)
    fun _ => False.elim

theorem deeds_nvmeTcGetCqAddr (q : QId) : Deeds P (nvmeTcGetCqAddr q) := by
  refine deeds_look P fun _ _ => deeds_look P fun _ _ => ?_
  refine Prog.acts_ite (fun _ => Prog.acts_stuck) fun _ => deeds_look P fun _ _ => ?_
  refine Prog.acts_ite (fun _ => ?_) fun _ => Prog.acts_pure _
  refine deeds_look P fun _ _ => Prog.acts_bind ?_ fun _ => deeds_look P fun _ _ => deeds_look P fun _ _ => ?_
  · exact Prog.acts_when fun _ => deeds_look P fun _ _ => Prog.acts_change fun _ => deed_aside rfl rfl rfl rfl (.inl rfl)
  · exact Prog.acts_bind (Prog.acts_change fun _ => deed_aside rfl rfl rfl rfl (.inl rfl)) fun _ => Prog.acts_pure _

theorem deeds_nvmeCmdReturn : Deeds P (nvmeCmdReturn P c) := by
  refine deeds_ofCmd P c fun _ _ => Prog.acts_bind (deeds_nvmeTcGetCqAddr P _) fun cqAddr => ?_
  refine Prog.acts_ite (fun _ => deeds_lose P c _) fun _ => deeds_look P fun _ _ => ?_
  refine Prog.acts_bind (deeds_setCmd P c fun _ h => ⟨h.buf, h.block⟩) fun _ => ?_
  exact Prog.acts_bind (deeds_nvmeDmaXfer P c (by simp)) fun ok => deeds_loseUnless P c ok _

theorem deeds_transferChunk {host addr len : Nat} (narrow : addr < 2 ^ 32) : Deeds P (transferChunk P c host addr len) := by
  have here : ∀ a, Local.ram addr = .ram a → a < 2 ^ 32 := by
    intro a same
    cases same
    exact narrow
  refine deeds_ofCmd P c fun _ _ => deeds_ofCmd P c fun _ _ => Prog.acts_bind ?_ fun ok => ?_
  · exact Prog.acts_ite (fun _ => deeds_nvmeDmaXfer P c here) fun _ => deeds_nvmeDmaXfer P c here
  · refine Prog.acts_bind (Prog.acts_when fun _ => deeds_loseUnless P c ok _) fun _ => Prog.acts_bind ?_ fun _ => ?_
    · exact deeds_setCmd P c fun _ h => ⟨h.buf, h.block⟩
    · exact deeds_setCmd P c fun _ h => ⟨Nat.mod_lt _ (by decide), h.block⟩

theorem deeds_prpEntry (b i : Nat) : Deeds P (prpEntry P b i) :=
  Prog.acts_ite (fun _ => Prog.acts_look_bind (deed_refl _) fun _ _ => Prog.acts_pure _) fun _ => Prog.acts_stuck

theorem deeds_prpFetch (b host mps : Nat) : Deeds P (prpFetch P c b host mps) := by
  refine Prog.acts_bind (deeds_setCmd P c fun _ h => ⟨h.buf, h.block⟩) fun _ => deeds_ofCmd P c fun _ _ => ?_
  exact Prog.acts_bind (deeds_nvmeDmaXfer P c (by simp)) fun ok => deeds_loseUnless P c ok _

theorem deeds_prpLoop (b mps prpSize fuel i : Nat) : Deeds P (prpLoop P c b mps prpSize fuel i) := by
  induction fuel generalizing i with
  | zero => exact Prog.acts_stuck
  | succ fuel ih =>
    refine deeds_ofCmd P c fun _ _ => Prog.acts_ite (fun _ => Prog.acts_ite (fun _ => ?_) fun _ => ?_) fun _ => ?_
    · exact Prog.acts_bind (deeds_prpEntry P b i) fun link => deeds_prpFetch P c b link mps
    · refine Prog.acts_bind (deeds_prpEntry P b i) fun host => deeds_ofCmd P c fun _ narrow => ?_
      exact Prog.acts_bind (deeds_transferChunk P c narrow.buf) fun _ => ih (i + 1)
    · exact Prog.acts_change fun _ => deed_aside rfl rfl rfl rfl (.inr ⟨_, rfl, trivial⟩)

theorem deeds_prpCb (loc : Local) : Deeds P (prpCb P c loc) := by
  cases loc with
  | prp b =>
    refine deeds_look P fun _ _ => deeds_ofCmd P c fun _ _ => deeds_ofCmd P c fun _ _ => ?_
    exact Prog.acts_ite (fun _ => Prog.acts_stuck) fun _ => deeds_prpLoop P c b _ _ _ _
  | _ => exact Prog.acts_stuck

theorem deeds_transferDataWithPrps : Deeds P (transferDataWithPrps P c) := by
  refine deeds_ofCmd P c fun _ _ => deeds_look P fun _ _ => Prog.acts_ite (fun _ => Prog.acts_stuck) fun _ => ?_
  refine deeds_ofCmd P c fun _ _ => deeds_ofCmd P c fun _ narrow => ?_
  refine Prog.acts_bind (deeds_transferChunk P c narrow.buf) fun _ => deeds_ofCmd P c fun _ _ => ?_
  refine Prog.acts_ite (fun _ => Prog.acts_pure _) fun _ => Prog.acts_ite (fun _ => ?_) fun _ => ?_
  · refine Prog.acts_swap_bind (fun s => ?_) fun s => ?_
    · rcases alloc : P.kMemSlabAlloc s.prpSlab s.clock with ⟨_ | b, slab⟩
      · exact deed_aside rfl rfl rfl rfl (.inr ⟨_, rfl, trivial⟩)
      · exact deed_aside rfl rfl rfl rfl (.inr ⟨_, rfl, trivial⟩)
    · rcases alloc : P.kMemSlabAlloc s.prpSlab s.clock with ⟨_ | b, slab⟩
      · exact deeds_nvmeCmdReturn P c
      · refine deeds_ofCmd P c fun _ _ => Prog.acts_bind (deeds_prpFetch P c b _ _) fun _ => ?_
        exact deeds_ofCmd P c fun _ _ => Prog.acts_pure _
  · exact deeds_ofCmd P c fun _ _ => deeds_ofCmd P c fun _ _ => deeds_ofCmd P c fun _ narrow =>
      deeds_transferChunk P c narrow.buf

theorem deeds_nvmeCmdTransferData : Deeds P (nvmeCmdTransferData P c) := by
  refine deeds_ofCmd P c fun _ _ => Prog.acts_ite (fun _ => Prog.acts_pure _) fun _ => ?_
  exact Prog.acts_bind (deeds_transferDataWithPrps P c) fun _ => Prog.acts_pure _

theorem deeds_setXfer {buf len : Nat} {dir : Dir} {cb : Cb} (narrow : buf < 2 ^ 32) : Deeds P (setXfer c buf len dir cb) :=
  deeds_setCmd P c fun _ h => ⟨narrow, h.block⟩

/-- Both `nvme_cmd_get_data` and `nvme_cmd_return_data`. -/
theorem deeds_transfer {buf len : Nat} {dir : Dir} {cb : Cb} (narrow : buf < 2 ^ 32) :
    Deeds P
      (do setXfer c buf len dir cb
          let rejected ← nvmeCmdTransferData P c
          .when rejected (nvmeCmdReturn P c) : Code Unit) := by
  refine Prog.acts_bind (deeds_setXfer P c narrow) fun _ => Prog.acts_bind (deeds_nvmeCmdTransferData P c) fun _ => ?_
  exact Prog.acts_when fun _ => deeds_nvmeCmdReturn P c

end Commands

section Responses

theorem pokes_elsewhere (ram : Nat → UInt8) {addr a : Nat} (bytes : List UInt8) (clear : a < addr ∨ addr + bytes.length ≤ a) :
    pokes ram addr bytes a = ram a := by
  induction bytes generalizing ram addr with
  | nil => rfl
  | cons b rest ih =>
    rw [List.length_cons] at clear
    rw [pokes, ih _ (by omega), Function.update_of_ne (by omega)]

theorem writes_elsewhere (ram : Nat → UInt8) {base a : Nat} (writes : List (Nat × List UInt8))
    (clear : ∀ w ∈ writes, a < base + w.1 ∨ base + w.1 + w.2.length ≤ a) :
    writes.foldl (fun ram w => pokes ram (base + w.1) w.2) ram a = ram a := by
  induction writes generalizing ram with
  | nil => rfl
  | cons w rest ih =>
    rw [List.foldl_cons, ih _ fun x mem => clear x (List.mem_cons_of_mem _ mem)]
    exact pokes_elsewhere ram w.2 (clear w List.mem_cons_self)

variable (P : Platform) (c : Slot)

theorem deeds_fillResp (b : RespBuf) {size : Nat} (fits : size ≤ nvmeCmdIdentifyRespSize) : Deeds P (fillResp P b size) := by
  refine Prog.acts_change fun s => deed_of rfl (fun a fixed => ?_) (fun _ h => h) (fun _ mem => .inl mem) (.inl rfl)
  obtain ⟨buffer, fields⟩ := fixed b
  have zeroed : copyTo s.ram (P.respBuf b) size (fun _ => 0) a = s.ram a := by
    rw [copyTo, if_neg (by omega)]
  exact (writes_elsewhere _ _ fields).trans zeroed

variable {P} (words : ∀ b, P.respBuf b < 2 ^ 32)
include words

theorem deeds_identifyWith (b : RespBuf) : Deeds P (identifyWith P b c) :=
  Prog.acts_bind (deeds_fillResp P b le_rfl) fun _ => deeds_transfer P c (words b)

theorem deeds_nvmeCmdAdmIdentify : Deeds P (nvmeCmdAdmIdentify P c) := by
  refine deeds_ofCmd P c fun _ _ => ?_
  split
  · exact deeds_identifyWith c words _
  · exact deeds_identifyWith c words _
  · exact deeds_identifyWith c words _
  · exact deeds_identifyWith c words _
  · exact deeds_nvmeCmdReturn P c

theorem deeds_nvmeCmdAdmGetLog : Deeds P (nvmeCmdAdmGetLog P c) := by
  refine deeds_ofCmd P c fun _ _ => deeds_ofCmd P c fun _ _ => ?_
  split
  · exact Prog.acts_bind (deeds_fillResp P .smart (by decide)) fun _ => deeds_transfer P c (words .smart)
  · exact deeds_nvmeCmdReturn P c

end Responses

section Handlers

variable (P : Platform) (c : Slot)

theorem deeds_sendCmd : Deeds P (sendCmd P c) := by
  refine deeds_ofCmd P c fun p narrow => Prog.acts_swap_bind (fun _ => deed_aside rfl rfl rfl rfl (.inl rfl)) fun _ => ?_
  refine Prog.acts_ite (fun _ => deeds_lose P c _) fun _ => Prog.acts_swap_bind (fun s => ?_) fun _ => deeds_loseUnless P c _ _
  dsimp only
  split
  · refine deed_of rfl (fun _ _ => rfl) (fun _ h => h) (fun m mem => ?_) (.inr ⟨_, rfl, trivial⟩)
    rcases List.mem_append.mp mem with old | new
    · exact .inl old
    · rw [List.mem_singleton.mp new]
      exact .inr narrow.block
  · exact deed_aside rfl rfl rfl rfl (.inl rfl)

theorem deeds_bufferAlloc {size : Nat} (pos : 0 < size) : Deeds P (bufferAlloc P c size) := by
  refine fun s _ => ⟨?_, trivial⟩
  dsimp only
  split
  · rename_i b n pick
    obtain ⟨le, -, top⟩ := P.poolPick_size _ _ _ _ _ pick
    exact deed_record c rfl rfl rfl (fun h => ⟨h.buf, by dsimp only; omega⟩) rfl (.inr ⟨_, rfl, trivial⟩)
  · exact deed_aside rfl rfl rfl rfl (.inl rfl)

theorem deeds_vendorTransfer (dir size : Nat) : Deeds P (vendorTransfer P c dir size) := by
  refine Prog.acts_ite (fun _ => deeds_sendCmd P c) fun _ => deeds_ofCmd P c fun _ narrow => ?_
  refine Prog.acts_bind (deeds_setXfer P c narrow.block) fun _ => Prog.acts_bind (deeds_nvmeCmdTransferData P c) fun _ => ?_
  exact Prog.acts_when fun _ => deeds_lose P c _

theorem deeds_nvmeCmdVendor (zeroBased : Bool) : Deeds P (nvmeCmdVendor P c zeroBased) := by
  refine deeds_ofCmd P c fun _ _ => Prog.acts_bind (Prog.acts_when fun _ => ?_) fun _ => deeds_ofCmd P c fun _ _ => ?_
  · exact deeds_setCmd P c fun _ h => ⟨h.buf, h.block⟩
  · refine Prog.acts_ite (fun direction => ?_) fun _ => deeds_vendorTransfer P c _ _
    refine Prog.acts_bind (deeds_bufferAlloc P c direction.2.1) fun ok => ?_
    exact Prog.acts_ite (fun _ => deeds_vendorTransfer P c _ _) fun _ => deeds_lose P c _

theorem deeds_nvmeCmdAdmSetFeatures : Deeds P (nvmeCmdAdmSetFeatures P c) := by
  refine deeds_ofCmd P c fun _ _ => Prog.acts_bind (Prog.acts_when fun _ => ?_) fun _ => deeds_nvmeCmdReturn P c
  exact Prog.acts_change fun _ => deed_record c rfl rfl rfl (fun h => ⟨h.buf, h.block⟩) rfl (.inl rfl)

theorem deeds_queueCommand {update : NvmeCmdPriv → QId → Fw → Fw} (queue : QueueUpdate update) :
    Deeds P (queueCommand P c update) := by
  refine deeds_ofCmd P c fun p _ => Prog.acts_ite (fun _ => deeds_nvmeCmdReturn P c) fun _ => ?_
  split
  · refine Prog.acts_bind (Prog.acts_change fun _ => ?_) fun _ => deeds_nvmeCmdReturn P c
    cases queue with
    | createSq => exact deed_aside rfl rfl rfl rfl (.inr ⟨_, rfl, trivial⟩)
    | createCq => exact deed_aside rfl rfl rfl rfl (.inr ⟨_, rfl, trivial⟩)
    | deleteSq => exact deed_aside rfl rfl rfl rfl (.inl rfl)
    | deleteCq => exact deed_aside rfl rfl rfl rfl (.inl rfl)
  · exact Prog.acts_stuck

/-- Both functions that look up a block answer with an address in the ramdisk or none. -/
theorem deeds_ioCommand {address : Nat → Nat → Nat} {move : Slot → Nat → Nat → Code Unit}
    (inside : ∀ lba nlb, address lba nlb < 2 ^ 32) (h : ∀ buf len, buf < 2 ^ 32 → Deeds P (move c buf len)) :
    Deeds P (ioCommand P address move c) := by
  refine deeds_ofCmd P c fun _ _ => deeds_ofCmd P c fun _ _ => ?_
  exact Prog.acts_ite (fun _ => h _ _ (inside _ _)) fun _ => deeds_nvmeCmdReturn P c

theorem block_lt {lba : Nat} (le : lba ≤ blkCnt) : ramdiskBuffer + lba * blkSize % 2 ^ 32 < 2 ^ 32 := by
  have cnt : blkCnt = 786432 := rfl
  have size : blkSize = 512 := rfl
  have base : ramdiskBuffer = 1744830464 := rfl
  rw [cnt] at le
  rw [size, base]
  omega

theorem ramdiskRead_lt (lba nlb : Nat) : ramdiskRead lba nlb < 2 ^ 32 := by
  rw [ramdiskRead]
  split
  · exact block_lt ‹_›
  · exact Nat.two_pow_pos 32

theorem ramdiskWrite_lt (lba nlb : Nat) : ramdiskWrite lba nlb < 2 ^ 32 := by
  rw [ramdiskWrite]
  split
  · rename_i range
    exact block_lt range.1
  · exact Nat.two_pow_pos 32

theorem deeds_handleIo : Deeds P (handleIo P c) := by
  refine deeds_ofCmd P c fun _ _ => ?_
  split
  · exact deeds_nvmeCmdReturn P c
  · exact deeds_ioCommand P c ramdiskWrite_lt fun _ _ narrow => deeds_transfer P c narrow
  · exact deeds_ioCommand P c ramdiskRead_lt fun _ _ narrow => deeds_transfer P c narrow
  · exact Prog.acts_ite (fun _ => deeds_nvmeCmdVendor P c false) fun _ => deeds_nvmeCmdReturn P c

theorem deeds_kMemPoolFree : Deeds P (kMemPoolFree c) :=
  Prog.acts_change fun _ => deed_aside rfl rfl rfl rfl (.inr ⟨_, rfl, trivial⟩)

theorem deeds_rpmsgEndpointCb {m : RpmsgPayload} (narrow : m.buf < 2 ^ 32) : Deeds P (rpmsgEndpointCb P m) := by
  refine Prog.acts_ite (fun _ => ?_) fun _ => Prog.acts_ite (fun _ => ?_) fun _ => deeds_lose P _ _
  · refine Prog.acts_bind (deeds_nvmeCmdReturn P _) fun _ => deeds_ofCmd P _ fun _ _ => ?_
    exact Prog.acts_when fun _ => deeds_kMemPoolFree P _
  · refine deeds_ofCmd P _ fun _ _ => Prog.acts_bind (deeds_setXfer P _ narrow) fun _ => ?_
    refine Prog.acts_ite (fun _ => deeds_nvmeCmdReturn P _) fun _ => ?_
    exact Prog.acts_bind (deeds_nvmeCmdTransferData P _) fun _ => Prog.acts_pure _

variable {P} (words : ∀ b, P.respBuf b < 2 ^ 32)
include words

theorem deeds_handleAdm : Deeds P (handleAdm P c) := by
  refine deeds_ofCmd P c fun _ _ => ?_
  split
  · exact deeds_nvmeCmdAdmGetLog c words
  · exact deeds_nvmeCmdAdmIdentify c words
  · exact deeds_nvmeCmdAdmSetFeatures P c
  · exact deeds_queueCommand P c .createSq
  · exact deeds_queueCommand P c .createCq
  · exact deeds_queueCommand P c .deleteSq
  · exact deeds_queueCommand P c .deleteCq
  · exact deeds_nvmeCmdVendor P c false
  · exact deeds_nvmeCmdVendor P c true
  · exact Prog.acts_ite (fun _ => deeds_nvmeCmdVendor P c false) fun _ => deeds_nvmeCmdReturn P c

theorem deeds_callback (f : Cb) (loc : Local) : Deeds P (callback P f c loc) := by
  cases f with
  | nvmeCmdHandler =>
    refine Prog.acts_bind (Prog.acts_change fun _ => ?_) fun _ => deeds_ofCmd P c fun _ _ => ?_
    · exact deed_record c rfl rfl rfl (fun h => ⟨h.buf, h.block⟩) rfl (.inr ⟨_, rfl, trivial⟩)
    · exact Prog.acts_ite (fun _ => deeds_handleAdm c words) fun _ => deeds_handleIo P c
  | cqCb =>
    refine deeds_ofCmd P c fun _ _ => Prog.acts_bind (Prog.acts_change fun _ => ?_) fun _ => Prog.acts_change fun _ => ?_
    · exact deed_aside rfl rfl rfl rfl (.inl rfl)
    · exact deed_aside rfl rfl rfl rfl (.inr ⟨_, rfl, trivial⟩)
  | nvmeCmdReturnCb => exact deeds_nvmeCmdReturn P c
  | prpCb => exact deeds_prpCb P c loc
  | vendorCb => exact deeds_sendCmd P c
  | rpmsgCmdReturnCb => exact Prog.acts_bind (deeds_kMemPoolFree P c) fun _ => deeds_nvmeCmdReturn P c

theorem deeds_runDesc (d : Option Desc) : Deeds P (runDesc (callback P) d) := by
  cases d with
  | none => exact Prog.acts_pure _
  | some d =>
    refine Prog.acts_bind ?_ fun _ => Prog.acts_change fun _ => deed_aside rfl rfl rfl rfl (.inr ⟨_, rfl, trivial⟩)
    unfold runCallback
    split
    · exact deeds_callback _ words _ _
    · exact Prog.acts_pure _

theorem deeds_nvmeDmaComplete (ch : Chan) : Deeds P (nvmeDmaComplete (callback P) ch) := by
  refine Prog.acts_swap_bind (fun s => deed_get s ch) fun s => Prog.acts_bind (deeds_runDesc words _) fun _ => ?_
  exact Prog.acts_change fun _ => deed_aside rfl rfl rfl rfl (.inl rfl)

theorem deeds_nvmeDmaIrqHandler : Deeds P (nvmeDmaIrqHandler (callback P)) := by
  refine Prog.acts_swap_bind (fun _ => deed_aside rfl rfl rfl rfl (.inl rfl)) fun _ =>
    Prog.acts_swap_bind (fun _ => deed_aside rfl rfl rfl rfl (.inl rfl)) fun _ => ?_
  refine Prog.acts_bind (Prog.acts_when fun _ => deeds_nvmeDmaComplete words .rx) fun _ => ?_
  exact Prog.acts_when fun _ => deeds_nvmeDmaComplete words .tx

end Handlers

section Steps

variable {P : Platform} {l : Access} {s t : Fw} {S T : Sys}

theorem deed_ccHandler (s : Fw) : Deed P l s s.ccHandler := by
  unfold Fw.ccHandler
  dsimp only
  split
  · exact (deed_setTc _ _).trans ((deed_setTc _ _).trans (deed_sysWrite32 _ _ _))
  · split
    · exact (deed_setTc _ _).trans ((deed_setTc _ _).trans (deed_sysWrite32 _ _ _))
    · exact (deed_setTc _ _).trans (deed_sysWrite32 _ _ _)

theorem TcAct.deed (act : TcAct l s t) : Deed P l s t := by
  cases act with
  | cc => exact deed_ccHandler s
  | _ => exact deed_aside rfl rfl rfl rfl (.inl rfl)

theorem FetchAct.deed (act : FetchAct P l s t) : Deed P l s t := by
  cases act with
  | look => exact deed_refl _ s
  | advance => exact deed_aside rfl rfl rfl rfl (.inl rfl)
  | fill => exact deed_aside rfl rfl rfl rfl (.inl rfl)
  | cmdAlloc => exact deed_record _ rfl rfl rfl (fun _ => ⟨Nat.two_pow_pos 32, Nat.two_pow_pos 32⟩) rfl (.inr ⟨_, rfl, trivial⟩)
  | fetch _ _ loc => exact deed_put (by simp [loc])
  | _ => exact deed_aside rfl rfl rfl rfl (.inr ⟨_, rfl, trivial⟩)

theorem Deed.since {u : Fw} (deed : Deed P l t u) (h : MemKept P s t ∧ Narrow t) : MemKept P s u ∧ Narrow u :=
  ⟨h.1.trans deed.1, deed.2 h.2⟩

/-- What code of the firmware has done since `s`. -/
theorem Deeds.since {α : Type} {p : Code α} {a : α} (h : Deeds P p) (narrow : Narrow s) (run : p.run s = some (a, t)) :
    MemKept P s t ∧ Narrow t :=
  h.run (I := fun t => MemKept P s t ∧ Narrow t) (fun _ h => h.2) (fun _ _ _ deed => deed.since) ⟨.refl s, narrow⟩ run

theorem tcIrq_since (fit : Fitted s) (narrow : Narrow s) (run : (nvmeTcIrqHandler P).run s = some ((), t)) :
    MemKept P s t ∧ Narrow t := by
  have fitted := fitted_closed (P := P)
  refine (Prog.Over.run (I := fun t => (MemKept P s t ∧ Narrow t) ∧ Fitted t) (made_nvmeTcIrqHandler P) (fun _ h => h.2)
    (fun l u v act h => ⟨Deed.since (TcAct.deed (P := P) act) h.1, fitted.tc l u v act h.2⟩) ?_ ⟨⟨.refl s, narrow⟩, fit⟩ run).1
  rintro _ u v ⟨q, rfl⟩ fetch hu
  exact (acts_nvmeTcFetch P q).run (I := fun t => (MemKept P s t ∧ Narrow t) ∧ Fitted t) (fun _ h => h.2)
    (fun l u v act h => ⟨act.deed.since h.1, fitted.fetch l u v act h.2⟩) hu fetch

/-- The records and what is left of a call name 32-bit addresses. -/
structure Sys.Narrow (P : Platform) (S : Sys) : Prop where
  fw : AlkaliFw.Narrow S.fw
  call : ∀ call, S.call = some call → Deeds P call.rest

/-- An event that is not a write to one of the memories. -/
def Event.calm : Event → Bool
  | .hostStore .. | .apuStore .. | .dmaDone _ => false
  | _ => true

theorem narrow_finish {ch : Chan} (finish : s.finish P ch = some t) (h : Narrow s) : Narrow t := by
  obtain ⟨d, done⟩ := Fw.finished_of_finish finish
  obtain ⟨host, ram, prpMem, cmds, same⟩ := done.state
  refine ⟨fun c => ?_, fun ch' d' p mem => ?_, ?_⟩
  · rcases done.cmds c with kept | ⟨-, -, fetched⟩
    · exact kept ▸ h.cmds c
    · exact fetched ▸ ⟨(h.cmds c).buf, (h.cmds c).block⟩
  · rw [done.trace] at mem
    rcases List.mem_cons.mp mem with new | old
    · cases new
    · exact h.queued ch' d' p old
  · rw [same]
    exact h.apu

theorem begins_deeds {call : Call} {rest : Code Unit} {next : Option Call} (h : call.next l rest = some next) (code : Deeds P rest) :
    ∀ call', next = some call' → Deeds P call'.rest := by
  intro call' e
  rcases Call.next_rest h with ⟨none, -⟩ | ⟨_, some', -, -, same⟩
  · rw [none] at e
    cases e
  · obtain rfl := Option.some.inj (some'.symm.trans e)
    rw [same]
    exact code

variable (words : ∀ b, P.respBuf b < 2 ^ 32)
include words

theorem Sys.Narrow.step {e : Event} (h : S.Narrow P) (sound : S.Sound P) (step : S.step P e = some T) :
    T.Narrow P ∧ (e.calm = true → MemKept P S.fw T.fw) := by
  rcases Sys.step_cases step with ⟨fw, env, rfl⟩ | ⟨i, withData, rfl, start⟩ | ⟨rfl, poll⟩
  · suffices both : AlkaliFw.Narrow fw ∧ (e.calm = true → MemKept P S.fw fw) from ⟨⟨both.1, h.call⟩, both.2⟩
    cases e with
    | hostWrite reg value =>
      cases env
      exact ⟨⟨h.fw.cmds, h.fw.queued, h.fw.apu⟩, fun _ => ⟨rfl, fun _ _ => rfl, [], rfl, fun _ => rfl⟩⟩
    | hostStore addr bytes =>
      cases env
      exact ⟨⟨h.fw.cmds, h.fw.queued, h.fw.apu⟩, fun calm => absurd calm Bool.false_ne_true⟩
    | apuStore addr bytes =>
      cases env
      exact ⟨⟨h.fw.cmds, h.fw.queued, h.fw.apu⟩, fun calm => absurd calm Bool.false_ne_true⟩
    | dmaDone ch => exact ⟨narrow_finish env h.fw, fun calm => absurd calm Bool.false_ne_true⟩
    | tcIrq =>
      obtain ⟨⟨⟨⟩, _⟩, run, rfl⟩ := Option.map_eq_some_iff.mp env
      have all := tcIrq_since sound.fitted h.fw run
      exact ⟨all.2, fun _ => all.1⟩
    | dmaIrq =>
      obtain ⟨⟨⟨⟩, _⟩, run, rfl⟩ := Option.map_eq_some_iff.mp env
      have all := (deeds_nvmeDmaIrqHandler words).since h.fw run
      exact ⟨all.2, fun _ => all.1⟩
    | reply i withData => cases env
    | poll => cases env
  · unfold Sys.startCall at start
    split at start
    · rename_i m none here
      obtain ⟨next, begins, rfl⟩ := Option.map_eq_some_iff.mp start
      have mem : m ∈ S.fw.apu := List.mem_of_getElem? here
      have code : Deeds P (rpmsgEndpointCb P { m with id := if withData then rpmsgCmdReturnDataId else rpmsgCmdReturn }) :=
        deeds_rpmsgEndpointCb P (h.fw.apu m mem)
      refine ⟨⟨⟨h.fw.cmds, h.fw.queued, fun m mem => h.fw.apu m (List.mem_of_mem_eraseIdx mem)⟩, ?_⟩,
        fun _ => ⟨rfl, fun _ _ => rfl, [], rfl, fun _ => rfl⟩⟩
      exact begins_deeds begins code
    · cases start
  · obtain ⟨call, l, f, k, e, rest, fw, next⟩ := Sys.pollStep_act poll
    have code := h.call call e
    rw [rest] at code
    obtain ⟨deed, remaining⟩ := code S.fw h.fw
    rw [← fw] at deed
    exact ⟨⟨deed.2 h.fw, begins_deeds next remaining⟩, fun _ => deed.1⟩

end Steps
end AlkaliFw
