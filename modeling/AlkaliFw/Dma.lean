import AlkaliFw.Types

/-! `dma.c`: descriptors queued per direction, one of them programmed in the hardware at a
time, and the interrupt handler that runs the callback of a finished one. -/

namespace AlkaliFw
open Resumption

namespace Fw

/-- `k_fifo_put`, and `nvme_dma_setup_xfer` when the channel is idle; the source does both
with interrupts locked. -/
def put (s : Fw) (ch : Chan) (d : Desc) : Fw :=
  (s.setCh ch fun c =>
    { c with
      fifo := c.fifo ++ [d]
      running := true
      programmed := if c.running then c.programmed else some d }).note
    (.queued ch d (s.cmds d.owner))

/-- `k_fifo_get`. -/
def get (s : Fw) (ch : Chan) : Fw :=
  match (s.ch ch).fifo with
  | [] => s
  | d :: rest => (s.setCh ch fun c => { c with fifo := rest }).note (.called ch d)

/-- Start the next transfer, or note that the channel is idle. -/
def restart (s : Fw) (ch : Chan) : Fw :=
  s.setCh ch fun c =>
    match c.fifo with
    | [] => { c with running := false }
    | d :: _ => { c with programmed := some d }

end Fw

section Submit

variable (P : Platform)

def nvmeDmaXferFillDesc (hostAddr : Nat) (localAddr : Local) (len tag : Nat)
    (callback : Option (Cb × Slot)) (owner : Slot) : Code (Option Desc) :=
  .swap .other fun s =>
    let got := P.descSlabAlloc s.descSlab s.clock
    let t := { s with descSlab := got.2, clock := s.clock + 1 }
    match got.1 with
    | some block =>
      (some ⟨callback, hostAddr, localAddr, len, tag, block, owner, (s.cmds owner).qid⟩, t)
    | none => (none, t.note (.noDescriptor owner))

/-- Both submission functions: they differ in the channel and the tag. The answer is
whether the transfer was accepted (`-ENOMEM` otherwise). -/
def nvmeDmaXfer (ch : Chan) (tag : Nat) (hostAddr : Nat) (localAddr : Local) (len : Nat)
    (callback : Option (Cb × Slot)) (owner : Slot) : Code Bool := do
  let desc ← nvmeDmaXferFillDesc P hostAddr localAddr len tag callback owner
  match desc with
  | some d => do
    .change (.submit d.callback) (·.put ch d)
    pure true
  | none => pure false

def nvmeDmaXferHostToMem (src : Nat) (dst : Local) (len : Nat) (callback : Option (Cb × Slot))
    (owner : Slot) : Code Bool :=
  nvmeDmaXfer P .rx 0xAA src dst len callback owner

def nvmeDmaXferMemToHost (src : Local) (dst : Nat) (len : Nat) (callback : Option (Cb × Slot))
    (owner : Slot) : Code Bool :=
  nvmeDmaXfer P .tx 0x55 dst src len callback owner

end Submit

/-- A transfer is queued, or the descriptors are exhausted and nothing but the log changes. -/
theorem run_nvmeDmaXfer (P : Platform) (ch : Chan) (tag host : Nat) (loc : Local) (len : Nat)
    (callback : Option (Cb × Slot)) (owner : Slot) (s : Fw) :
    (∃ block slab,
      (nvmeDmaXfer P ch tag host loc len callback owner).run s = some (true,
        Fw.put { s with descSlab := slab, clock := s.clock + 1 } ch
          ⟨callback, host, loc, len, tag, block, owner, (s.cmds owner).qid⟩) ∧
      s.descSlab.used.length < P.nvmeDmaSlabEntries ∧ slab.used = block :: s.descSlab.used) ∨
    (nvmeDmaXfer P ch tag host loc len callback owner).run s = some (false,
        Fw.note { s with clock := s.clock + 1 } (.noDescriptor owner)) ∧
      P.nvmeDmaSlabEntries ≤ s.descSlab.used.length := by
  by_cases full : s.descSlab.used.length < P.nvmeDmaSlabEntries
  · have below : s.descSlab.used.length < kMemSlabMax := Nat.lt_of_lt_of_le full P.nvmeDmaSlabEntries_le
    have free := P.slabPick_free s.clock kMemSlabMax s.descSlab.used below
    refine .inl ⟨_, s.descSlab.add _ free, ?_, full, rfl⟩
    simp [nvmeDmaXfer, nvmeDmaXferFillDesc, Prog.run_bind, Platform.descSlabAlloc, Platform.kMemSlabAlloc, full, below]
  · refine .inr ⟨?_, Nat.not_lt.mp full⟩
    simp [nvmeDmaXfer, nvmeDmaXferFillDesc, Prog.run_bind, Platform.descSlabAlloc, full]

section Handler

variable (callback : Cb → Slot → Local → Code Unit)

/-- Reading the status register clears it. -/
def takeStatus (ch : Chan) : Code Bool :=
  .swap .other fun s => ((s.ch ch).valid, s.setCh ch fun c => { c with valid := false })

def runCallback (d : Desc) : Code Unit :=
  match d.callback with
  | some (cb, c) => callback cb c d.localAddr
  | none => pure ()

/-- Without a descriptor the interrupt was spurious. -/
def runDesc : Option Desc → Code Unit
  | some d => do
    runCallback callback d
    .change .other fun s => Fw.note { s with descSlab := s.descSlab.free d.desc } (.descFree d.desc)
  | none => pure ()

/-- The body of `nvme_dma_irq_handler` for one channel. -/
def nvmeDmaComplete (ch : Chan) : Code Unit := do
  let desc ← .swap .other fun s => ((s.ch ch).fifo.head?, s.get ch)
  runDesc callback desc
  .change .other (·.restart ch)

def nvmeDmaIrqHandler : Code Unit := do
  let readStatus ← takeStatus .rx
  let writeStatus ← takeStatus .tx
  .when readStatus (nvmeDmaComplete callback .rx)
  .when writeStatus (nvmeDmaComplete callback .tx)

end Handler

/-- Where the DMA engine may write: the ramdisk window and the buffer pool. Anything else
is memory of the firmware itself. -/
def Platform.Writable (P : Platform) (addr len : Nat) : Prop :=
  len = 0 ∨ (dtInst1MmioSramBaseAddress ≤ addr ∧
      addr + len ≤ dtInst1MmioSramBaseAddress + dtInst1MmioSramSize) ∨
    (P.poolBase ≤ addr ∧ addr + len ≤ P.poolBase + P.poolSize)

instance (P : Platform) (addr len : Nat) : Decidable (P.Writable addr len) := by
  unfold Platform.Writable
  infer_instance

namespace Fw

def sqByte (b : SqBuf) (i : Nat) : UInt8 :=
  if h : i / 4 < 16 then UInt8.ofNat ((b ⟨i / 4, h⟩).toNat / 2 ^ (8 * (i % 4))) else 0

/-- Bytes behind a local address. -/
def localByte (s : Fw) : Local → Nat → UInt8
  | .ram a, i => s.ram (a + i)
  | .cqBuf c, i => (s.cmds c).cqBuf.byte i
  | .prp b, i => s.prpMem b i
  | .sqBuf c, i => sqByte (s.cmds c).sqBuf i

/-- The hardware moves the data of the programmed transfer. A transfer into memory of the
firmware has no defined effect. -/
def move (P : Platform) (s : Fw) (ch : Chan) (d : Desc) : Option Fw :=
  match ch, d.localAddr with
  | .tx, loc => some { s with host := copyTo s.host d.hostAddr d.len (s.localByte loc) }
  | .rx, .ram a =>
    if P.Writable a d.len then
      some { s with ram := copyTo s.ram a d.len fun i => s.host (d.hostAddr + i) }
    else none
  | .rx, .prp b =>
    if d.len ≤ P.nvmePrpListSize then
      let block := copyTo (s.prpMem b) 0 d.len fun i => s.host (d.hostAddr + i)
      some { s with prpMem := Function.update s.prpMem b block }
    else none
  | .rx, .sqBuf c => some (s.setCmd c fun p => { p with sqBuf := SqBuf.ofBytes s.host d.hostAddr })
  | .rx, .cqBuf _ => none

/-- The programmed transfer of a channel finishes and its status becomes valid. -/
def finish (P : Platform) (s : Fw) (ch : Chan) : Option Fw :=
  match (s.ch ch).programmed with
  | none => none
  | some d => (s.move P ch d).map fun t =>
    (t.setCh ch fun c => { c with programmed := none, valid := true }).note (.finished ch d)

/-- What a finished transfer leaves: memory changes, and of the records at most the entry
that was fetched. -/
structure Finished (s : Fw) (ch : Chan) (d : Desc) (t : Fw) : Prop where
  programmed : (s.ch ch).programmed = some d
  state : ∃ host ram prpMem cmds,
    t = ((Fw.setCh { s with host, ram, prpMem, cmds } ch fun c =>
      { c with programmed := none, valid := true }).note (.finished ch d))
  cmds : ∀ c, t.cmds c = s.cmds c ∨
    ch = .rx ∧ d.localAddr = .sqBuf c ∧ t.cmds c = { s.cmds c with sqBuf := SqBuf.ofBytes s.host d.hostAddr }

theorem finished_of_finish {P : Platform} {s t : Fw} {ch : Chan} (h : s.finish P ch = some t) :
    ∃ d, s.Finished ch d t := by
  unfold finish at h
  split at h
  · cases h
  · rename_i d programmed
    obtain ⟨u, moved, rfl⟩ := Option.map_eq_some_iff.mp h
    suffices both : _ ∧ _ from ⟨d, programmed, both.1, both.2⟩
    unfold move at moved
    split at moved
    · cases moved
      exact ⟨⟨_, s.ram, s.prpMem, s.cmds, rfl⟩, fun c => .inl rfl⟩
    · split at moved <;> cases moved
      exact ⟨⟨s.host, _, s.prpMem, s.cmds, rfl⟩, fun c => .inl rfl⟩
    · split at moved <;> cases moved
      exact ⟨⟨s.host, s.ram, _, s.cmds, rfl⟩, fun c => .inl rfl⟩
    · rename_i b loc
      cases moved
      refine ⟨⟨s.host, s.ram, s.prpMem, _, rfl⟩, fun c => ?_⟩
      by_cases here : c = b
      · rw [here]
        exact .inr ⟨rfl, loc, Function.update_self ..⟩
      · exact .inl (Function.update_of_ne here ..)
    · cases moved

end Fw
end AlkaliFw
