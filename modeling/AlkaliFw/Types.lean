import Mathlib
import AlkaliFw.Resumption

/-! Data of the RPU firmware: submission and completion entries as laid out in `cmd.h`,
the records of `tc.h` and `dma.c`, and the state they live in. Machine words are naturals,
reduced where an assignment can overflow. Zephyr and the rpmsg transport are a `Platform`;
what an interrupt handler or the polling thread has done is kept in a trace. -/

namespace AlkaliFw
open Resumption

def ioQueues : Nat := 1
def queues : Nat := ioQueues + 1
def doorbells : Nat := 5
def doorbellBase : Nat := 0x1000
theorem one_lt_queues : 1 < queues := by decide

def admQueueId : Fin queues := ⟨0, by decide⟩

def nvmeTcSqEntrySize : Nat := 64
def nvmeTcCqEntrySize : Nat := 16
def nvmeCmdSlabSize : Nat := 1024
def nvmePrpSlabSize : Nat := 1024
/-- The count of blocks of a `k_mem_slab` is a 32-bit word. -/
def kMemSlabMax : Nat := 2 ^ 32
def nvmeBufferPoolEntries : Nat := 4
def nvmeBufferSize : Nat := 4096 * 1024

/-- `sram1` of `nvme.overlay`, which holds the ramdisk. -/
def dtInst1MmioSramBaseAddress : Nat := 0x68000000
def dtInst1MmioSramSize : Nat := 384 * 1024 * 1024

/-- Index of a `nvme_cmd_priv_t` in `cmd_slab_buffer`. -/
abbrev Slot := Nat
abbrev QId := Fin queues

/-- Little-endian value of `n` bytes. -/
def le (mem : Nat → UInt8) (addr : Nat) : Nat → Nat
  | 0 => 0
  | n + 1 => (mem addr).toNat + 256 * le mem (addr + 1) n

def copyTo (mem : Nat → UInt8) (addr len : Nat) (src : Nat → UInt8) : Nat → UInt8 := fun x =>
  if addr ≤ x ∧ x < addr + len then src (x - addr) else mem x

/-! A submission queue entry is sixteen double words. -/

abbrev SqBuf := Fin 16 → BitVec 32

/-- Double words are named by literals. -/
instance neZeroSixteen : NeZero 16 := ⟨by decide⟩

namespace SqBuf

def opc (b : SqBuf) : Nat := (b 0).toNat % 2 ^ 8
def psdt (b : SqBuf) : Nat := (b 0).toNat / 2 ^ 14 % 2 ^ 2
def cid (b : SqBuf) : Nat := (b 0).toNat / 2 ^ 16
def prp1 (b : SqBuf) : Nat := (b 6).toNat + 2 ^ 32 * (b 7).toNat
def prp2 (b : SqBuf) : Nat := (b 8).toNat + 2 ^ 32 * (b 9).toNat
def cdw10 (b : SqBuf) : Nat := (b 10).toNat
def cdw11 (b : SqBuf) : Nat := (b 11).toNat
def cdw12 (b : SqBuf) : Nat := (b 12).toNat
def cdw13 (b : SqBuf) : Nat := (b 13).toNat
def ndt (b : SqBuf) : Nat := b.cdw10
def slba (b : SqBuf) : Nat := b.cdw10 + 2 ^ 32 * b.cdw11
def nlb (b : SqBuf) : Nat := b.cdw12 % 2 ^ 16 + 1

def ofBytes (mem : Nat → UInt8) (addr : Nat) : SqBuf := fun i =>
  BitVec.ofNat 32 (le mem (addr + 4 * i.val) 4)

end SqBuf

structure NvmeCqEntry where
  cdw0 : Nat := 0
  rsvd : Nat := 0
  sqHead : Nat := 0
  sqId : Nat := 0
  cid : Nat := 0
  p : Bool := false
  sc : Nat := 0
  sct : Nat := 0
  crd : Nat := 0
  m : Nat := 0
  dnr : Nat := 0
  deriving DecidableEq

/-- The four double words of the entry, low bits first as the bit fields are declared. -/
def NvmeCqEntry.dword (e : NvmeCqEntry) : Nat → Nat
  | 0 => e.cdw0
  | 1 => e.rsvd
  | 2 => e.sqHead + 2 ^ 16 * e.sqId
  | _ => e.cid + 2 ^ 16 * (e.p.toNat + 2 * e.sc + 2 ^ 9 * e.sct + 2 ^ 12 * e.crd +
      2 ^ 14 * e.m + 2 ^ 15 * e.dnr)

def NvmeCqEntry.byte (e : NvmeCqEntry) (i : Nat) : UInt8 :=
  UInt8.ofNat (e.dword (i / 4) / 2 ^ (8 * (i % 4)))

/-- The functions that the firmware installs as `nvme_dma_xfer_cb`. -/
inductive Cb where
  | nvmeCmdHandler | cqCb | nvmeCmdReturnCb | prpCb | vendorCb | rpmsgCmdReturnCb
  deriving DecidableEq

inductive Dir where
  | fromHost | toHost
  deriving DecidableEq

/-- `struct k_mem_block`: all zero until `k_mem_pool_alloc` fills it. -/
structure KMemBlock where
  data : Nat := 0
  id : Nat := 0
  deriving DecidableEq

structure NvmeCmdPriv where
  qid : QId
  dir : Dir := .fromHost
  prpSize : Nat := 0
  xferBase : Nat := 0
  xferSize : Nat := 0
  xferBuf : Nat := 0
  xferLen : Nat := 0
  xferCb : Option Cb := none
  block : KMemBlock := {}
  sqBuf : SqBuf := fun _ => 0
  cqBuf : NvmeCqEntry := {}

/-- What a local (AXI) address designates: a command's entries, a block of `prp_slab`, or
plain memory at a 32-bit address. -/
inductive Local where
  | sqBuf (c : Slot)
  | cqBuf (c : Slot)
  | prp (block : Nat)
  | ram (addr : Nat)
  deriving DecidableEq

/-- `nvme_dma_xfer_def_t`. `desc` is its block of `desc_slab`; `owner` and `queue` record
on whose behalf the transfer is made, which the source leaves implicit. -/
structure Desc where
  callback : Option (Cb × Slot)
  hostAddr : Nat
  localAddr : Local
  len : Nat
  tag : Nat
  desc : Nat
  owner : Slot
  queue : QId
  deriving DecidableEq

inductive Chan where
  | rx | tx
  deriving DecidableEq

/-- One direction of the DMA engine: the FIFO and running flag of `nvme_dma_priv_t`, the
transfer programmed in the hardware, and `STATUS_VALID`. -/
structure Channel where
  fifo : List Desc := []
  running : Bool := false
  programmed : Option Desc := none
  valid : Bool := false

structure NvmeTcPriv where
  enabled : Bool := false
  memoryPageSize : Nat := 0
  queues : Nat := 0
  sqValid : QId → Bool := fun _ => false
  sqSize : QId → Nat := fun _ => 0
  sqBase : QId → Nat := fun _ => 0
  sqTail : QId → Nat := fun _ => 0
  sqHead : QId → Nat := fun _ => 0
  sqPc : QId → Bool := fun _ => false
  cqValid : QId → Bool := fun _ => false
  cqSize : QId → Nat := fun _ => 0
  cqBase : QId → Nat := fun _ => 0
  cqTail : QId → Nat := fun _ => 0
  cqHead : QId → Nat := fun _ => 0
  cqPc : QId → Bool := fun _ => false
  cqPhase : QId → Bool := fun _ => false
  cqIen : QId → Bool := fun _ => false
  cqIv : QId → Nat := fun _ => 0

/-- `nvme_rpmsg_payload_t`; `priv` is the command the reply is about. -/
structure RpmsgPayload where
  id : Nat
  len : Nat
  priv : Slot
  buf : Nat
  bufLen : Nat
  data : SqBuf
  word : bufLen < 2 ^ 32

/-- A live block of `buffer_pool`, with the command it was taken for. -/
structure PoolBlock where
  block : KMemBlock
  size : Nat
  owner : Slot
  bound : 0 < block.data ∧ block.data + size ≤ 2 ^ 32
  deriving DecidableEq

theorem bound_nil (n : Nat) : ∀ i ∈ ([] : List Nat), i < n := by simp

/-- The blocks of a `k_mem_slab` that are in use. -/
structure Slab (n : Nat) where
  used : List Nat := []
  nodup : used.Nodup := by exact List.nodup_nil
  bound : ∀ i ∈ used, i < n := by exact bound_nil _

namespace Slab

variable {n : Nat}

def add (s : Slab n) (i : Nat) (h : i < n ∧ i ∉ s.used) : Slab n where
  used := i :: s.used
  nodup := List.nodup_cons.mpr ⟨h.2, s.nodup⟩
  bound j hj := by
    rcases List.mem_cons.mp hj with rfl | hj
    · exact h.1
    · exact s.bound j hj

def free (s : Slab n) (i : Nat) : Slab n where
  used := s.used.erase i
  nodup := s.nodup.erase i
  bound j hj := s.bound j (List.mem_of_mem_erase hj)

@[simp] theorem used_add (s : Slab n) (i : Nat) (h : i < n ∧ i ∉ s.used) :
    (s.add i h).used = i :: s.used := rfl

@[simp] theorem used_free (s : Slab n) (i : Nat) : (s.free i).used = s.used.erase i := rfl

theorem mem_free (s : Slab n) (i j : Nat) : j ∈ (s.free i).used ↔ j ≠ i ∧ j ∈ s.used :=
  s.nodup.mem_erase_iff

theorem length_le (s : Slab n) : s.used.length ≤ n := by
  have sub : s.used ⊆ List.range n := fun i hi => List.mem_range.mpr (s.bound i hi)
  have := (List.subperm_of_subset s.nodup sub).length_le
  rwa [List.length_range] at this

end Slab

/-- Static response buffers of `identify.c` and `get_log.c`. -/
inductive RespBuf where
  | controller | namespaceList | namespaceIdentList | namespaceData | smart
  deriving DecidableEq

/-- Offsets of `nvme_ident_fields.h`, which the build generates. -/
inductive IdentField where
  | vid | ssvid | sn | mn | fr | ieee | ver | cntrltype | acl | aerl | frmw | avscc | wctemp
  | cctemp | fwug | sqes | cqes | nn | fna | awun | awupf | nvscc | subnqn
  deriving DecidableEq

/-- What the firmware takes from Zephyr, the rpmsg transport and the linker. Every answer may
depend on the number of questions asked so far. The first two fields are 4096 in `tc.h` and
4096 * 16 in `dma.h`. -/
structure Platform where
  nvmePrpListSize : Nat := 4096
  nvmeDmaSlabEntries : Nat := 4096 * 16
  nvmeDmaSlabEntries_le : nvmeDmaSlabEntries ≤ kMemSlabMax := by decide
  slabPick : (clock n : Nat) → (used : List Nat) → Nat
  slabPick_free : ∀ clock n used, used.length < n →
    slabPick clock n used < n ∧ slabPick clock n used ∉ used
  poolPick : (clock : Nat) → (live : List PoolBlock) → (size : Nat) → Option (KMemBlock × Nat)
  poolPick_size : ∀ clock live size b n, poolPick clock live size = some (b, n) →
    size ≤ n ∧ 0 < b.data ∧ b.data + n ≤ 2 ^ 32
  poolPick_fresh : ∀ clock live size b n, poolPick clock live size = some (b, n) →
    ∀ l ∈ live, l.block.id ≠ b.id ∧ (l.block.data + l.size ≤ b.data ∨ b.data + n ≤ l.block.data)
  kMalloc : (clock : Nat) → Bool
  rpmsgSend : (clock : Nat) → Bool
  respBuf : RespBuf → Nat
  identField : IdentField → Nat
  identSize : IdentField → Nat
  poolBase : Nat
  poolSize : Nat

/-- `k_mem_slab_alloc`: a free block, as long as there is one. -/
def Platform.kMemSlabAlloc (P : Platform) {n : Nat} (s : Slab n) (clock : Nat) : Option Nat × Slab n :=
  if h : s.used.length < n then
    (some (P.slabPick clock n s.used), s.add _ (P.slabPick_free clock n s.used h))
  else (none, s)

/-- The same for the slab of the DMA engine. -/
def Platform.descSlabAlloc (P : Platform) (s : Slab kMemSlabMax) (clock : Nat) : Option Nat × Slab kMemSlabMax :=
  if s.used.length < P.nvmeDmaSlabEntries then P.kMemSlabAlloc s clock else (none, s)

/-- The branches on which the source returns without passing the command on. -/
inductive Loss where
  | completionQueueFull | descriptor | bufferPool | rpmsgBuffer | rpmsgSend | psdt | payloadId
  deriving DecidableEq

/-- What the firmware and the DMA hardware did, newest first in the trace. -/
inductive Obs where
  /-- an announced entry was passed over because no command slot was free -/
  | skipped (q : QId)
  | cmdAlloc (c : Slot) (q : QId)
  /-- `fill_cq_resp` sampled the head of the submission queue -/
  | handled (c : Slot) (q : QId) (sqHead : Nat)
  | queued (ch : Chan) (d : Desc) (priv : NvmeCmdPriv)
  | noDescriptor (c : Slot)
  | finished (ch : Chan) (d : Desc)
  | called (ch : Chan) (d : Desc)
  | descFree (desc : Nat)
  | cmdFree (c : Slot)
  | prpAlloc (c : Slot) (block : Nat)
  | noPrpBuffer (c : Slot)
  | prpFree (c : Slot) (block : Nat)
  | poolAlloc (b : PoolBlock)
  | poolFree (c : Slot) (block : KMemBlock) (holder : Option Slot)
  | sent (m : RpmsgPayload)
  | lost (c : Slot) (why : Loss)
  | sqCreated (q : QId)
  | cqCreated (q : QId)

/-- State shared by the interrupt handlers, the polling thread and the hardware. -/
structure Fw where
  tc : NvmeTcPriv := {}
  ch : Chan → Channel := fun _ => {}
  descSlab : Slab kMemSlabMax := {}
  cmdSlab : Slab nvmeCmdSlabSize := {}
  prpSlab : Slab nvmePrpSlabSize := {}
  cmds : Slot → NvmeCmdPriv := fun _ => { qid := admQueueId }
  prpMem : Nat → Nat → UInt8 := fun _ _ => 0
  pool : List PoolBlock := []
  ram : Nat → UInt8 := fun _ => 0
  host : Nat → UInt8 := fun _ => 0
  regs : Nat → Nat := fun _ => 0
  writes : List Nat := []
  apu : List RpmsgPayload := []
  clock : Nat := 0
  trace : List Obs := []

/-- What an action touches, as far as other code may mind. -/
inductive Access where
  /-- reads or writes the record of a command -/
  | cmd (c : Slot)
  /-- within the allotment of a completion slot of queue `q` -/
  | ring (q : QId)
  /-- puts a descriptor with this callback into a DMA queue -/
  | submit (callback : Option (Cb × Slot))
  | other
  deriving DecidableEq

abbrev Code := Prog Access Fw

namespace Fw

def setCmd (s : Fw) (c : Slot) (f : NvmeCmdPriv → NvmeCmdPriv) : Fw :=
  { s with cmds := Function.update s.cmds c (f (s.cmds c)) }

def setCh (s : Fw) (ch : Chan) (f : Channel → Channel) : Fw :=
  { s with ch := Function.update s.ch ch (f (s.ch ch)) }

def note (s : Fw) (o : Obs) : Fw := { s with trace := o :: s.trace }

end Fw

def ofCmd {α : Type} (c : Slot) (f : NvmeCmdPriv → α) : Code α := .look (.cmd c) fun s => f (s.cmds c)

def setCmd (c : Slot) (f : NvmeCmdPriv → NvmeCmdPriv) : Code Unit := .change (.cmd c) (·.setCmd c f)

/-- The branch ends here for `c`; the source only logs it. -/
def lose (c : Slot) (why : Loss) : Code Unit := .change .other (·.note (.lost c why))

def loseUnless (ok : Bool) (c : Slot) (why : Loss) : Code Unit := .when (ok = false) (lose c why)

end AlkaliFw
