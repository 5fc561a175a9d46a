import AlkaliFw.Commands
import AlkaliFw.Walk

/-! The blocks that the IO commands let the host reach. Both take a 64-bit LBA; the checks
of the ramdisk see its low double word, and `ramdisk_read` not even the number of blocks. -/

namespace AlkaliFw
open Resumption Prp

inductive IoOp where
  | read | write
  deriving DecidableEq

namespace IoOp

def address : IoOp → Nat → Nat → Nat
  | .read => ramdiskRead
  | .write => ramdiskWrite

def dir : IoOp → Dir
  | .read => .toHost
  | .write => .fromHost

def handler (P : Platform) (c : Slot) : IoOp → Code Unit
  | .read => nvmeCmdIoRead P c
  | .write => nvmeCmdIoWrite P c

def move (P : Platform) : IoOp → Slot → Nat → Nat → Code Unit
  | .read => nvmeCmdReturnData P
  | .write => nvmeCmdGetData P

theorem handler_eq (P : Platform) (c : Slot) (op : IoOp) :
    op.handler P c = ioCommand P op.address (op.move P) c := by
  cases op <;> rfl

theorem move_eq (P : Platform) (c : Slot) (op : IoOp) (buf len : Nat) :
    op.move P c buf len = (do
      setXfer c buf len op.dir .nvmeCmdReturnCb
      let rejected ← nvmeCmdTransferData P c
      .when rejected (nvmeCmdReturn P c)) := by
  cases op <;> rfl

end IoOp

namespace SqBuf

/-- The blocks that the command names exist. -/
def InRange (b : SqBuf) : Prop := b.slba + b.nlb ≤ blkCnt

theorem cdw10_lt (b : SqBuf) : b.cdw10 < 2 ^ 32 := (b 10).isLt

theorem nlb_le (b : SqBuf) : b.nlb ≤ 2 ^ 16 := by
  have := Nat.mod_lt b.cdw12 (show 0 < 2 ^ 16 by decide)
  rw [nlb]
  omega

end SqBuf

def IoOp.Accepts (op : IoOp) (b : SqBuf) : Prop :=
  match op with
  | .read => b.cdw10 ≤ blkCnt
  | .write => b.cdw10 + b.nlb ≤ blkCnt

/-- The inputs on which the check of the source decides as the block range does. -/
def IoOp.Agrees (op : IoOp) (b : SqBuf) : Prop :=
  match op with
  | .read => b.cdw11 = 0 ∧ b.cdw10 + b.nlb ≤ blkCnt ∨ blkCnt < b.cdw10
  | .write => b.cdw11 = 0 ∨ blkCnt < b.cdw10 + b.nlb

theorem IoOp.agrees_iff (op : IoOp) (b : SqBuf) : op.Agrees b ↔ (op.Accepts b ↔ b.InRange) := by
  have nlb : 0 < b.nlb := Nat.succ_pos _
  have cnt : blkCnt < 2 ^ 32 := by decide
  cases op <;> simp only [Agrees, Accepts, SqBuf.InRange, SqBuf.slba] <;> omega

theorem IoOp.address_of_accepts {op : IoOp} {b : SqBuf} (h : op.Accepts b) :
    op.address b.cdw10 b.nlb = ramdiskBuffer + b.cdw10 * blkSize := by
  have nlb := b.nlb_le
  have cnt : blkCnt = 786432 := by decide
  have size : b.cdw10 * blkSize = b.cdw10 * 512 := rfl
  cases op with
  | read =>
    have h : b.cdw10 ≤ blkCnt := h
    rw [address, ramdiskRead, if_pos h, Nat.mod_eq_of_lt (by omega)]
  | write =>
    have h : b.cdw10 + b.nlb ≤ blkCnt := h
    rw [address, ramdiskWrite, if_pos ⟨by omega, by omega⟩, Nat.mod_eq_of_lt (by omega)]

theorem IoOp.address_of_not_accepts {op : IoOp} {b : SqBuf} (h : ¬op.Accepts b) : op.address b.cdw10 b.nlb = 0 := by
  have nlb := b.nlb_le
  have low := b.cdw10_lt
  have cnt : blkCnt = 786432 := by decide
  cases op with
  | read => exact if_neg h
  | write =>
    have h : ¬b.cdw10 + b.nlb ≤ blkCnt := h
    exact if_neg (by omega)

section

variable (P : Platform) (c : Slot)

/-- The state in which the data path of the command starts. -/
def IoOp.begin (op : IoOp) (c : Slot) (s : Fw) : Fw :=
  let b := (s.cmds c).sqBuf
  s.setCmd c fun p =>
    { p with
      xferBase := op.address b.cdw10 b.nlb, xferBuf := op.address b.cdw10 b.nlb
      xferSize := b.nlb * blkSize, xferLen := b.nlb * blkSize
      dir := op.dir, xferCb := some .nvmeCmdReturnCb }

theorem IoOp.run_of_accepts {op : IoOp} {s : Fw} (psdt : (s.cmds c).sqBuf.psdt = 0) (h : op.Accepts (s.cmds c).sqBuf) :
    (op.handler P c).run s = ((nvmeCmdTransferData P c).run (op.begin c s)).map fun r => ((), r.2) := by
  have base : 0 < ramdiskBuffer := by decide
  have found : op.address (s.cmds c).sqBuf.cdw10 (s.cmds c).sqBuf.nlb ≠ 0 := by
    rw [address_of_accepts h]
    omega
  have psdt' : ((op.begin c s).cmds c).sqBuf.psdt = 0 := by
    simpa [begin, Fw.setCmd] using psdt
  have start : (op.handler P c).run s = (do
      let rejected ← nvmeCmdTransferData P c
      .when rejected (nvmeCmdReturn P c) : Code Unit).run (op.begin c s) := by
    simp only [handler_eq, ioCommand, Prog.run_bind, ofCmd, Prog.run_look, Option.bind_some]
    change (if op.address (s.cmds c).sqBuf.cdw10 (s.cmds c).sqBuf.nlb ≠ 0 then _ else _ : Code Unit).run s = _
    rw [if_pos found, move_eq]
    simp only [setXfer, setCmd, Prog.run_bind, Prog.run_change, Option.bind_some]
    rfl
  rw [start, Prog.run_bind, run_nvmeCmdTransferData psdt']
  cases (transferDataWithPrps P c).run (op.begin c s) <;> rfl

theorem IoOp.run_of_not_accepts {op : IoOp} {s : Fw} (h : ¬op.Accepts (s.cmds c).sqBuf) :
    (op.handler P c).run s = (nvmeCmdReturn P c).run s := by
  simp only [handler_eq, ioCommand, Prog.run_bind, ofCmd, Prog.run_look, Option.bind_some]
  change (if op.address (s.cmds c).sqBuf.cdw10 (s.cmds c).sqBuf.nlb ≠ 0 then _ else _ : Code Unit).run s = _
  rw [if_neg (not_not.mpr (address_of_not_accepts h))]

/-- The local byte `a` lies in one of the chunks. -/
def Touched (ds : List DataChunk) (a : Nat) : Prop := ∃ d ∈ ds, d.addr ≤ a ∧ a < d.addr + d.len

/-- The command transfers if and only if its blocks exist, and then exactly those. -/
structure IoOp.RangeExact (op : IoOp) (P : Platform) (c : Slot) (s : Fw) : Prop where
  transfers : (s.cmds c).sqBuf.InRange → ∃ t new, (op.handler P c).run s = some ((), t) ∧
    t.trace = new ++ s.trace ∧ dataChunks c new ≠ []
  inside : (s.cmds c).sqBuf.InRange → ∀ host n new t cs lists,
    Describes (fun a => le host a 8) s.tc.memoryPageSize (s.cmds c).sqBuf.prp1 (s.cmds c).sqBuf.prp2
      ((s.cmds c).sqBuf.nlb * blkSize) cs lists →
    Walk P c host (op.handler P c) s n new t → Served c new → n = lists.length →
    ∀ a, Touched (dataChunks c new) a ↔ ramdiskBuffer + (s.cmds c).sqBuf.slba * blkSize ≤ a ∧
      a < ramdiskBuffer + ((s.cmds c).sqBuf.slba + (s.cmds c).sqBuf.nlb) * blkSize
  contained : (s.cmds c).sqBuf.InRange →
    ((s.cmds c).sqBuf.slba + (s.cmds c).sqBuf.nlb) * blkSize ≤ dtInst1MmioSramSize
  outside : ¬(s.cmds c).sqBuf.InRange → ∀ host n new t, Walk P c host (op.handler P c) s n new t →
    dataChunks c new = []

theorem IoOp.accepts_of_inRange {op : IoOp} {b : SqBuf} (h : b.InRange) : op.Accepts b := by
  have h : b.slba + b.nlb ≤ blkCnt := h
  rw [SqBuf.slba] at h
  cases op <;> simp only [Accepts] <;> omega

theorem IoOp.begin_transfers {op : IoOp} {s : Fw} (h : op.Accepts (s.cmds c).sqBuf) :
    Transfers c (op.begin c s) s.tc.memoryPageSize (s.cmds c).sqBuf.prp1 (s.cmds c).sqBuf.prp2
      ((s.cmds c).sqBuf.nlb * blkSize) ∧
    ((op.begin c s).cmds c).xferBuf = ramdiskBuffer + (s.cmds c).sqBuf.cdw10 * blkSize ∧
    ((op.begin c s).cmds c).xferBuf + (s.cmds c).sqBuf.nlb * blkSize ≤ 2 ^ 32 := by
  have buf : ((op.begin c s).cmds c).xferBuf = ramdiskBuffer + (s.cmds c).sqBuf.cdw10 * blkSize := by
    rw [← address_of_accepts h]
    simp [begin, Fw.setCmd]
  have low : (s.cmds c).sqBuf.cdw10 ≤ 786432 := by
    have cnt : blkCnt = 786432 := by decide
    cases op with
    | read =>
      have h : (s.cmds c).sqBuf.cdw10 ≤ blkCnt := h
      omega
    | write =>
      have h : (s.cmds c).sqBuf.cdw10 + (s.cmds c).sqBuf.nlb ≤ blkCnt := h
      omega
  have nlb := (s.cmds c).sqBuf.nlb_le
  have base : ramdiskBuffer = 0x68000000 := rfl
  have size : blkSize = 512 := rfl
  have bound : ((op.begin c s).cmds c).xferBuf + (s.cmds c).sqBuf.nlb * blkSize ≤ 2 ^ 32 := by
    rw [buf, base, size]
    omega
  have pos : 0 < (s.cmds c).sqBuf.nlb * blkSize := Nat.mul_pos (Nat.succ_pos _) (by decide)
  exact ⟨⟨rfl, by simp [begin, Fw.setCmd], by simp [begin, Fw.setCmd], by simp [begin, Fw.setCmd], by omega⟩, buf, bound⟩

/-- Chunks that tile a transfer touch the bytes from `xfer_base` on. -/
theorem touched_of_tiles {c : Slot} {p : NvmeCmdPriv} {len : Nat} {cs : List Chunk} (h : Tiles 0 len cs)
    (bound : p.xferBuf + len ≤ 2 ^ 32) (a : Nat) :
    Touched (cs.map (chunkOf c p)) a ↔ p.xferBuf ≤ a ∧ a < p.xferBuf + len := by
  have addr : ∀ k ∈ cs, (chunkOf c p k).addr = p.xferBuf + k.off := by
    intro k hk
    have := h.le hk
    have := h.pos hk
    rw [chunkOf, Nat.mod_eq_of_lt (by omega)]
  constructor
  · rintro ⟨d, hd, lo, hi⟩
    obtain ⟨k, hk, rfl⟩ := List.mem_map.mp hd
    have := h.le hk
    rw [addr k hk] at lo hi
    simp only [chunkOf] at hi
    omega
  · rintro ⟨lo, hi⟩
    obtain ⟨k, hk, lo', hi'⟩ := (h.mem_iff (a - p.xferBuf)).mpr (by omega)
    refine ⟨_, List.mem_map_of_mem hk, ?_⟩
    rw [addr k hk]
    simp only [chunkOf]
    omega

/-- A rejected command moves no data. -/
theorem IoOp.walk_of_not_accepts {op : IoOp} {s t : Fw} {host : Nat → UInt8} {n : Nat} {new : List Obs}
    (h : ¬op.Accepts (s.cmds c).sqBuf) (walk : Walk P c host (op.handler P c) s n new t) :
    dataChunks c new = [] ∧ listFetches c new = [] := by
  induction walk with
  | start run trace =>
    rw [run_of_not_accepts P c h] at run
    obtain ⟨new', e, all⟩ := (returned_of_run P run).trace
    obtain rfl := List.append_cancel_right (trace.symm.trans e)
    constructor
    · rw [dataChunks, List.filterMap_eq_nil_iff.mpr fun o ho => (Obs.returns_submits_no_data c (all o ho)).1]
      rfl
    · rw [listFetches, List.filterMap_eq_nil_iff.mpr fun o ho => (Obs.returns_submits_no_data c (all o ho)).2]
      rfl
  | list _ pending _ _ _ _ _ ih =>
    rw [ih.2] at pending
    cases pending

/-- The IO commands reach exactly the blocks that exist, precisely on the inputs on which
their check agrees with the range. -/
theorem ioRange_exact_iff (op : IoOp) (s : Fw) {k : Nat} (hk : 12 ≤ k) (small : k < 31)
    (page : s.tc.memoryPageSize = 2 ^ k) (buffer : 2 ^ k ≤ P.nvmePrpListSize) (psdt : (s.cmds c).sqBuf.psdt = 0)
    (descs : s.descSlab.used.length + 2 ≤ P.nvmeDmaSlabEntries) (blocks : s.prpSlab.used.length < nvmePrpSlabSize) :
    op.RangeExact P c s ↔ op.Agrees (s.cmds c).sqBuf := by
  have hmps : 2 ^ 12 ≤ 2 ^ k := Nat.pow_le_pow_right (by decide) hk
  have hmps' : 2 ^ k < 2 ^ 31 := Nat.pow_lt_pow_right (by decide) small
  have nlb := (s.cmds c).sqBuf.nlb_le
  have some' : 0 < (s.cmds c).sqBuf.nlb := Nat.succ_pos _
  have size : (s.cmds c).sqBuf.nlb * blkSize = (s.cmds c).sqBuf.nlb * 512 := rfl
  have psdt' : ((op.begin c s).cmds c).sqBuf.psdt = 0 := by simpa [IoOp.begin, Fw.setCmd] using psdt
  have trace' : (op.begin c s).trace = s.trace := rfl
  have submits (h : op.Accepts (s.cmds c).sqBuf) : ∃ t new, (op.handler P c).run s = some ((), t) ∧
      t.trace = new ++ s.trace ∧ dataChunks c new ≠ [] := by
    obtain ⟨transfers, -, -⟩ := op.begin_transfers c h
    obtain ⟨t, new, run, trace, -, data⟩ := transfers.submits P c (by omega) (by omega) (by omega) descs blocks
    refine ⟨t, new, ?_, trace, data⟩
    rw [IoOp.run_of_accepts P c psdt h, run_nvmeCmdTransferData psdt', run]
    rfl
  rw [IoOp.agrees_iff]
  constructor
  · intro exact'
    refine ⟨fun accepted => ?_, IoOp.accepts_of_inRange⟩
    by_contra outside
    obtain ⟨t, new, run, trace, data⟩ := submits accepted
    exact data (exact'.outside outside (fun _ => 0) 0 new t (.start run trace))
  · intro agrees
    refine ⟨fun inRange => submits (agrees.mpr inRange), ?_, ?_, ?_⟩
    · rintro inRange host n new t cs lists describes walk served last a
      have accepted := agrees.mpr inRange
      obtain ⟨transfers, buf, bound⟩ := op.begin_transfers c accepted
      rw [page] at transfers describes
      have walk' : Walk P c host (nvmeCmdTransferData P c) (op.begin c s) n new t := by
        refine walk.of_start trace' fun u t run => ?_
        rw [IoOp.run_of_accepts P c psdt accepted] at run
        obtain ⟨⟨b, v⟩, run', e⟩ := Option.map_eq_some_iff.mp run
        cases e
        exact ⟨b, run'⟩
      obtain ⟨-, stage⟩ := walk'.stage served transfers psdt' hmps hmps' buffer (by omega) (by omega) describes
      rw [stage.sofar.2.2.2.1 last, touched_of_tiles (describes.tiles _ _ (by omega) (by omega)) bound, buf]
      have high : (s.cmds c).sqBuf.slba = (s.cmds c).sqBuf.cdw10 := by
        have inRange : (s.cmds c).sqBuf.slba + (s.cmds c).sqBuf.nlb ≤ blkCnt := inRange
        have cnt : blkCnt < 2 ^ 32 := by decide
        rw [SqBuf.slba] at inRange ⊢
        omega
      rw [high, Nat.add_mul, Nat.add_assoc]
    · intro inRange
      have inRange : (s.cmds c).sqBuf.slba + (s.cmds c).sqBuf.nlb ≤ blkCnt := inRange
      exact (Nat.mul_le_mul_right blkSize inRange).trans (by decide)
    · intro outside host n new t walk
      exact (IoOp.walk_of_not_accepts P c (fun accepted => outside (agrees.mp accepted)) walk).1

end

/-- A read or write of `nlb` blocks at the first block behind the end of the ramdisk. -/
def ioState (cdw10 cdw11 : BitVec 32) (field : BitVec 32) : Fw where
  tc := { memoryPageSize := 2 ^ 12 }
  cmds _ :=
    { qid := ⟨1, one_lt_queues⟩
      sqBuf := Function.update (Function.update (Function.update (fun _ => 0) 10 cdw10) 11 cdw11) 12 field }

/-- A read of the block right behind the last one is carried out. -/
theorem read_beyond_end : ¬IoOp.read.RangeExact (board (2 ^ 12)) 0 (ioState (BitVec.ofNat 32 blkCnt) 0 0) := by
  intro exact'
  have run : ((IoOp.read.handler (board (2 ^ 12)) 0).run (ioState (BitVec.ofNat 32 blkCnt) 0 0)).map
      (fun r => decide (dataChunks 0 r.2.trace = [])) = some false := by
    decide +kernel
  obtain ⟨⟨_, t⟩, run, data⟩ := Option.map_eq_some_iff.mp run
  refine of_decide_eq_false data (exact'.outside ?_ (fun _ => 0) 0 t.trace t (.start run ?_))
  · rw [SqBuf.InRange]
    decide +kernel
  · exact (List.append_nil _).symm

theorem ioRange_last_block : IoOp.read.RangeExact (board (2 ^ 12)) 0 (ioState (BitVec.ofNat 32 (blkCnt - 1)) 0 0) :=
  (ioRange_exact_iff (board (2 ^ 12)) 0 .read (ioState (BitVec.ofNat 32 (blkCnt - 1)) 0 0) (k := 12) (by decide)
    (by decide) rfl le_rfl (by decide) (by decide) (by decide)).mpr (.inl (by decide +kernel))

end AlkaliFw
