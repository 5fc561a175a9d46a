import AlkaliFw.Apu
import AlkaliFw.Ramdisk
import Mathlib.Tactic.Ring

/-! Where a logical block lives, according to the RPU and according to the APU. Both start
at the same address; the RPU counts in blocks of 512 bytes, the APU in pages. -/

namespace AlkaliFw

namespace IoOp

/-- The LBA command of the APU for accelerators that read, or write, the ramdisk. -/
def lbaCmd : IoOp → RpmsgPayload → Apu → Option Apu
  | .read => ioCmdReadLba
  | .write => ioCmdWriteLba

def window : IoOp → Acc → Window
  | .read => Acc.ramdiskIn
  | .write => Acc.ramdiskOut

theorem address_of_accepted {op : IoOp} {lba nlb : Nat} (accepted : op.address lba nlb ≠ 0) :
    lba ≤ blkCnt ∧ op.address lba nlb = ramdiskBuffer + lba * blkSize := by
  have count : blkCnt = 786432 := by decide
  have size : blkSize = 512 := rfl
  cases op with
  | read =>
    simp only [address, ramdiskRead] at accepted ⊢
    split at accepted
    · refine ⟨‹_›, ?_⟩
      rw [if_pos ‹_›, size]
      omega
    · exact absurd rfl accepted
  | write =>
    simp only [address, ramdiskWrite] at accepted ⊢
    split at accepted
    · rename_i range
      refine ⟨range.1, ?_⟩
      rw [if_pos range, size]
      omega
    · exact absurd rfl accepted

end IoOp

namespace SqBuf

/-- The LBA of a command for the APU. -/
def apuLba (b : SqBuf) : Nat := b.cdw13 * 2 ^ 32 + b.cdw12

def apuNlb (b : SqBuf) : Nat := b.cdw14 % 2 ^ 16

end SqBuf

/-- The window that the command leaves in the accelerator it addresses. -/
theorem lbaCmd_window {op : IoOp} {recv : RpmsgPayload} {s t : Apu} {a : Nat} {acc : Acc}
    (run : op.lbaCmd recv s = some t) (target : s.accelerators[recv.data.cdw15]? = some a) (obj : t.objs a = some acc) :
    op.window acc = ⟨true, (recv.data.apuLba * ramdiskPage + ramdiskBase) % 2 ^ 64 % 2 ^ 32,
      recv.data.apuNlb * ramdiskPage % 2 ^ 32⟩ := by
  have add {f : Acc → Nat → Nat → Acc} (run : ioCmdLba f recv s = some t) :
      ∃ old, acc = f old ((recv.data.apuLba * ramdiskPage + ramdiskBase) % 2 ^ 64)
        (recv.data.apuNlb * ramdiskPage % 2 ^ 32) := by
    simp only [ioCmdLba, target] at run
    obtain ⟨old, -, rfl⟩ := Option.map_eq_some_iff.mp run
    have here := (Function.update_self ..).symm.trans obj
    exact ⟨old, (Option.some.inj here).symm⟩
  cases op with
  | read =>
    obtain ⟨old, rfl⟩ := add run
    simp [IoOp.window, Acc.addRamdiskIn]
  | write =>
    obtain ⟨old, rfl⟩ := add run
    simp [IoOp.window, Acc.addRamdiskOut]

/-- The window of the accelerator is the range of the ramdisk that the IO command `b` moves. -/
def SameBlocks (op : IoOp) (b : SqBuf) (w : Window) : Prop :=
  w.enabled = true ∧ w.base = op.address b.cdw10 b.nlb ∧ w.size = b.nlb * blkSize

/-- In the ramdisk, the page and the block of one number start together only at zero. -/
theorem page_eq_block_iff {x : Nat} (range : x ≤ 786432) : (x * 4096 + 0x68000000) % 2 ^ 32 = 0x68000000 + x * 512 ↔ x = 0 := by
  constructor
  · intro same
    have whole := Nat.div_add_mod (x * 4096 + 0x68000000) (2 ^ 32)
    rw [same] at whole
    clear same
    generalize (x * 4096 + 0x68000000) / 2 ^ 32 = q at whole
    omega
  · rintro rfl
    rfl

/-- For the same LBA, `op` on the RPU and `op'` on the APU. -/
theorem sameBlocks_iff (op op' : IoOp) (b : SqBuf) (recv : RpmsgPayload) (s t : Apu) (a : Nat) (acc : Acc)
    (accepted : op.address b.cdw10 b.nlb ≠ 0) (lba : recv.data.apuLba = b.slba)
    (run : op'.lbaCmd recv s = some t) (target : s.accelerators[recv.data.cdw15]? = some a) (obj : t.objs a = some acc) :
    SameBlocks op b (op'.window acc) ↔ b.cdw10 = 0 ∧ b.nlb = 8 * recv.data.apuNlb := by
  obtain ⟨range, address⟩ := IoOp.address_of_accepted accepted
  have count : blkCnt = 786432 := by decide
  have size : blkSize = 512 := rfl
  have page : ramdiskPage = 4096 := rfl
  have base : ramdiskBase = ramdiskBuffer := rfl
  have buffer : ramdiskBuffer = 0x68000000 := rfl
  have nlb : recv.data.apuNlb < 2 ^ 16 := Nat.mod_lt _ (by decide)
  rw [lbaCmd_window run target obj, SameBlocks, lba, address]
  simp only [SqBuf.slba, true_and, page, base, buffer, size]
  have low : ((b.cdw10 + 2 ^ 32 * b.cdw11) * 4096 + 0x68000000) % 2 ^ 64 % 2 ^ 32 = (b.cdw10 * 4096 + 0x68000000) % 2 ^ 32 := by
    rw [Nat.mod_mod_of_dvd _ (by decide), show (b.cdw10 + 2 ^ 32 * b.cdw11) * 4096 + 0x68000000 =
      b.cdw10 * 4096 + 0x68000000 + 2 ^ 32 * (b.cdw11 * 4096) by ring, Nat.add_mul_mod_self_left]
  have length : recv.data.apuNlb * 4096 % 2 ^ 32 = b.nlb * 512 ↔ b.nlb = 8 * recv.data.apuNlb := by omega
  rw [low, page_eq_block_iff (count ▸ range), length]

/-- An LBA message for the accelerator after power on. -/
def lbaMessage (lba nlb : Nat) : RpmsgPayload :=
  message payloadIoCmd 0 0 (dwords cmdIoReadLba [(12, lba), (14, nlb)]) noBuffer_word

def ioEntry (lba nlb : Nat) : SqBuf := dwords 2 [(10, lba), (12, nlb)]

/-- One block at LBA 1, with the count of the IO command or with the number of blocks. -/
theorem lba_one_elsewhere : ¬∀ (op op' : IoOp) (b : SqBuf) (recv : RpmsgPayload) (s t : Apu) (a : Nat) (acc : Acc),
    op.address b.cdw10 b.nlb ≠ 0 → recv.data.apuLba = b.slba →
    (recv.data.apuNlb = b.cdw12 % 2 ^ 16 ∨ recv.data.apuNlb = b.nlb) → op'.lbaCmd recv s = some t →
    s.accelerators[recv.data.cdw15]? = some a → t.objs a = some acc → SameBlocks op b (op'.window acc) := by
  intro claim
  let s := Apu.boot (fun _ => 0) fun _ => ⟨0, 0, fun _ => 0⟩
  have runs : (ioCmdReadLba (lbaMessage 1 1) s).isSome := by decide
  obtain ⟨t, run⟩ := Option.isSome_iff_exists.mp runs
  have obj : (t.objs 0).map Acc.ramdiskIn = some ⟨true, 0x68001000, 4096⟩ := by
    cases run
    rfl
  obtain ⟨acc, obj, window⟩ := Option.map_eq_some_iff.mp obj
  have same := claim .read .read (ioEntry 1 0) (lbaMessage 1 1) s t 0 acc (by decide) (by decide) (.inr (by decide)) run rfl obj
  rw [IoOp.window, window] at same
  exact absurd same.2.1 (by decide)

/-- Eight blocks from LBA 0 are one page. -/
theorem first_page_same : ∃ t acc, ioCmdReadLba (lbaMessage 0 1) (Apu.boot (fun _ => 0) fun _ => ⟨0, 0, fun _ => 0⟩) = some t ∧
    t.objs 0 = some acc ∧ SameBlocks .read (ioEntry 0 7) acc.ramdiskIn := by
  have runs : (ioCmdReadLba (lbaMessage 0 1) (Apu.boot (fun _ => 0) fun _ => ⟨0, 0, fun _ => 0⟩)).isSome := by decide
  obtain ⟨t, run⟩ := Option.isSome_iff_exists.mp runs
  have obj : (t.objs 0).isSome := by
    cases run
    rfl
  obtain ⟨acc, obj⟩ := Option.isSome_iff_exists.mp obj
  exact ⟨t, acc, run, obj, (sameBlocks_iff .read .read (ioEntry 0 7) (lbaMessage 0 1) _ t 0 acc (by decide) (by decide) run
    rfl obj).mpr (by decide)⟩

end AlkaliFw
