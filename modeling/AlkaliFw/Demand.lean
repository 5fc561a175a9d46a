import AlkaliFw.View

/-! What a command asks for, read off its entry as the NVMe specification has it and with no
regard to the handlers: data between the host and a buffer, a request to the APU, a change of
the controller, or something that is to be refused. -/

namespace AlkaliFw

inductive Demand where
  | data (dir : Dir) (buf size : Nat)
  | vendor
  | manage
  | refused
  deriving DecidableEq

namespace SqBuf

/-- A 0's based number of double words. -/
def numd (b : SqBuf) : Nat := b.cdw11 % 2 ^ 16 * 2 ^ 16 + b.cdw10 / 2 ^ 16

/-- The length that the code makes of it. -/
def logLen (b : SqBuf) : Nat :=
  if (b.numd + 1) % 2 ^ 32 * 4 % 2 ^ 32 > smartRespSize then smartRespSize else (b.numd + 1) % 2 ^ 32 * 4 % 2 ^ 32

/-- A vendor command brings data with it. -/
def brings (b : SqBuf) : Bool := decide (b.opc % 2 = 1 ∧ bufferSize b.ndt ≠ 0)

end SqBuf

def identifyBuf : (cns : Nat) → Option RespBuf
  | 0x00 => some .namespaceData
  | 0x01 => some .controller
  | 0x02 => some .namespaceList
  | 0x03 => some .namespaceIdentList
  | _ => none

def identifyDemand (P : Platform) (cns : Nat) : Demand :=
  match identifyBuf cns with
  | some b => .data .toHost (P.respBuf b) nvmeCmdIdentifyRespSize
  | none => .refused

def logDemand (P : Platform) (b : SqBuf) : Demand :=
  if b.cdw10 % 2 ^ 8 = 0x02 ∧ 4 * (b.numd + 1) < 2 ^ 32 then
    .data .toHost (P.respBuf .smart) (min smartRespSize (4 * (b.numd + 1)))
  else .refused

def queueDemand (b : SqBuf) : Demand :=
  if 0 < b.cdw10 % 2 ^ 16 ∧ b.cdw10 % 2 ^ 16 ≤ ioQueues then .manage else .refused

def blockDemand (b : SqBuf) (dir : Dir) : Demand :=
  if b.slba + b.nlb ≤ blkCnt then .data dir (ramdiskBuffer + b.slba * blkSize) (b.nlb * blkSize)
  else .refused

def admDemand (P : Platform) (b : SqBuf) : Demand :=
  match b.opc with
  | 0x02 => logDemand P b
  | 0x06 => identifyDemand P (b.cdw10 % 2 ^ 8)
  | 0x09 => if b.cdw10 % 2 ^ 8 = 0x07 then .manage else .refused
  | 0x00 => queueDemand b
  | 0x01 => queueDemand b
  | 0x04 => queueDemand b
  | 0x05 => queueDemand b
  | 0x10 => .vendor
  | 0x11 => .vendor
  | opc => if 0xC0 ≤ opc then .vendor else .refused

def ioDemand (b : SqBuf) : Demand :=
  match b.opc with
  | 0x00 => .manage
  | 0x01 => blockDemand b .fromHost
  | 0x02 => blockDemand b .toHost
  | opc => if 0x80 ≤ opc then .vendor else .refused

def NvmeCmdPriv.demand (P : Platform) (p : NvmeCmdPriv) : Demand :=
  if p.qid = admQueueId then admDemand P p.sqBuf else ioDemand p.sqBuf

/-- The command is not to be carried out, or its data was refused for the PSDT. -/
def NvmeCmdPriv.Refused (P : Platform) (p : NvmeCmdPriv) : Prop :=
  p.demand P = .refused ∨ p.xferCb ≠ none ∧ p.sqBuf.psdt ≠ 0

/-- Get Log Page for the SMART log, with any count. -/
def NvmeCmdPriv.Logs (p : NvmeCmdPriv) : Prop := p.qid = admQueueId ∧ p.sqBuf.opc = 0x02 ∧ p.sqBuf.cdw10 % 2 ^ 8 = 0x02

instance (p : NvmeCmdPriv) : Decidable p.Logs := by
  unfold NvmeCmdPriv.Logs
  infer_instance

/-- The transfer that such a command starts. -/
def NvmeCmdPriv.LogXfer (P : Platform) (p : NvmeCmdPriv) : Prop :=
  p.dir = .toHost ∧ p.xferBase = P.respBuf .smart ∧ p.xferSize = p.sqBuf.logLen

instance (P : Platform) (p : NvmeCmdPriv) : Decidable (p.Refused P) := by
  unfold NvmeCmdPriv.Refused
  infer_instance

section

variable {P : Platform} {p : NvmeCmdPriv} {b : SqBuf} {dir : Dir}

theorem demand_adm (q : p.qid = admQueueId) : p.demand P = admDemand P p.sqBuf := if_pos q

theorem demand_io (q : p.qid ≠ admQueueId) : p.demand P = ioDemand p.sqBuf := if_neg q

/-- A range of blocks that is to be served has one address, whichever function computes it. -/
theorem blockDemand_eq (b : SqBuf) (dir : Dir) :
    blockDemand b dir = .refused ∨
      blockDemand b dir = .data dir (ramdiskBuffer + b.cdw10 * blkSize % 2 ^ 32) (b.nlb * blkSize) ∧
        b.cdw10 + b.nlb ≤ blkCnt := by
  have cnt : blkCnt = 786432 := rfl
  have size : blkSize = 512 := rfl
  unfold blockDemand
  split
  · rename_i range
    have high : b.cdw11 = 0 := by
      unfold SqBuf.slba at range
      omega
    have slba : b.slba = b.cdw10 := by
      rw [SqBuf.slba, high]
      rfl
    rw [slba] at range ⊢
    refine .inr ⟨?_, range⟩
    have bound : b.cdw10 * blkSize < 2 ^ 32 := by
      rw [size]
      omega
    rw [Nat.mod_eq_of_lt bound]
  · exact .inl rfl

theorem blockDemand_read (b : SqBuf) (dir : Dir) :
    blockDemand b dir = .refused ∨ ramdiskRead b.cdw10 b.nlb ≠ 0 ∧
      blockDemand b dir = .data dir (ramdiskRead b.cdw10 b.nlb) (b.nlb * blkSize) := by
  refine (blockDemand_eq b dir).imp_right fun ⟨data, range⟩ => ?_
  have address : ramdiskRead b.cdw10 b.nlb = ramdiskBuffer + b.cdw10 * blkSize % 2 ^ 32 := if_pos (by omega)
  rw [address]
  exact ⟨Nat.ne_of_gt (Nat.add_pos_left (by decide) _), data⟩

theorem blockDemand_write (b : SqBuf) (dir : Dir) :
    blockDemand b dir = .refused ∨ ramdiskWrite b.cdw10 b.nlb ≠ 0 ∧
      blockDemand b dir = .data dir (ramdiskWrite b.cdw10 b.nlb) (b.nlb * blkSize) := by
  refine (blockDemand_eq b dir).imp_right fun ⟨data, range⟩ => ?_
  have cnt : blkCnt = 786432 := rfl
  have wrap : (b.cdw10 + b.nlb) % 2 ^ 32 = b.cdw10 + b.nlb := Nat.mod_eq_of_lt (by omega)
  have address : ramdiskWrite b.cdw10 b.nlb = ramdiskBuffer + b.cdw10 * blkSize % 2 ^ 32 :=
    if_pos ⟨by omega, by rw [wrap]; exact range⟩
  rw [address]
  exact ⟨Nat.ne_of_gt (Nat.add_pos_left (by decide) _), data⟩

/-- The length that `get_smart_log` computes from the count of double words. -/
theorem logDemand_eq (P : Platform) (b : SqBuf) :
    let len := (b.numd + 1) % 2 ^ 32 * 4 % 2 ^ 32
    logDemand P b = .refused ∨ b.cdw10 % 2 ^ 8 = 0x02 ∧
      logDemand P b = .data .toHost (P.respBuf .smart) (if len > smartRespSize then smartRespSize else len) := by
  unfold logDemand
  split
  · rename_i short
    refine .inr ⟨short.1, ?_⟩
    have len : (b.numd + 1) % 2 ^ 32 * 4 % 2 ^ 32 = 4 * (b.numd + 1) := by omega
    rw [len, Nat.min_def]
    congr 1
    split <;> split <;> omega
  · exact .inl rfl

theorem not_logs_of_vendor (h : p.demand P = .vendor) : ¬p.Logs := by
  rintro ⟨adm, opc, -⟩
  simp only [demand_adm adm, admDemand, opc] at h
  unfold logDemand at h
  split at h <;> cases h

theorem queueDemand_eq (b : SqBuf) : queueDemand b = .refused ∨ queueDemand b = .manage := by
  unfold queueDemand
  split
  · exact .inr rfl
  · exact .inl rfl

end

end AlkaliFw
