import AlkaliFw.Dma

/-! `tc.c`: the queue arithmetic of the target controller and the handlers of the registers
that the host writes. Offsets and fields of the controller registers are those of the NVMe
specification, from which the build generates `nvme_reg_map.h`; the doorbell macros are
expanded as the preprocessor expands them. -/

namespace AlkaliFw
open Resumption

def nvmeTcRegCc : Nat := 0x14
def nvmeTcRegCsts : Nat := 0x1C
def nvmeTcRegAqa : Nat := 0x24
def nvmeTcRegAsq0 : Nat := 0x28
def nvmeTcRegAsq1 : Nat := 0x2C
def nvmeTcRegAcq0 : Nat := 0x30
def nvmeTcRegAcq1 : Nat := 0x34

def doorbellReg (n : Nat) : Nat := doorbellBase + n * 4
def doorbellTail (n : Nat) : Nat := doorbellReg (n * 2)
def doorbellHead (n : Nat) : Nat := doorbellReg (n * 2 + 1)

/-- `DOORBELL_TAIL(n+1)`: the macro argument is not in parentheses. -/
def nvmeTcRegIoTail (n : Nat) : Nat := doorbellReg (n + 1 * 2)
def nvmeTcRegIoHead (n : Nat) : Nat := doorbellReg (n + 1 * 2 + 1)

def nvmeTcRegIrqHost : Nat := doorbellHead doorbells + 4

def nvmeTcGetField (reg shift width : Nat) : Nat := reg / 2 ^ shift % 2 ^ width

namespace Fw

def setTc (s : Fw) (f : NvmeTcPriv → NvmeTcPriv) : Fw := { s with tc := f s.tc }

def sysWrite32 (s : Fw) (reg value : Nat) : Fw := { s with regs := Function.update s.regs reg value }

/-- `nvme_tc_cc_handler` without its warnings. -/
def ccHandler (s : Fw) : Fw :=
  let cc := s.regs nvmeTcRegCc
  let csts := s.regs nvmeTcRegCsts
  let csts := if nvmeTcGetField cc 14 2 ≠ 0 then csts ||| 2 * 2 ^ 2 else csts
  let t := s.setTc fun tc => { tc with memoryPageSize := 2 ^ (nvmeTcGetField cc 7 4 + 12) }
  if cc % 2 = 1 then
    (t.setTc fun tc => { tc with enabled := true }).sysWrite32 nvmeTcRegCsts (csts ||| 1)
  else if s.tc.enabled then
    (t.setTc fun tc => { tc with enabled := false }).sysWrite32 nvmeTcRegCsts (csts &&& (2 ^ 32 - 2))
  else t.sysWrite32 nvmeTcRegCsts csts

def aqaHandler (s : Fw) : Fw :=
  let aqa := s.regs nvmeTcRegAqa
  s.setTc fun tc =>
    { tc with
      cqSize := Function.update tc.cqSize admQueueId (nvmeTcGetField aqa 16 12 + 1)
      sqSize := Function.update tc.sqSize admQueueId (nvmeTcGetField aqa 0 12 + 1) }

def asqHandler (s : Fw) : Fw :=
  s.setTc fun tc =>
    { tc with
      sqBase := Function.update tc.sqBase admQueueId (s.regs nvmeTcRegAsq1 * 2 ^ 32 + s.regs nvmeTcRegAsq0)
      sqValid := Function.update tc.sqValid admQueueId true }

def acqHandler (s : Fw) : Fw :=
  s.setTc fun tc =>
    { tc with
      cqBase := Function.update tc.cqBase admQueueId (s.regs nvmeTcRegAcq1 * 2 ^ 32 + s.regs nvmeTcRegAcq0)
      cqValid := Function.update tc.cqValid admQueueId true }

end Fw

def nvmeTcCcHandler : Code Unit := .change .other Fw.ccHandler
def nvmeTcAqaHandler : Code Unit := .change .other Fw.aqaHandler
def nvmeTcAsqHandler : Code Unit := .change .other Fw.asqHandler
def nvmeTcAcqHandler : Code Unit := .change .other Fw.acqHandler

/-- Address of the slot at the head, and the head moved on. -/
def Fw.advanceSq (s : Fw) (q : QId) : Nat × Fw :=
  ((s.tc.sqBase q + s.tc.sqHead q * nvmeTcSqEntrySize) % 2 ^ 64,
    s.setTc fun tc =>
      { tc with sqHead := Function.update tc.sqHead q ((tc.sqHead q + 1) % tc.sqSize q % 2 ^ 16) })

def nvmeTcGetSqAddr (q : QId) : Code Nat := do
  let size ← .look .other fun s => s.tc.sqSize q
  if size = 0 then .stuck else .swap .other (·.advanceSq q)

def nvmeTcCqNotify (q : QId) : Code Unit :=
  .change .other fun s => s.sysWrite32 nvmeTcRegIrqHost (2 ^ (s.tc.cqIv q % 2 ^ 8) % 2 ^ 32)

/-- The phase bit is flipped on each pass over the ring. -/
def nvmeTcFlipPhase (q : QId) : Code Unit := do
  let phase ← .look (.ring q) fun s => s.tc.cqPhase q
  .change (.ring q) (·.setTc fun tc => { tc with cqPhase := Function.update tc.cqPhase q (!phase) })

/-- Each access of the source is an action of its own: the polling thread runs this with
interrupts enabled. The label marks what lies between the first read and the last write. -/
def nvmeTcGetCqAddr (q : QId) : Code Nat := do
  let tail ← .look .other fun s => s.tc.cqTail q
  let size ← .look (.ring q) fun s => s.tc.cqSize q
  if size = 0 then .stuck
  else do
    let nextTail := (tail + 1) % size
    let head ← .look (.ring q) fun s => s.tc.cqHead q
    if head ≠ nextTail then do
      let first ← .look (.ring q) fun s => s.tc.cqTail q
      .when (first = 0) (nvmeTcFlipPhase q)
      let base ← .look (.ring q) fun s => s.tc.cqBase q
      let index ← .look (.ring q) fun s => s.tc.cqTail q
      .change (.ring q) (·.setTc fun tc => { tc with cqTail := Function.update tc.cqTail q (nextTail % 2 ^ 16) })
      pure ((base + index * nvmeTcCqEntrySize) % 2 ^ 64)
    else pure 0

section Doorbells

variable (P : Platform)

/-- One announced entry: a fetch into a fresh command slot, if there is one. -/
def nvmeTcFetch (q : QId) : Code Unit := do
  let hostAddr ← nvmeTcGetSqAddr q
  let arg ← .swap .other fun s =>
    let got := P.kMemSlabAlloc s.cmdSlab s.clock
    let t := { s with cmdSlab := got.2, clock := s.clock + 1 }
    match got.1 with
    | some c => (some c, (t.setCmd c fun _ => { qid := q }).note (.cmdAlloc c q))
    | none => (none, t.note (.skipped q))
  match arg with
  | some c => do
    let ok ← nvmeDmaXferHostToMem P hostAddr (.sqBuf c) nvmeTcSqEntrySize (some (.nvmeCmdHandler, c)) c
    loseUnless ok c .descriptor
  | none => pure ()

/-- The loop of the tail handler. A head and a tail below 2^16 that have not met after 2^16
rounds never do. -/
def nvmeTcFetchLoop (q : QId) : Nat → Code Unit
  | 0 => .stuck
  | fuel + 1 => do
    let more ← .look .other fun s => decide (s.tc.sqTail q ≠ s.tc.sqHead q)
    if more then do
      nvmeTcFetch P q
      nvmeTcFetchLoop q fuel
    else pure ()

/-- A queue id beyond the arrays of `nvme_tc_priv_t` has no defined effect. -/
def nvmeTcTailHandler (qid : Nat) : Code Unit :=
  if h : qid < queues then do
    .change .other fun s => s.setTc fun tc =>
      { tc with sqTail := Function.update tc.sqTail ⟨qid, h⟩ (s.regs (doorbellTail qid) % 2 ^ 16) }
    nvmeTcFetchLoop P ⟨qid, h⟩ (2 ^ 16 + 1)
  else .stuck

def nvmeTcHeadHandler (qid : Nat) : Code Unit :=
  if h : qid < queues then
    .change .other fun s => s.setTc fun tc =>
      { tc with cqHead := Function.update tc.cqHead ⟨qid, h⟩ (s.regs (doorbellHead qid) % 2 ^ 16) }
  else .stuck

/-- What the switch of `nvme_tc_irq_handler` selects for a register. -/
inductive RegHandler where
  | cc | aqa | asq | acq | tail (qid : Nat) | head (qid : Nat) | nothing
  deriving DecidableEq

/-- The loop of its default case, `n` of the `QUEUES` rounds before the end. -/
def ioDoorbell (queues reg : Nat) : Nat → RegHandler
  | 0 => .nothing
  | n + 1 =>
    if reg = nvmeTcRegIoTail (queues - (n + 1)) then .tail (queues - (n + 1) + 1)
    else if reg = nvmeTcRegIoHead (queues - (n + 1)) then .head (queues - (n + 1) + 1)
    else ioDoorbell queues reg n

def regHandler (queues reg : Nat) : RegHandler :=
  if reg = nvmeTcRegCc then .cc
  else if reg = nvmeTcRegAqa then .aqa
  else if reg = nvmeTcRegAsq0 then .nothing
  else if reg = nvmeTcRegAsq1 then .asq
  else if reg = nvmeTcRegAcq0 then .nothing
  else if reg = nvmeTcRegAcq1 then .acq
  else if reg = doorbellTail admQueueId then .tail admQueueId
  else if reg = doorbellHead admQueueId then .head admQueueId
  else ioDoorbell queues reg queues

def handleReg : RegHandler → Code Unit
  | .cc => nvmeTcCcHandler
  | .aqa => nvmeTcAqaHandler
  | .asq => nvmeTcAsqHandler
  | .acq => nvmeTcAcqHandler
  | .tail q => nvmeTcTailHandler P q
  | .head q => nvmeTcHeadHandler q
  | .nothing => pure ()

/-- The loop of `nvme_tc_irq_handler` over the register writes that are pending. -/
def nvmeTcIrqLoop : Nat → Code Unit
  | 0 => pure ()
  | n + 1 => do
    let reg ← .swap .other fun s => (s.writes.headD 0 * 4 % 2 ^ 16, { s with writes := s.writes.tail })
    handleReg P (regHandler queues reg)
    nvmeTcIrqLoop n

def nvmeTcIrqHandler : Code Unit := do
  let n ← .look .other fun s => s.writes.length
  nvmeTcIrqLoop P n

end Doorbells

end AlkaliFw
