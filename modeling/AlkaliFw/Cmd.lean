import AlkaliFw.Tc

/-! `cmd.c`: posting a completion, and moving the data of a command chunk by chunk along
its PRP description. The polling thread runs most of this with interrupts enabled, so every
access to shared data is an action of its own. -/

namespace AlkaliFw
open Resumption

section

variable (P : Platform)

def fillCqResp (c : Slot) : Code Unit :=
  .change (.cmd c) fun s =>
    let q := (s.cmds c).qid
    (s.setCmd c fun p => { p with cqBuf := { sqHead := s.tc.sqHead q, cid := p.sqBuf.cid } }).note
      (.handled c q (s.tc.sqHead q))

def cqCb (c : Slot) : Code Unit := do
  let q ← ofCmd c (·.qid)
  nvmeTcCqNotify q
  .change (.cmd c) fun s => Fw.note { s with cmdSlab := s.cmdSlab.free c } (.cmdFree c)

def nvmeCmdReturn (c : Slot) : Code Unit := do
  let qid ← ofCmd c (·.qid)
  let cqAddr ← nvmeTcGetCqAddr qid
  if cqAddr = 0 then lose c .completionQueueFull
  else do
    let phase ← .look (.ring qid) fun s => s.tc.cqPhase qid
    setCmd c fun p => { p with cqBuf := { p.cqBuf with p := phase } }
    let ok ← nvmeDmaXferMemToHost P (.cqBuf c) cqAddr nvmeTcCqEntrySize (some (.cqCb, c)) c
    loseUnless ok c .descriptor

/-- The last chunk carries the callback. A chunk without descriptor is skipped silently, and
with the last one the command is gone. -/
def transferChunk (c : Slot) (hostAddr localAddr len : Nat) : Code Unit := do
  let callback ← ofCmd c fun p => if p.xferLen = len then p.xferCb.map (·, c) else none
  let dir ← ofCmd c (·.dir)
  let ok ←
    (if dir = .toHost then nvmeDmaXferMemToHost P (.ram localAddr) hostAddr len callback c
    else nvmeDmaXferHostToMem P hostAddr (.ram localAddr) len callback c : Code Bool)
  .when callback.isSome (loseUnless ok c .descriptor)
  setCmd c fun p => { p with xferLen := (p.xferLen + 2 ^ 32 - len) % 2 ^ 32 }
  setCmd c fun p => { p with xferBuf := (p.xferBuf + len) % 2 ^ 32 }

/-- Bytes of the next PRP list: what the remaining pages need, or up to the end of the page
that holds the list. -/
def calcPrpSize (base mps len : Nat) : Nat :=
  let total := (len + mps - 1) % 2 ^ 32 / mps * 8 % 2 ^ 32
  let page := mps - base % mps
  if page > total then total else page

/-- Read `prp_list[i]`; the list buffer ends at `NVME_PRP_LIST_SIZE`. -/
def prpEntry (b i : Nat) : Code Nat :=
  if (i + 1) * 8 ≤ P.nvmePrpListSize then .look .other fun s => le (s.prpMem b) (8 * i) 8
  else .stuck

def prpFetch (c : Slot) (b host mps : Nat) : Code Unit := do
  setCmd c fun p => { p with prpSize := calcPrpSize host mps p.xferLen }
  let size ← ofCmd c (·.prpSize)
  let ok ← nvmeDmaXferHostToMem P host (.prp b) size (some (.prpCb, c)) c
  loseUnless ok c .descriptor

/-- The loop of `prp_cb` from entry `i` of the list in block `b`. Every round but the last
takes at least one byte off `xfer_len`. -/
def prpLoop (c : Slot) (b mps prpSize : Nat) : (fuel i : Nat) → Code Unit
  | 0, _ => .stuck
  | fuel + 1, i => do
    let left ← ofCmd c (·.xferLen)
    if left > 0 then
      let xferLen := if mps > left then left else mps
      -- `i == prp_last`, with `prp_last` one less than the entries that were fetched
      if i + 1 = prpSize / 8 ∧ left > mps then do
        let link ← prpEntry P b i
        prpFetch P c b link mps
      else do
        let hostAddr ← prpEntry P b i
        let localAddr ← ofCmd c (·.xferBuf)
        transferChunk P c hostAddr localAddr xferLen
        prpLoop c b mps prpSize fuel (i + 1)
    else .change .other fun s => Fw.note { s with prpSlab := s.prpSlab.free b } (.prpFree c b)

def prpCb (c : Slot) : Local → Code Unit
  | .prp b => do
    let mps ← .look .other fun s => s.tc.memoryPageSize
    let prpSize ← ofCmd c (·.prpSize)
    let left ← ofCmd c (·.xferLen)
    if mps = 0 then .stuck else prpLoop P c b mps prpSize (left + 1) 0
  | _ => .stuck

def prpAlloc (c : Slot) : Code (Option Nat) :=
  .swap .other fun s =>
    let got := P.kMemSlabAlloc s.prpSlab s.clock
    let t := { s with prpSlab := got.2, clock := s.clock + 1 }
    match got.1 with
    | some b => (some b, t.note (.prpAlloc c b))
    | none => (none, t.note (.noPrpBuffer c))

def transferDataWithPrps (c : Slot) : Code Unit := do
  let hostAddr ← ofCmd c (·.sqBuf.prp1)
  let mps ← .look .other fun s => s.tc.memoryPageSize
  if mps = 0 then .stuck
  else do
    let room := mps - hostAddr % mps
    let left ← ofCmd c (·.xferLen)
    let localAddr ← ofCmd c (·.xferBuf)
    transferChunk P c hostAddr localAddr (if room > left then left else room)
    let left ← ofCmd c (·.xferLen)
    if left = 0 then pure ()
    else if left > mps then do
      let buf ← prpAlloc P c
      match buf with
      | some b => do
        let prp2 ← ofCmd c (·.sqBuf.prp2)
        prpFetch P c b prp2 mps
        -- the debug message prints `prp_size` once more
        let _ ← ofCmd c (·.prpSize)
        pure ()
      | none => nvmeCmdReturn P c
    else do
      let prp2 ← ofCmd c (·.sqBuf.prp2)
      let left ← ofCmd c (·.xferLen)
      let localAddr ← ofCmd c (·.xferBuf)
      transferChunk P c prp2 localAddr left

/-- The answer is `1` in the source when the command is rejected. -/
def nvmeCmdTransferData (c : Slot) : Code Bool := do
  let psdt ← ofCmd c (·.sqBuf.psdt)
  if psdt ≠ 0 then pure true
  else do
    transferDataWithPrps P c
    pure false

/-- The assignments with which every data command starts. -/
def setXfer (c : Slot) (buf len : Nat) (dir : Dir) (cb : Cb) : Code Unit :=
  setCmd c fun p =>
    { p with
      xferBase := buf, xferBuf := buf, xferSize := len, xferLen := len
      dir := dir, xferCb := some cb }

def nvmeCmdGetData (c : Slot) (buf len : Nat) : Code Unit := do
  setXfer c buf len .fromHost .nvmeCmdReturnCb
  let rejected ← nvmeCmdTransferData P c
  .when rejected (nvmeCmdReturn P c)

def nvmeCmdReturnData (c : Slot) (buf len : Nat) : Code Unit := do
  setXfer c buf len .toHost .nvmeCmdReturnCb
  let rejected ← nvmeCmdTransferData P c
  .when rejected (nvmeCmdReturn P c)

end
end AlkaliFw
