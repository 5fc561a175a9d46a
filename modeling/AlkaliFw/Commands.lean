import AlkaliFw.Cmd

/-! The command handlers of `cmds/`, the vendor path through the APU, and the dispatch on
the opcode. They run inside the DMA interrupt handler. -/

namespace AlkaliFw
open Resumption

/-! Response buffers. -/

def pokes (ram : Nat → UInt8) (addr : Nat) : List UInt8 → Nat → UInt8
  | [] => ram
  | b :: rest => pokes (Function.update ram addr b) (addr + 1) rest

def leBytes : (n value : Nat) → List UInt8
  | 0, _ => []
  | n + 1, value => UInt8.ofNat value :: leBytes n (value / 256)

/-- `strncat` into a zeroed field: at most `n` characters. -/
def field (text : String) (n : Nat) : List UInt8 := text.toUTF8.data.toList.take n

def blkShift : Nat := 9
def blkSize : Nat := 2 ^ blkShift
def blkCnt : Nat := dtInst1MmioSramSize / blkSize

def nvmeCmdIdentifyRespSize : Nat := 4096
def smartRespSize : Nat := 512

section

variable (P : Platform)

/-- `fill_identify_struct`, on the offsets of the generated header. -/
def identifyStruct : List (Nat × List UInt8) :=
  let at' (f : IdentField) (n value : Nat) := (P.identField f, leBytes n value)
  [at' .vid 2 0x1b96, at' .ssvid 2 0x1b96,
    (P.identField .sn, field "0123456789" (P.identSize .sn - 1)),
    (P.identField .mn, field "DEADBEEF" (P.identSize .mn - 1)),
    (P.identField .fr, field "12.34" (P.identSize .fr - 1)),
    (P.identField .ieee, leBytes 2 0x00), (P.identField .ieee + 2, leBytes 2 0x90),
    (P.identField .ieee + 4, leBytes 2 0xA9),
    at' .ver 4 0x00010304, at' .cntrltype 1 1, at' .acl 1 3, at' .aerl 1 3, at' .frmw 1 3,
    at' .avscc 1 1, at' .wctemp 2 0x0157, at' .cctemp 2 0x0300, at' .fwug 1 128, at' .sqes 1 0x66,
    at' .cqes 1 0x44, at' .nn 4 1, at' .fna 1 1, at' .awun 2 0xFFFF, at' .awupf 2 0xFFFF,
    at' .nvscc 1 1,
    (P.identField .subnqn, field "NVMe Open Source Controller" (P.identSize .subnqn - 1))]

def respData : RespBuf → List (Nat × List UInt8)
  | .controller => identifyStruct P
  | .namespaceList => [(P.identField .vid, leBytes 4 1)]
  | .namespaceIdentList =>
    [(0, leBytes 1 0x3), (1, leBytes 1 0x10), (4, (List.range 0x10).map fun i => UInt8.ofNat (i + 1))]
  | .namespaceData => [(0, leBytes 4 blkCnt), (8, leBytes 4 blkCnt), (128, leBytes 4 (blkShift * 2 ^ 16))]
  | .smart =>
    [(1, leBytes 2 298), (3, leBytes 1 100), (4, leBytes 1 5), (128, leBytes 4 2000),
      (144, leBytes 4 10), (148, leBytes 4 0), (152, leBytes 4 0), (156, leBytes 4 0)]

/-- Zero the buffer, then write its fields in order. -/
def fillResp (b : RespBuf) (size : Nat) : Code Unit :=
  .change .other fun s =>
    let zeroed := copyTo s.ram (P.respBuf b) size fun _ => 0
    { s with ram := (respData P b).foldl (fun ram w => pokes ram (P.respBuf b + w.1) w.2) zeroed }

def identifyWith (b : RespBuf) (c : Slot) : Code Unit := do
  fillResp P b nvmeCmdIdentifyRespSize
  nvmeCmdReturnData P c (P.respBuf b) nvmeCmdIdentifyRespSize

def identifyController : Slot → Code Unit := identifyWith P .controller
def identifyNamespaceList : Slot → Code Unit := identifyWith P .namespaceList
def identifyNamespaceIdentList : Slot → Code Unit := identifyWith P .namespaceIdentList
def identifyNamespace : Slot → Code Unit := identifyWith P .namespaceData

def nvmeCmdAdmIdentify (c : Slot) : Code Unit := do
  let cns ← ofCmd c fun p => p.sqBuf.cdw10 % 2 ^ 8
  match cns with
  | 0x00 => identifyNamespace P c
  | 0x01 => identifyController P c
  | 0x02 => identifyNamespaceList P c
  | 0x03 => identifyNamespaceIdentList P c
  | _ => nvmeCmdReturn P c

/-- A non-zero offset is only logged. -/
def getSmartLog (c : Slot) (len : Nat) : Code Unit := do
  fillResp P .smart smartRespSize
  nvmeCmdReturnData P c (P.respBuf .smart) (if len > smartRespSize then smartRespSize else len)

def nvmeCmdAdmGetLog (c : Slot) : Code Unit := do
  let numd ← ofCmd c fun p => p.sqBuf.cdw11 % 2 ^ 16 * 2 ^ 16 + p.sqBuf.cdw10 / 2 ^ 16
  let lid ← ofCmd c fun p => p.sqBuf.cdw10 % 2 ^ 8
  match lid with
  | 0x02 => getSmartLog P c ((numd + 1) % 2 ^ 32 * 4 % 2 ^ 32)
  | _ => nvmeCmdReturn P c

def numberOfQueues (c : Slot) : Code Unit :=
  .change (.cmd c) fun s =>
    (s.setTc fun tc => { tc with queues := 1 }).setCmd c fun p => { p with cqBuf := { p.cqBuf with cdw0 := 0 } }

def nvmeCmdAdmSetFeatures (c : Slot) : Code Unit := do
  let fid ← ofCmd c fun p => p.sqBuf.cdw10 % 2 ^ 8
  .when (fid = 0x07) (numberOfQueues c)
  nvmeCmdReturn P c

/-! Queue management. The id is checked against `QUEUES` itself, one beyond the arrays. -/

/-- The shape that the four queue commands share. -/
def queueCommand (c : Slot) (update : NvmeCmdPriv → QId → Fw → Fw) : Code Unit := do
  let p ← ofCmd c id
  let qid := p.sqBuf.cdw10 % 2 ^ 16
  if qid = 0 ∨ queues < qid then nvmeCmdReturn P c
  else if h : qid < queues then do
    .change .other (update p ⟨qid, h⟩)
    nvmeCmdReturn P c
  else .stuck

def qsize (b : SqBuf) : Nat := (b.cdw10 / 2 ^ 16 + 1) % 2 ^ 16

def createSq (p : NvmeCmdPriv) (q : QId) (s : Fw) : Fw :=
  (s.setTc fun tc =>
    { tc with
      sqBase := Function.update tc.sqBase q p.sqBuf.prp1
      sqHead := Function.update tc.sqHead q 0
      sqTail := Function.update tc.sqTail q 0
      sqPc := Function.update tc.sqPc q (decide (p.sqBuf.cdw11 % 2 = 1))
      sqSize := Function.update tc.sqSize q (qsize p.sqBuf)
      sqValid := Function.update tc.sqValid q true }).note (.sqCreated q)

def createCq (p : NvmeCmdPriv) (q : QId) (s : Fw) : Fw :=
  (s.setTc fun tc =>
    { tc with
      cqBase := Function.update tc.cqBase q p.sqBuf.prp1
      cqHead := Function.update tc.cqHead q 0
      cqTail := Function.update tc.cqTail q 0
      cqPhase := Function.update tc.cqPhase q false
      cqIen := Function.update tc.cqIen q (decide (p.sqBuf.cdw11 / 2 % 2 = 1))
      cqPc := Function.update tc.cqPc q (decide (p.sqBuf.cdw11 % 2 = 1))
      cqSize := Function.update tc.cqSize q (qsize p.sqBuf)
      cqIv := Function.update tc.cqIv q (p.sqBuf.cdw11 / 2 ^ 16)
      cqValid := Function.update tc.cqValid q true }).note (.cqCreated q)

def deleteSq (_ : NvmeCmdPriv) (q : QId) (s : Fw) : Fw :=
  s.setTc fun tc => { tc with sqValid := Function.update tc.sqValid q false }

def deleteCq (_ : NvmeCmdPriv) (q : QId) (s : Fw) : Fw :=
  s.setTc fun tc => { tc with cqValid := Function.update tc.cqValid q false }

def nvmeCmdAdmCreateSq (c : Slot) : Code Unit := queueCommand P c createSq
def nvmeCmdAdmDeleteSq (c : Slot) : Code Unit := queueCommand P c deleteSq
def nvmeCmdAdmCreateCq (c : Slot) : Code Unit := queueCommand P c createCq
def nvmeCmdAdmDeleteCq (c : Slot) : Code Unit := queueCommand P c deleteCq

/-! The ramdisk. -/

def ramdiskBuffer : Nat := dtInst1MmioSramBaseAddress

/-- Address of a block, or `NULL`. The number of blocks is not looked at. -/
def ramdiskRead (lba _nlb : Nat) : Nat :=
  if lba ≤ blkCnt then ramdiskBuffer + lba * blkSize % 2 ^ 32 else 0

def ramdiskWrite (lba nlb : Nat) : Nat :=
  if lba ≤ blkCnt ∧ (lba + nlb) % 2 ^ 32 ≤ blkCnt then ramdiskBuffer + lba * blkSize % 2 ^ 32 else 0

/-- Both commands decode the low double word of the LBA and a 0's based count. -/
def ioCommand (address : Nat → Nat → Nat) (move : Slot → Nat → Nat → Code Unit) (c : Slot) : Code Unit := do
  let lba ← ofCmd c (·.sqBuf.cdw10)
  let nlb ← ofCmd c fun p => p.sqBuf.cdw12 % 2 ^ 16 + 1
  let buf := address lba nlb
  if buf ≠ 0 then move c buf (nlb * blkSize) else nvmeCmdReturn P c

def nvmeCmdIoRead (c : Slot) : Code Unit := ioCommand P ramdiskRead (nvmeCmdReturnData P) c
def nvmeCmdIoWrite (c : Slot) : Code Unit := ioCommand P ramdiskWrite (nvmeCmdGetData P) c

/-! Vendor commands, which the APU carries out. -/

def rpmsgHandleCustomAdmCommand : Nat := 0x10
def rpmsgHandleCustomIoCommand : Nat := 0x11

/-- `buffer_size` as an unsigned word; it is an `int` in the source. -/
def bufferSize (ndt : Nat) : Nat := ndt * 4 % 2 ^ 32

theorem NvmeCmdPriv.bufferSize_lt (p : NvmeCmdPriv) : bufferSize p.sqBuf.ndt < 2 ^ 32 := Nat.mod_lt _ (by decide)

def sendCmd (c : Slot) : Code Unit := do
  let p ← ofCmd c id
  let msg ← .swap .other fun s => (P.kMalloc s.clock, { s with clock := s.clock + 1 })
  if msg = false then lose c .rpmsgBuffer
  else do
    let sent ← .swap .other fun s =>
      let t := { s with clock := s.clock + 1 }
      let m : RpmsgPayload :=
        { id := if 0 < p.qid.val then rpmsgHandleCustomIoCommand else rpmsgHandleCustomAdmCommand
          len := 64, priv := c, buf := p.block.data, bufLen := bufferSize p.sqBuf.ndt, data := p.sqBuf
          word := p.bufferSize_lt }
      if P.rpmsgSend s.clock then (true, Fw.note { t with apu := s.apu ++ [m] } (.sent m)) else (false, t)
    loseUnless sent c .rpmsgSend

def vendorCb (c : Slot) : Code Unit := sendCmd P c

/-- `k_mem_pool_alloc` into `priv->block`; the answer is whether there was a block. -/
def bufferAlloc (c : Slot) (size : Nat) : Code Bool :=
  .swap .other fun s =>
    let t := { s with clock := s.clock + 1 }
    match pick : P.poolPick s.clock s.pool size with
    | some (b, n) =>
      let l : PoolBlock := ⟨b, n, c, (P.poolPick_size _ _ _ _ _ pick).2⟩
      (true, (Fw.note { t with pool := l :: s.pool } (.poolAlloc l)).setCmd c fun p => { p with block := b })
    | none => (false, t)

def nvmeCmdXferNone : Nat := 0
def nvmeCmdXferToHost : Nat := 2

/-- Data from the host first, if the opcode asks for it, then the message to the APU. -/
def vendorTransfer (c : Slot) (dir size : Nat) : Code Unit :=
  if size = 0 ∨ dir = nvmeCmdXferToHost then sendCmd P c
  else do
    let buf ← ofCmd c (·.block.data)
    setXfer c buf size .fromHost .vendorCb
    let rejected ← nvmeCmdTransferData P c
    .when rejected (lose c .psdt)

def nvmeCmdVendor (c : Slot) (zeroBased : Bool) : Code Unit := do
  let opc ← ofCmd c (·.sqBuf.opc)
  let dir := opc % 4
  .when zeroBased (setCmd c fun p => { p with sqBuf := Function.update p.sqBuf 10 (p.sqBuf 10 + 1) })
  let size ← ofCmd c fun p => bufferSize p.sqBuf.ndt
  -- a positive `int`
  if dir ≠ nvmeCmdXferNone ∧ 0 < size ∧ size < 2 ^ 31 then do
    let ok ← bufferAlloc P c size
    if ok then vendorTransfer P c dir size else lose c .bufferPool
  else vendorTransfer P c dir size

/-! Dispatch. -/

def handleAdm (c : Slot) : Code Unit := do
  let opc ← ofCmd c (·.sqBuf.opc)
  match opc with
  | 0x02 => nvmeCmdAdmGetLog P c
  | 0x06 => nvmeCmdAdmIdentify P c
  | 0x09 => nvmeCmdAdmSetFeatures P c
  | 0x01 => nvmeCmdAdmCreateSq P c
  | 0x05 => nvmeCmdAdmCreateCq P c
  | 0x00 => nvmeCmdAdmDeleteSq P c
  | 0x04 => nvmeCmdAdmDeleteCq P c
  | 0x10 => nvmeCmdVendor P c false
  | 0x11 => nvmeCmdVendor P c true
  | opc => if 0xC0 ≤ opc then nvmeCmdVendor P c false else nvmeCmdReturn P c

def handleIo (c : Slot) : Code Unit := do
  let opc ← ofCmd c (·.sqBuf.opc)
  match opc with
  | 0x00 => nvmeCmdReturn P c
  | 0x01 => nvmeCmdIoWrite P c
  | 0x02 => nvmeCmdIoRead P c
  | opc => if 0x80 ≤ opc then nvmeCmdVendor P c false else nvmeCmdReturn P c

def nvmeCmdHandler (c : Slot) : Code Unit := do
  fillCqResp c
  let q ← ofCmd c (·.qid)
  if q = admQueueId then handleAdm P c else handleIo P c

end
end AlkaliFw
