import AlkaliFw.System

/-! The application on the APU: the command handlers of `apu-app/src/cmds`, the two
functions of `cmd.cpp` that map the buffer, dispatch on the opcode and answer, and the
accelerators they address. A message is handled in one step; `none` is undefined behaviour
or a failed assertion. Linux and ubpf are a parameter. C++ allocations succeed. -/

namespace AlkaliFw

def payloadAdmCmd : Nat := 0x10
def payloadIoCmd : Nat := 0x11
def payloadAck : Nat := 0x20
def payloadAckData : Nat := 0x21

@[match_pattern] def cmdAdmFwCommit : Nat := 0x10
@[match_pattern] def cmdAdmFwDownload : Nat := 0x11
@[match_pattern] def cmdAdmCtl : Nat := 0xC0
@[match_pattern] def cmdAdmIdentify : Nat := 0xC2
@[match_pattern] def cmdAdmStatus : Nat := 0xC6
@[match_pattern] def cmdIoSendData : Nat := 0x81
@[match_pattern] def cmdIoReadData : Nat := 0x82
@[match_pattern] def cmdIoSendFw : Nat := 0x85
@[match_pattern] def cmdIoReadFw : Nat := 0x86
@[match_pattern] def cmdIoReadLba : Nat := 0x88
@[match_pattern] def cmdIoWriteLba : Nat := 0x8c
@[match_pattern] def cmdIoCtl : Nat := 0x91

@[match_pattern] def accIoOpReset : Nat := 0
@[match_pattern] def accIoOpStart : Nat := 1
@[match_pattern] def accIoOpStop : Nat := 2
@[match_pattern] def accIoOpSetFw : Nat := 3

def ramdiskBase : Nat := 0x68000000
def ramdiskPage : Nat := 4096

def SqBuf.cdw14 (b : SqBuf) : Nat := (b 14).toNat
def SqBuf.cdw15 (b : SqBuf) : Nat := (b 15).toNat

inductive AccState where
  | idle | running | done | fail
  deriving DecidableEq

def AccState.toNat : AccState → Nat
  | .idle => 0
  | .running => 1
  | .done => 2
  | .fail => 3

/-- `ramdisk_in` and `ramdisk_out` with their base and size. -/
structure Window where
  enabled : Bool := false
  base : Nat := 0
  size : Nat := 0
  deriving DecidableEq

structure Acc where
  id : Nat
  ramdiskIn : Window := {}
  ramdiskOut : Window := {}
  firmware : List UInt8 := []
  ibuf : List UInt8 := []
  obuf : List UInt8 := []
  state : AccState := .idle

/-- `stat_head_t`. -/
structure StatHead where
  len : Nat
  id : Nat
  rsvd : Nat → UInt8

def StatHead.bytes (h : StatHead) : List UInt8 :=
  leBytes 4 h.len ++ leBytes 4 h.id ++ (List.range 24).map h.rsvd

/-- What `send_ack` writes to the channel. -/
structure Ack where
  id : Nat
  priv : Slot
  buf : Nat
  bufLen : Nat
  deriving DecidableEq

/-- What the application takes from Linux and ubpf; an answer may depend on the number of
questions before it. `ubpfExec` is the value returned and what the program leaves in `obuf`. -/
structure Linux where
  mmap : (clock base len : Nat) → Bool
  ubpfCreate : (clock : Nat) → Bool
  ubpfLoadElf : (clock : Nat) → (firmware : List UInt8) → Bool
  ubpfExec : (clock : Nat) → (firmware ibuf obuf : List UInt8) → Int × (Nat → UInt8)

/-- `accelerators` points to objects in `objs`. `created` are the objects for which a thread
was created, `flashed` the images given to `flash_fw`, both newest first like `acks`. -/
structure Apu where
  accelerators : List Nat
  objs : Nat → Option Acc
  nextObj : Nat
  created : List Nat := []
  fwMap : Nat → Option (List UInt8) := fun _ => none
  fwBuffer : List UInt8 := []
  flashed : List (List UInt8) := []
  heads : Nat → StatHead
  globalEnable : Bool := false
  mem : Nat → UInt8
  acks : List Ack := []
  clock : Nat := 0

/-- After `init` of `main.cpp`: one accelerator, and status heads that nothing has written. -/
def Apu.boot (mem : Nat → UInt8) (heads : Nat → StatHead) : Apu where
  accelerators := [0]
  objs := Function.update (fun _ => none) 0 (some { id := 0 })
  nextObj := 1
  heads := heads
  mem := mem

/-- Physical memory behind a pointer of the application. -/
structure Mapped where
  base : Nat
  len : Nat

namespace Apu

def setAcc (s : Apu) (a : Nat) (f : Acc → Acc) : Option Apu :=
  (s.objs a).map fun acc => { s with objs := Function.update s.objs a (some (f acc)) }

/-- Access at or beyond the end of a mapping is not defined. -/
def read (s : Apu) (b : Mapped) (n : Nat) : Option (List UInt8) :=
  if n ≤ b.len then some ((List.range n).map fun i => s.mem (b.base + i)) else none

def store (s : Apu) (b : Mapped) (bytes : List UInt8) : Option Apu :=
  if bytes.length ≤ b.len then
    some { s with mem := copyTo s.mem b.base bytes.length fun i => bytes.getD i 0 }
  else none

def sendAck (s : Apu) (data : RpmsgPayload) (id : Nat) : Apu :=
  { s with acks := ⟨id, data.priv, data.buf, data.bufLen⟩ :: s.acks }

end Apu

section

variable (L : Linux)

def mmapBuffer (base len : Nat) (s : Apu) : Option Mapped × Apu :=
  (if L.mmap s.clock base len then some ⟨base, len⟩ else none, { s with clock := s.clock + 1 })

/-! Firmware of the board, `qspi.cpp`. -/

/-- `std::copy` into a vector, which does not grow. -/
def copyInto (l : List UInt8) (at' : Nat) (bytes : List UInt8) : Option (List UInt8) :=
  if at' + bytes.length ≤ l.length then some (l.take at' ++ bytes ++ l.drop (at' + bytes.length)) else none

def resize (l : List UInt8) (n : Nat) : List UInt8 := l.take n ++ List.replicate (n - l.length) 0

/-- The thread of the previous commit is joined first; `flash_fw` gets a copy. -/
def admCmdFwCommit (s : Apu) : Apu := { s with flashed := s.fwBuffer :: s.flashed }

/-- Bytes in a number of double words, as both handlers of a download compute it. -/
def dwordBytes (n : Nat) : Nat := n * 4 % 2 ^ 32

def admCmdFwDownload (recv : RpmsgPayload) (buf : Mapped) (s : Apu) : Option Apu := do
  let ndw := recv.data.cdw10
  let off := recv.data.cdw11
  let size := dwordBytes ((off + ndw) % 2 ^ 32)
  let fwBuffer := if s.fwBuffer.length < size then resize s.fwBuffer size else s.fwBuffer
  let bytes ← s.read buf (dwordBytes ndw)
  let fwBuffer ← copyInto fwBuffer (dwordBytes off) bytes
  some { s with fwBuffer }

/-! Identification and status. -/

def identifyStructBufSize : Nat := 4096

def capEntry (id bufSize : Nat) : List UInt8 := leBytes 4 id ++ leBytes 4 0 ++ leBytes 8 bufSize

/-- `setup_identify`: head, descriptor list and three capabilities. -/
def apuIdentifyStruct : List UInt8 :=
  let bufferSize := 64 * 1024 * 1024
  [0x57, 0x44, 0x43, 0x30] ++ leBytes 4 72 ++ leBytes 8 0 ++ (leBytes 4 56 ++ leBytes 4 0) ++
    capEntry 0 0 ++ capEntry 1 bufferSize ++ capEntry 2 bufferSize ++
    List.replicate (identifyStructBufSize - 72) 0x55

def admCmdIdentify (recv : RpmsgPayload) (buf : Mapped) (s : Apu) : Option Apu :=
  s.store buf (apuIdentifyStruct.take (if recv.bufLen > 4096 then 4096 else recv.bufLen))

def calculateStatus (id : Nat) (s : Apu) : Option Apu := do
  let a ← s.accelerators[id]?
  let acc ← s.objs a
  some { s with heads := Function.update s.heads id { s.heads id with len := 8, id := acc.state.toNat } }

def admCmdStatus (recv : RpmsgPayload) (buf : Mapped) (s : Apu) : Option Apu :=
  let id := recv.data.cdw12 % 2 ^ 16
  let rae := recv.data.cdw12 / 2 ^ 31 % 2
  if id ≥ s.accelerators.length then some s
  else (if rae = 0 then calculateStatus id s else some s).bind fun s =>
    if recv.bufLen ≤ 32 then s.store buf ((s.heads id).bytes.take recv.bufLen) else some s

def admCmdAccCtl (recv : RpmsgPayload) (s : Apu) : Apu :=
  match recv.data.cdw12 with
  | 0 => { s with globalEnable := true }
  | 1 => { s with globalEnable := false }
  | _ => s

/-! Accelerators. -/

/-- The assertion on the length is on in this build. -/
def ioCmdSendFw (recv : RpmsgPayload) (buf : Mapped) (s : Apu) : Option Apu := do
  let len := dwordBytes recv.data.cdw10
  let id := recv.data.cdw13
  if len ≠ recv.bufLen then none
  else do
    let fw ← s.read buf recv.bufLen
    some { s with fwMap := Function.update s.fwMap id (some fw) }

def Acc.addRamdiskIn (acc : Acc) (base size : Nat) : Acc :=
  { acc with ramdiskIn := ⟨true, base % 2 ^ 32, size % 2 ^ 32⟩ }

def Acc.addRamdiskOut (acc : Acc) (base size : Nat) : Acc :=
  { acc with ramdiskOut := ⟨true, base % 2 ^ 32, size % 2 ^ 32⟩ }

/-- Both LBA commands. -/
def ioCmdLba (add : Acc → Nat → Nat → Acc) (recv : RpmsgPayload) (s : Apu) : Option Apu :=
  let lba := recv.data.cdw13 * 2 ^ 32 + recv.data.cdw12
  let len := recv.data.cdw14 % 2 ^ 16
  let addr := (lba * ramdiskPage + ramdiskBase) % 2 ^ 64
  match s.accelerators[recv.data.cdw15]? with
  | some a => s.setAcc a (add · addr (len * ramdiskPage % 2 ^ 32))
  | none => some s

def ioCmdReadLba : RpmsgPayload → Apu → Option Apu := ioCmdLba Acc.addRamdiskIn
def ioCmdWriteLba : RpmsgPayload → Apu → Option Apu := ioCmdLba Acc.addRamdiskOut

/-- `accelerators[id] = new Acc(id); delete a`. -/
def Apu.resetAcc (s : Apu) (id a : Nat) : Apu :=
  { s with
    accelerators := s.accelerators.set id s.nextObj
    objs := Function.update (Function.update s.objs s.nextObj (some { id })) a none
    nextObj := s.nextObj + 1 }

/-- `fw_map[fw_id]` inserts an empty vector if there is none. -/
def Apu.setFw (s : Apu) (a fwId : Nat) : Option Apu :=
  let fw := (s.fwMap fwId).getD []
  ({ s with fwMap := Function.update s.fwMap fwId (some fw) }).setAcc a fun acc => { acc with firmware := fw }

/-- The firmware is chosen by the double word that also selects the accelerator. -/
def ioCmdAccCtl (recv : RpmsgPayload) (s : Apu) : Option Apu :=
  let id := recv.data.cdw14
  let fwId := recv.data.cdw14
  match s.accelerators[id]? with
  | none => some s
  | some a =>
    match recv.data.cdw13 with
    | accIoOpReset => some (s.resetAcc id a)
    | accIoOpStart => some { s with created := a :: s.created }
    | accIoOpStop => some s
    | accIoOpSetFw => s.setFw a fwId
    | _ => some s

/-! Dispatch. -/

/-- Without a buffer `mmap_buf` is a pointer that nothing was assigned to. -/
def mapRequest (recv : RpmsgPayload) (s : Apu) : Option Mapped × Apu :=
  if recv.bufLen > 0 then mmapBuffer L recv.buf recv.bufLen s else (some ⟨0, 0⟩, s)

def admCmd (recv : RpmsgPayload) (buf : Mapped) (s : Apu) : Option Apu :=
  match recv.data.opc with
  | cmdAdmFwCommit => some ((admCmdFwCommit s).sendAck recv payloadAck)
  | cmdAdmFwDownload => (admCmdFwDownload recv buf s).map (·.sendAck recv payloadAck)
  | cmdAdmIdentify => (admCmdIdentify recv buf s).map (·.sendAck recv payloadAckData)
  | cmdAdmCtl => some ((admCmdAccCtl recv s).sendAck recv payloadAck)
  | cmdAdmStatus => (admCmdStatus recv buf s).map (·.sendAck recv payloadAckData)
  | _ => some (s.sendAck recv payloadAck)

/-- The four cases before the last fall through to `io_cmd_acc_ctl`. -/
def ioCmd (recv : RpmsgPayload) (buf : Mapped) (s : Apu) : Option Apu :=
  match recv.data.opc with
  | cmdIoSendFw => (ioCmdSendFw recv buf s).map (·.sendAck recv payloadAck)
  | cmdIoReadLba => (ioCmdReadLba recv s).map (·.sendAck recv payloadAck)
  | cmdIoWriteLba => (ioCmdWriteLba recv s).map (·.sendAck recv payloadAck)
  | cmdIoSendData | cmdIoReadData | cmdIoReadFw | cmdIoCtl => (ioCmdAccCtl recv s).map (·.sendAck recv payloadAck)
  | _ => some (s.sendAck recv payloadAck)

/-- Both `handle_adm_cmd` and `handle_io_cmd`: a buffer that cannot be mapped ends them. -/
def handleWith (cmd : RpmsgPayload → Mapped → Apu → Option Apu) (recv : RpmsgPayload) (s : Apu) : Option Apu :=
  match mapRequest L recv s with
  | (none, s) => some (s.sendAck recv payloadAck)
  | (some buf, s) => cmd recv buf s

def handleAdmCmd : RpmsgPayload → Apu → Option Apu := handleWith L admCmd
def handleIoCmd : RpmsgPayload → Apu → Option Apu := handleWith L ioCmd

/-- One round of the loop of `main`. -/
def Apu.handle (s : Apu) (recv : RpmsgPayload) : Option Apu :=
  if recv.id = payloadAdmCmd then handleAdmCmd L recv s
  else if recv.id = payloadIoCmd then handleIoCmd L recv s
  else some s

def Apu.handleAll (s : Apu) : List RpmsgPayload → Option Apu
  | [] => some s
  | m :: ms => (s.handle L m).bind fun t => t.handleAll ms

theorem mapRequest_clock (recv : RpmsgPayload) (s : Apu) : ∃ n, (mapRequest L recv s).2 = { s with clock := n } := by
  unfold mapRequest
  split
  · exact ⟨_, rfl⟩
  · exact ⟨s.clock, rfl⟩

theorem mapRequest_buf {recv : RpmsgPayload} {s : Apu} {buf : Mapped} (h : (mapRequest L recv s).1 = some buf) :
    buf.len = recv.bufLen ∧ (buf.len = 0 ∨ buf.base = recv.buf) := by
  unfold mapRequest at h
  split at h
  · unfold mmapBuffer at h
    dsimp only at h
    split at h <;> cases h
    exact ⟨rfl, .inr rfl⟩
  · cases h
    exact ⟨(Nat.eq_zero_of_not_pos ‹_›).symm, .inl rfl⟩

/-- A message is dropped, its buffer cannot be mapped, or its command is carried out. -/
theorem handle_cases {recv : RpmsgPayload} {s t : Apu} (h : s.handle L recv = some t) :
    (recv.id ≠ payloadAdmCmd ∧ recv.id ≠ payloadIoCmd ∧ t = s) ∨
      ((recv.id = payloadAdmCmd ∨ recv.id = payloadIoCmd) ∧ (mapRequest L recv s).1 = none ∧
        t = (mapRequest L recv s).2.sendAck recv payloadAck) ∨
      ∃ buf, (mapRequest L recv s).1 = some buf ∧
        (recv.id = payloadAdmCmd ∧ admCmd recv buf (mapRequest L recv s).2 = some t ∨
          recv.id = payloadIoCmd ∧ ioCmd recv buf (mapRequest L recv s).2 = some t) := by
  unfold Apu.handle at h
  split at h
  · rename_i adm
    unfold handleAdmCmd handleWith at h
    split at h
    · rename_i u map
      cases h
      exact .inr (.inl ⟨.inl adm, by rw [map], by rw [map]⟩)
    · rename_i buf u map
      exact .inr (.inr ⟨buf, by rw [map], .inl ⟨adm, by rw [map]; exact h⟩⟩)
  · rename_i adm
    split at h
    · rename_i io
      unfold handleIoCmd handleWith at h
      split at h
      · rename_i u map
        cases h
        exact .inr (.inl ⟨.inr io, by rw [map], by rw [map]⟩)
      · rename_i buf u map
        exact .inr (.inr ⟨buf, by rw [map], .inr ⟨io, by rw [map]; exact h⟩⟩)
    · rename_i io
      cases h
      exact .inl ⟨adm, io, rfl⟩

end
/-- Every mapping, load and run succeeds; programs leave their output as it is. -/
def plainLinux : Linux where
  mmap _ _ _ := true
  ubpfCreate _ := true
  ubpfLoadElf _ _ := true
  ubpfExec _ _ _ obuf := (0, fun i => obuf.getD i 0)

/-- A message about the command with these double words. -/
def message (id buf bufLen : Nat) (data : SqBuf) (word : bufLen < 2 ^ 32) : RpmsgPayload :=
  { id, len := 64, priv := 0, buf, bufLen, data, word }

theorem noBuffer_word : 0 < 2 ^ 32 := by decide

/-- Double words of a command: the opcode and some of those from CDW10 on. -/
def dwords (opc : Nat) (set : List (Nat × Nat)) : SqBuf := fun i =>
  if i = 0 then BitVec.ofNat 32 opc else BitVec.ofNat 32 ((set.lookup i.val).getD 0)

end AlkaliFw
