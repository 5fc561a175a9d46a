import AlkaliFw.Commands

/-! `rpmsg.c`, and the controller as a whole: interrupt handlers run to completion, the
polling thread proceeds by single actions, the host and the hardware act in between. The
APU answers requests in any order, with the `priv`, `buf` and `buf_len` they carried. -/

namespace AlkaliFw
open Resumption

def rpmsgCmdReturn : Nat := 0x20
def rpmsgCmdReturnDataId : Nat := 0x21

section

variable (P : Platform)

/-- `k_mem_pool_free(&priv->block)`, which goes by the id of the block. -/
def kMemPoolFree (c : Slot) : Code Unit :=
  .change (.cmd c) fun s =>
    let block := (s.cmds c).block
    Fw.note { s with pool := s.pool.filter fun l => l.block.id ≠ block.id }
      (.poolFree c block ((s.pool.find? fun l => l.block.id = block.id).map (·.owner)))

def rpmsgCmdReturnCb (c : Slot) : Code Unit := do
  kMemPoolFree c
  nvmeCmdReturn P c

def rpmsgCmdReturnData (c : Slot) (buf len : Nat) : Code Unit := do
  let psdt ← ofCmd c (·.sqBuf.psdt)
  setXfer c buf len .toHost .rpmsgCmdReturnCb
  if psdt ≠ 0 then nvmeCmdReturn P c
  else do
    let _ ← nvmeCmdTransferData P c
    pure ()

def rpmsgEndpointCb (payload : RpmsgPayload) : Code Unit :=
  if payload.id = rpmsgCmdReturn then do
    nvmeCmdReturn P payload.priv
    let data ← ofCmd payload.priv (·.block.data)
    .when (data ≠ 0) (kMemPoolFree payload.priv)
  else if payload.id = rpmsgCmdReturnDataId then
    rpmsgCmdReturnData P payload.priv payload.buf payload.bufLen
  else lose payload.priv .payloadId

/-- The functions installed as DMA callbacks. -/
def callback : Cb → Slot → Local → Code Unit
  | .nvmeCmdHandler, c, _ => nvmeCmdHandler P c
  | .cqCb, c, _ => cqCb c
  | .nvmeCmdReturnCb, c, _ => nvmeCmdReturn P c
  | .prpCb, c, buf => prpCb P c buf
  | .vendorCb, c, _ => vendorCb P c
  | .rpmsgCmdReturnCb, c, _ => rpmsgCmdReturnCb P c

end

/-- A call of `rpmsg_endpoint_cb` that the polling thread has not finished. `given` says
that it has queued the descriptor with the command's final callback. -/
structure Call where
  cmd : Slot
  withData : Bool
  given : Bool
  rest : Code Unit

structure Sys where
  fw : Fw := {}
  call : Option Call := none

inductive Event where
  /-- the host writes a controller register, given by its word index -/
  | hostWrite (reg value : Nat)
  /-- the host writes its own memory -/
  | hostStore (addr : Nat) (bytes : List UInt8)
  /-- the APU writes memory that it shares with the RPU -/
  | apuStore (addr : Nat) (bytes : List UInt8)
  | tcIrq
  | dmaDone (ch : Chan)
  | dmaIrq
  /-- the thread takes the answer to the `i`-th outstanding request -/
  | reply (i : Nat) (withData : Bool)
  /-- the thread executes one action -/
  | poll
  deriving DecidableEq

namespace Access

/-- A descriptor that carries the final callback of `c`: any but the list callback. -/
def givesUp (c : Slot) : Access → Bool
  | .submit (some (cb, d)) => decide (d = c ∧ cb ≠ .prpCb)
  | _ => false

end Access

/-- The label of the next action. -/
def Call.label (call : Call) : Option Access :=
  match call.rest with
  | .act l _ _ => some l
  | _ => none

/-- What is left of a call. Nothing is left of one that returned. -/
def Call.next (call : Call) (l : Access) : Code Unit → Option (Option Call)
  | .pure _ => some none
  | .act m f k => some (some { call with given := call.given || l.givesUp call.cmd, rest := .act m f k })
  | .stuck => none

section

variable (P : Platform)

/-- What happens besides the polling thread. -/
def Fw.env (s : Fw) : Event → Option Fw
  | .hostWrite reg value =>
    some { s with regs := Function.update s.regs (4 * reg) (value % 2 ^ 32), writes := s.writes ++ [reg] }
  | .hostStore addr bytes => some { s with host := copyTo s.host addr bytes.length fun i => bytes.getD i 0 }
  | .apuStore addr bytes => some { s with ram := copyTo s.ram addr bytes.length fun i => bytes.getD i 0 }
  | .tcIrq => ((nvmeTcIrqHandler P).run s).map (·.2)
  | .dmaDone ch => s.finish P ch
  | .dmaIrq => ((nvmeDmaIrqHandler (callback P)).run s).map (·.2)
  | .reply _ _ => none
  | .poll => none

/-- The thread takes an answer: it leaves the list of requests and its handling begins. -/
def Sys.startCall (S : Sys) (i : Nat) (withData : Bool) : Option Sys :=
  match S.call, S.fw.apu[i]? with
  | none, some m =>
    let id := if withData then rpmsgCmdReturnDataId else rpmsgCmdReturn
    ((Call.mk m.priv withData false (.pure ())).next .other (rpmsgEndpointCb P { m with id := id })).map
      fun call => ⟨{ S.fw with apu := S.fw.apu.eraseIdx i }, call⟩
  | _, _ => none

def Sys.pollStep (S : Sys) : Option Sys :=
  match S.call with
  | some call =>
    match call.rest with
    | .act l f k => (call.next l (k S.fw)).map fun next => ⟨f S.fw, next⟩
    | _ => none
  | none => none

def Sys.step (S : Sys) : Event → Option Sys
  | .reply i withData => S.startCall P i withData
  | .poll => S.pollStep
  | e => (S.fw.env P e).map fun fw => { S with fw }

/-- Execute a sequence of events. -/
def Sys.exec (S : Sys) : List Event → Option Sys
  | [] => some S
  | e :: es => (S.step P e).bind fun T => T.exec es

/-- Runs whose steps all meet a condition on the state before them. -/
inductive Run (ok : Sys → Event → Prop) : Sys → Sys → Prop where
  | refl (S : Sys) : Run ok S S
  | step {S T U : Sys} (e : Event) (run : Run ok S T) (met : ok T e) (next : T.step P e = some U) : Run ok S U

/-- The controller after `init`, with any contents of the memories. -/
def Sys.boot (host ram : Nat → UInt8) : Sys where
  fw := { host, ram }

def Reachable (S : Sys) : Prop := ∃ host ram, Run P (fun _ _ => True) (Sys.boot host ram) S

end

end AlkaliFw
