import AlkaliFw.Apu

/-! The threads that run eBPF programs, `acc.cpp`, beside the thread that handles messages.
A thread proceeds by single actions, each under the member of its `Acc` that it reads or
writes; a message is handled in one step. -/

namespace AlkaliFw
open Resumption

/-- What an action of `runBPF` touches of an accelerator object. -/
inductive AccField where
  | id | state | firmware | ramdiskIn | ramdiskOut | buffers
  deriving DecidableEq

inductive AccAccess where
  | acc (a : Nat) (f : AccField)
  /-- `mmap_buffer` on a range of physical addresses -/
  | mmap (base len : Nat)
  | other
  deriving DecidableEq

abbrev AccCode := Prog AccAccess Apu

/-- An action on the object `a`, which has to be there. -/
def onAcc {α : Type} (a : Nat) (f : AccField) (g : Acc → Apu → α × Apu) : AccCode α := do
  let r ← .swap (.acc a f) fun s =>
    match s.objs a with
    | some acc => (some (g acc s).1, (g acc s).2)
    | none => (none, s)
  match r with
  | some v => pure v
  | none => .stuck

def ofAcc {α : Type} (a : Nat) (f : AccField) (get : Acc → α) : AccCode α := onAcc a f fun acc s => (get acc, s)

def Apu.putAcc (s : Apu) (a : Nat) (acc : Acc) : Apu := { s with objs := Function.update s.objs a (some acc) }

def setState (a : Nat) (state : AccState) : AccCode Unit :=
  onAcc a .state fun acc s => ((), s.putAcc a { acc with state })

section

variable (L : Linux)

/-- Both buffer functions: map the window, move the bytes, unmap it. The result of
`mmap_buffer` is not looked at. -/
def withWindow (a : Nat) (f : AccField) (window : Acc → Window) (move : Mapped → Nat → AccCode Unit) : AccCode Unit := do
  let base ← ofAcc a f fun acc => (window acc).base
  let size ← ofAcc a f fun acc => (window acc).size
  let buf ← .swap (.mmap base size) (mmapBuffer L base size)
  let n ← ofAcc a f fun acc => (window acc).size
  move (buf.getD ⟨0, 0⟩) n
  -- the length for `munmap`
  let _ ← ofAcc a f fun acc => (window acc).size
  pure ()

def ramdiskToBuf (a : Nat) : AccCode Unit :=
  withWindow L a .ramdiskIn Acc.ramdiskIn fun buf n => do
    let ok ← onAcc a .buffers fun acc s =>
      match s.read buf n with
      | some bytes => (true, s.putAcc a { acc with ibuf := bytes })
      | none => (false, s)
    if ok then pure () else .stuck

def bufToRamdisk (a : Nat) : AccCode Unit :=
  withWindow L a .ramdiskOut Acc.ramdiskOut fun buf _ => do
    let ok ← onAcc a .buffers fun acc s =>
      match s.store buf acc.obuf with
      | some t => (true, t)
      | none => (false, s)
    if ok then pure () else .stuck

def resizeObuf (a : Nat) : AccCode Unit := do
  let size ← ofAcc a .ramdiskOut (·.ramdiskOut.size)
  onAcc a .buffers fun acc s => ((), s.putAcc a { acc with obuf := resize acc.obuf size })

def ubpfCreate : AccCode Bool := .swap .other fun s => (L.ubpfCreate s.clock, { s with clock := s.clock + 1 })

/-- The machine keeps a copy of the program. -/
def ubpfLoadElf (a : Nat) : AccCode (Bool × List UInt8) :=
  onAcc a .firmware fun acc s => ((L.ubpfLoadElf s.clock acc.firmware, acc.firmware), { s with clock := s.clock + 1 })

def ubpfExec (a : Nat) (firmware : List UInt8) : AccCode Int :=
  onAcc a .buffers fun acc s =>
    let r := L.ubpfExec s.clock firmware acc.ibuf acc.obuf
    (r.1, Apu.putAcc { s with clock := s.clock + 1 } a { acc with obuf := (List.range acc.obuf.length).map r.2 })

/-- A message with the id of the accelerator. -/
def logId (a : Nat) : AccCode Unit := do
  let _ ← ofAcc a .id (·.id)
  pure ()

def failed (a : Nat) : AccCode Unit := do
  logId a
  setState a .fail

def runBPF (a : Nat) : AccCode Unit := do
  logId a
  setState a .running
  let vm ← ubpfCreate L
  if vm = false then failed a
  else do
    let loaded ← ubpfLoadElf L a
    if loaded.1 = false then failed a
    else do
      let input ← ofAcc a .ramdiskIn (·.ramdiskIn.enabled)
      .when input (ramdiskToBuf L a)
      let output ← ofAcc a .ramdiskOut (·.ramdiskOut.enabled)
      .when output (resizeObuf a)
      let _ ← ubpfExec L a loaded.2
      let output ← ofAcc a .ramdiskOut (·.ramdiskOut.enabled)
      .when output (bufToRamdisk L a)
      setState a .done
      logId a

end

/-- What messages set in an accelerator. -/
structure AccConfig where
  id : Nat
  firmware : List UInt8
  ramdiskIn : Window
  ramdiskOut : Window
  deriving DecidableEq

def Acc.config (acc : Acc) : AccConfig := ⟨acc.id, acc.firmware, acc.ramdiskIn, acc.ramdiskOut⟩

/-- A thread with what is left of its code, and the configuration at its start. -/
structure AccThread where
  obj : Nat
  config : AccConfig
  rest : AccCode Unit

def AccThread.label (t : AccThread) : Option AccAccess :=
  match t.rest with
  | .act l _ _ => some l
  | _ => none

structure ApuSys where
  apu : Apu
  threads : List AccThread := []

inductive ApuEvent where
  | message (m : RpmsgPayload)
  /-- the thread at this place takes an action -/
  | thread (i : Nat)
  /-- others write the shared memory -/
  | memory (mem : Nat → UInt8)

section

variable (L : Linux)

def AccThread.spawn (s : Apu) (a : Nat) : Option AccThread :=
  (s.objs a).map fun acc => ⟨a, acc.config, runBPF L a⟩

/-- A thread that returned is gone. -/
def ApuSys.stepThread (S : ApuSys) (i : Nat) : Option ApuSys :=
  match S.threads[i]? with
  | none => none
  | some t =>
    match t.rest with
    | .act _ f k =>
      match k S.apu with
      | .pure _ => some ⟨f S.apu, S.threads.eraseIdx i⟩
      | .stuck => none
      | rest => some ⟨f S.apu, S.threads.set i { t with rest }⟩
    | _ => none

def ApuSys.step (S : ApuSys) : ApuEvent → Option ApuSys
  | .message m => (S.apu.handle L m).map fun t =>
    ⟨t, S.threads ++ (t.created.take (t.created.length - S.apu.created.length)).filterMap (AccThread.spawn L t)⟩
  | .thread i => S.stepThread i
  | .memory mem => some { S with apu := { S.apu with mem } }

inductive ApuRun (ok : ApuSys → ApuEvent → Prop) : ApuSys → ApuSys → Prop where
  | refl (S : ApuSys) : ApuRun ok S S
  | step {S T U : ApuSys} (e : ApuEvent) (run : ApuRun ok S T) (met : ok T e) (next : T.step L e = some U) : ApuRun ok S U

def ApuSys.stepAll (S : ApuSys) : List ApuEvent → Option ApuSys
  | [] => some S
  | e :: es => (S.step L e).bind fun T => T.stepAll es

theorem ApuRun.all {ok : ApuSys → ApuEvent → Prop} {es : List ApuEvent} {S T U : ApuSys} (run : ApuRun L ok S T)
    (met : ∀ e ∈ es, ∀ S, ok S e) (all : T.stepAll L es = some U) : ApuRun L ok S U := by
  induction es generalizing T with
  | nil =>
    cases all
    exact run
  | cons e es ih =>
    obtain ⟨V, next, all⟩ := Option.bind_eq_some_iff.mp all
    exact ih (run.step e (met e (List.mem_cons_self ..) T) next) (fun e he => met e (List.mem_cons_of_mem _ he)) all

def ApuSys.boot (mem : Nat → UInt8) (heads : Nat → StatHead) : ApuSys := ⟨Apu.boot mem heads, []⟩

end
end AlkaliFw
