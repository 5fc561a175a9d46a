import AlkaliFw.Flash
import AlkaliFw.Lifecycle
import AlkaliFw.RamdiskWindow
import AlkaliFw.RunOutcome

/-! The firmware that SEND_FW leaves in `fw_map`, and the commands that give it to accelerators. -/

namespace AlkaliFw

/-- What was delivered last under an id. -/
abbrev Uploads := Nat → Option (List UInt8)

/-- A message about an IO command that gets as far as its handler. -/
def Arrives (L : Linux) (S : ApuSys) (m : RpmsgPayload) : Prop := m.id = payloadIoCmd ∧ (mapRequest L m S.apu).1.isSome

instance (L : Linux) (S : ApuSys) (m : RpmsgPayload) : Decidable (Arrives L S m) := inferInstanceAs (Decidable (_ ∧ _))

def noteUpload (L : Linux) (S : ApuSys) (up : Uploads) : ApuEvent → Uploads
  | .message m =>
    if Arrives L S m ∧ m.data.opc = cmdIoSendFw then
      Function.update up m.data.cdw13 (some ((List.range m.bufLen).map fun i => S.apu.mem (m.buf + i)))
    else up
  | _ => up

/-- Runs from power on, with what SEND_FW delivered so far. -/
inductive FwRun (L : Linux) (ok : Uploads → ApuSys → ApuEvent → Prop) : Uploads → ApuSys → Prop where
  | boot (mem : Nat → UInt8) (heads : Nat → StatHead) : FwRun L ok (fun _ => none) (ApuSys.boot mem heads)
  | step {up : Uploads} {S T : ApuSys} (e : ApuEvent) (run : FwRun L ok up S) (met : ok up S e) (next : S.step L e = some T) :
    FwRun L ok (noteUpload L S up e) T

/-- Some SET_FW gives these bytes to the accelerator, and changes nothing else. -/
def Installable (L : Linux) (s : Apu) (a : Nat) (bytes : List UInt8) : Prop :=
  ∃ m acc ack, m.id = payloadIoCmd ∧ m.data.opc = cmdIoCtl ∧ m.data.cdw13 = accIoOpSetFw ∧ s.objs a = some acc ∧
    s.handle L m = some { s.putAcc a { acc with firmware := bytes } with acks := ack :: s.acks }

/-- Every upload can be given to every accelerator. -/
def AllInstallable (L : Linux) (up : Uploads) (S : ApuSys) : Prop :=
  ∀ f bytes, up f = some bytes → ∀ (i a : Nat), S.apu.accelerators[i]? = some a → Installable L S.apu a bytes

def Apu.firmware (s : Apu) (a : Nat) : Option (List UInt8) := (s.config a).map AccConfig.firmware

/-- SET_FW does nothing with an id that was never uploaded, and accelerators are replaced, started
or given firmware by IO CTL only. -/
structure Governed (up : Uploads) (S T : ApuSys) (m : RpmsgPayload) : Prop where
  unknown : ∀ id, m.id = payloadIoCmd → accAction m.data = some (.setFw, id) → up id = none →
    T.apu.fwMap = S.apu.fwMap ∧ ∀ a, T.apu.firmware a = S.apu.firmware a
  others : ¬(m.id = payloadIoCmd ∧ m.data.opc = cmdIoCtl) →
    T.apu.accelerators = S.apu.accelerators ∧ T.apu.created = S.apu.created ∧ ∀ a, T.apu.firmware a = S.apu.firmware a

/-- SEND_FW names the number of the accelerator, SET_FW an upload, and no other command an operation
on an accelerator. -/
def Controlled (L : Linux) (up : Uploads) (S : ApuSys) : ApuEvent → Prop
  | .message m => Arrives L S m →
    (m.data.opc = cmdIoSendFw → ∀ i a, S.apu.accelerators[i]? = some a → m.data.cdw13 = i) ∧
      ∀ action id a, accAction m.data = some (action, id) → S.apu.accelerators[id]? = some a →
        (action = .start ∨ action = .reset ∨ action = .setFw → m.data.opc = cmdIoCtl) ∧ (action = .setFw → up id ≠ none)
  | _ => True

section Messages

variable {L : Linux} {m : RpmsgPayload} {s t : Apu} {buf : Mapped}

theorem fwMap_admCmd (h : admCmd m buf s = some t) : t.fwMap = s.fwMap := by
  unfold admCmd at h
  split at h
  · cases h
    rfl
  · obtain ⟨u, load, rfl⟩ := Option.map_eq_some_iff.mp h
    obtain ⟨bytes, -, load⟩ := Option.bind_eq_some_iff.mp load
    obtain ⟨fw, -, load⟩ := Option.bind_eq_some_iff.mp load
    cases load
    rfl
  · obtain ⟨u, store, rfl⟩ := Option.map_eq_some_iff.mp h
    exact (Apu.Still.store store).fwMap
  · cases h
    unfold admCmdAccCtl
    split <;> rfl
  · obtain ⟨u, status, rfl⟩ := Option.map_eq_some_iff.mp h
    change u.fwMap = s.fwMap
    unfold admCmdStatus at status
    dsimp only at status
    split at status
    · cases status
      rfl
    · obtain ⟨v, fresh, stored⟩ := Option.bind_eq_some_iff.mp status
      have first : v.fwMap = s.fwMap := by
        split at fresh
        · obtain ⟨a, -, fresh⟩ := Option.bind_eq_some_iff.mp fresh
          obtain ⟨acc, -, fresh⟩ := Option.bind_eq_some_iff.mp fresh
          cases fresh
          rfl
        · cases fresh
          rfl
      split at stored
      · exact (Apu.Still.store stored).fwMap.trans first
      · cases stored
        exact first
  · cases h
    rfl

/-- What an IO command leaves in `fw_map`. -/
inductive FwMapAct (m : RpmsgPayload) (s t : Apu) : Prop where
  | same (opc : m.data.opc ≠ cmdIoSendFw) (same : t.fwMap = s.fwMap)
  | upload (opc : m.data.opc = cmdIoSendFw)
      (stored : t.fwMap = Function.update s.fwMap m.data.cdw13 (some ((List.range m.bufLen).map fun i => s.mem (m.buf + i))))
  | choose {id a : Nat} (opc : m.data.opc ≠ cmdIoSendFw) (action : accAction m.data = some (.setFw, id))
      (here : s.accelerators[id]? = some a) (stored : t.fwMap = Function.update s.fwMap id (some ((s.fwMap id).getD [])))

theorem fwMap_ioCmdAccCtl (opc : m.data.opc ≠ cmdIoSendFw)
    (decoded : m.data.cdw13 = accIoOpSetFw → accAction m.data = some (.setFw, m.data.cdw14))
    (h : (ioCmdAccCtl m s).map (·.sendAck m payloadAck) = some t) : FwMapAct m s t := by
  obtain ⟨u, ctl, rfl⟩ := Option.map_eq_some_iff.mp h
  unfold ioCmdAccCtl at ctl
  dsimp only at ctl
  split at ctl
  · cases ctl
    exact .same opc rfl
  · rename_i a here
    split at ctl
    · cases ctl
      exact .same opc rfl
    · cases ctl
      exact .same opc rfl
    · cases ctl
      exact .same opc rfl
    · rename_i op
      obtain ⟨acc, -, rfl⟩ := Option.map_eq_some_iff.mp ctl
      exact .choose opc (decoded op) here rfl
    · cases ctl
      exact .same opc rfl

/-- The buffer of a request, read whole. -/
theorem read_request {bytes : List UInt8} (at' : buf.len = 0 ∨ buf.base = m.buf) (h : s.read buf m.bufLen = some bytes) :
    bytes = (List.range m.bufLen).map fun i => s.mem (m.buf + i) := by
  unfold Apu.read at h
  split at h
  · rename_i inside
    cases h
    rcases at' with empty | base
    · have none : m.bufLen = 0 := by omega
      rw [none]
      rfl
    · rw [base]
  · cases h

theorem fwMap_ioCmd (at' : buf.len = 0 ∨ buf.base = m.buf) (h : ioCmd m buf s = some t) : FwMapAct m s t := by
  have lba {add : Acc → Nat → Nat → Acc} (opc : m.data.opc ≠ cmdIoSendFw)
      (run : (ioCmdLba add m s).map (·.sendAck m payloadAck) = some t) : FwMapAct m s t := by
    obtain ⟨u, lba, rfl⟩ := Option.map_eq_some_iff.mp run
    unfold ioCmdLba at lba
    dsimp only at lba
    split at lba
    · obtain ⟨acc, -, rfl⟩ := Option.map_eq_some_iff.mp lba
      exact .same opc rfl
    · cases lba
      exact .same opc rfl
  unfold ioCmd at h
  split at h
  · rename_i opc
    obtain ⟨u, fw, rfl⟩ := Option.map_eq_some_iff.mp h
    simp only [ioCmdSendFw] at fw
    split at fw
    · cases fw
    · obtain ⟨bytes, read, fw⟩ := Option.bind_eq_some_iff.mp fw
      cases fw
      exact .upload opc (by rw [← read_request at' read]; rfl)
  · rename_i opc
    exact lba (by rw [opc]; decide) h
  · rename_i opc
    exact lba (by rw [opc]; decide) h
  · rename_i opc
    exact fwMap_ioCmdAccCtl (by rw [opc]; decide) (fun op => by simp only [accAction, opc, op]; rfl) h
  · rename_i opc
    exact fwMap_ioCmdAccCtl (by rw [opc]; decide) (fun op => by simp only [accAction, opc, op]; rfl) h
  · rename_i opc
    exact fwMap_ioCmdAccCtl (by rw [opc]; decide) (fun op => by simp only [accAction, opc, op]; rfl) h
  · rename_i opc
    exact fwMap_ioCmdAccCtl (by rw [opc]; decide) (fun op => by simp only [accAction, opc, op]; rfl) h
  · cases h
    exact .same ‹_› rfl

theorem fwMap_handle (h : s.handle L m = some t) :
    ¬(m.id = payloadIoCmd ∧ (mapRequest L m s).1.isSome) ∧ t.fwMap = s.fwMap ∨
      (m.id = payloadIoCmd ∧ (mapRequest L m s).1.isSome) ∧ FwMapAct m s t := by
  obtain ⟨n, clock⟩ := mapRequest_clock L m s
  rcases handle_cases L h with ⟨-, other, rfl⟩ | ⟨-, none, rfl⟩ | ⟨buf, some', ⟨adm, cmd⟩ | ⟨io, cmd⟩⟩
  · exact .inl ⟨fun io => other io.1, rfl⟩
  · refine .inl ⟨fun io => ?_, by rw [clock]; rfl⟩
    rw [none] at io
    exact absurd io.2 nofun
  · refine .inl ⟨fun io => ?_, by rw [fwMap_admCmd cmd, clock]⟩
    rw [adm] at io
    exact absurd io.1 (by decide)
  · refine .inr ⟨⟨io, by rw [some']; rfl⟩, ?_⟩
    have act := fwMap_ioCmd (mapRequest_buf L some').2 cmd
    rw [clock] at act
    cases act with
    | same opc same => exact .same opc same
    | upload opc stored => exact .upload opc stored
    | choose opc action here stored => exact .choose opc action here stored

theorem Placed.handle (h : Placed s) (step : s.handle L m = some t) :
    Placed t ∧ t.accelerators.length = s.accelerators.length := by
  rcases message_handle step with calm | ⟨-, -, n, act⟩
  · exact ⟨h.calm calm, congrArg List.length calm.accelerators⟩
  · have h' : Placed { s with clock := n } := h
    cases act with
    | start action here started =>
      have calm : s.Calm { t with created := s.created } := ⟨started.accelerators, started.nextObj, rfl, started.objs⟩
      have placed : Placed { t with created := s.created } := h.calm calm
      exact ⟨placed, congrArg List.length started.accelerators⟩
    | reset action here replaced =>
      refine ⟨(h'.reset here).calm replaced, ?_⟩
      rw [replaced.accelerators, Apu.resetAcc, List.length_set]
    | config decoded here configured => exact ⟨h'.configured configured, congrArg List.length configured.accelerators⟩

end Messages

/-- There is one accelerator, and `fw_map` holds what was uploaded, under its number. -/
structure Stocked (up : Uploads) (S : ApuSys) : Prop where
  placed : Placed S.apu
  single : S.apu.accelerators.length = 1
  map : S.apu.fwMap = up
  own : ∀ f, up f ≠ none → f = 0
  made : ∀ t ∈ S.threads, AccMade t.obj t.rest

section Step

variable {L : Linux} {up : Uploads} {S T : ApuSys} {m : RpmsgPayload}

theorem stocked_boot (mem : Nat → UInt8) (heads : Nat → StatHead) : Stocked (fun _ => none) (ApuSys.boot mem heads) :=
  ⟨(fenced_boot mem heads).placed, rfl, rfl, fun _ h => absurd rfl h, nofun⟩

theorem made_spawn {t : Apu} {as : List Nat} (th : AccThread) (hth : th ∈ as.filterMap (AccThread.spawn L t)) :
    AccMade th.obj th.rest := by
  obtain ⟨a, -, spawn⟩ := List.mem_filterMap.mp hth
  obtain ⟨acc, -, rfl⟩ := Option.map_eq_some_iff.mp spawn
  exact made_runBPF

theorem Stocked.handled {t : Apu} (h : Stocked up S) (meets : Controlled L up S (.message m)) (step : S.apu.handle L m = some t) :
    t.fwMap = noteUpload L S up (.message m) ∧ ∀ f, noteUpload L S up (.message m) f ≠ none → f = 0 := by
  rw [noteUpload]
  obtain ⟨first, here⟩ : ∃ a, S.apu.accelerators[0]? = some a := by
    have : 0 < S.apu.accelerators.length := by rw [h.single]; exact Nat.one_pos
    exact ⟨_, List.getElem?_eq_getElem this⟩
  rcases fwMap_handle step with ⟨not, same⟩ | ⟨arrives, act⟩
  · rw [if_neg fun both => not both.1, same]
    exact ⟨h.map, h.own⟩
  · cases act with
    | same opc same =>
      rw [if_neg fun both => opc both.2, same]
      exact ⟨h.map, h.own⟩
    | upload opc stored =>
      rw [if_pos ⟨arrives, opc⟩, stored, h.map]
      refine ⟨rfl, fun f some' => ?_⟩
      by_cases new : f = m.data.cdw13
      · rw [new]
        exact (meets arrives).1 opc 0 first here
      · rw [Function.update_of_ne new] at some'
        exact h.own f some'
    | choose opc action here stored =>
      rename_i id a
      rw [if_neg fun both => opc both.2, stored, h.map]
      have known := ((meets arrives).2 _ id a action here).2 rfl
      obtain ⟨bytes, known⟩ := Option.ne_none_iff_exists'.mp known
      rw [known, Option.getD_some, ← known, Function.update_eq_self]
      exact ⟨rfl, h.own⟩

theorem stocked_message (h : Stocked up S) (meets : Controlled L up S (.message m)) (step : S.step L (.message m) = some T) :
    Stocked (noteUpload L S up (.message m)) T := by
  obtain ⟨t, handled, rfl⟩ := Option.map_eq_some_iff.mp step
  obtain ⟨placed, length⟩ := h.placed.handle handled
  obtain ⟨map, own⟩ := h.handled meets handled
  refine ⟨placed, length.trans h.single, map, own, fun th hth => ?_⟩
  rcases List.mem_append.mp hth with old | new
  · exact h.made th old
  · exact made_spawn th new

theorem stocked_thread {i : Nat} (h : Stocked up S) (step : S.stepThread i = some T) : Stocked up T := by
  unfold ApuSys.stepThread at step
  split at step
  · cases step
  · rename_i th here
    have hth := List.mem_of_getElem? here
    split at step
    · rename_i l u k code
      have made := h.made th hth
      rw [code] at made
      obtain ⟨⟨-, still⟩, rest⟩ := made S.apu trivial
      have placed := h.placed.calm still.toCalm
      have single := (congrArg List.length still.accelerators).trans h.single
      have map := still.fwMap.trans h.map
      split at step
      · cases step
        exact ⟨placed, single, map, h.own, fun v hv => h.made v ((List.eraseIdx_sublist S.threads i).subset hv)⟩
      · cases step
      · cases step
        refine ⟨placed, single, map, h.own, fun v hv => ?_⟩
        rcases List.mem_or_eq_of_mem_set hv with old | rfl
        · exact h.made v old
        · exact rest
    · cases step

theorem stocked_run (run : FwRun L (Controlled L) up S) : Stocked up S := by
  induction run with
  | boot mem heads => exact stocked_boot mem heads
  | step e _ meets next ih =>
    cases e with
    | message m => exact stocked_message ih meets next
    | thread i => exact stocked_thread ih next
    | memory mem =>
      cases next
      exact ⟨ih.placed, ih.single, ih.map, ih.own, ih.made⟩

/-- SET_FW of the accelerator after power on, whose number is also the id of the firmware. -/
def setFwMessage : RpmsgPayload := message payloadIoCmd 0 0 (dwords cmdIoCtl [(13, accIoOpSetFw)]) noBuffer_word

theorem Stocked.installable (h : Stocked up S) : AllInstallable L up S := by
  intro f bytes known i a here
  obtain rfl : f = 0 := h.own f (by rw [known]; exact nofun)
  obtain ⟨inside, -⟩ := List.getElem?_eq_some_iff.mp here
  obtain rfl : i = 0 := by
    have := h.single
    omega
  obtain ⟨-, c, config, -⟩ := h.placed 0 a here
  obtain ⟨acc, obj, -⟩ := Option.map_eq_some_iff.mp config
  have stored : S.apu.fwMap 0 = some bytes := by
    rw [h.map]
    exact known
  refine ⟨setFwMessage, acc, ⟨payloadAck, setFwMessage.priv, setFwMessage.buf, setFwMessage.bufLen⟩, rfl, by decide, by decide, obj, ?_⟩
  have number : setFwMessage.data.cdw14 = 0 := by decide
  have op : setFwMessage.data.cdw13 = accIoOpSetFw := by decide
  have ctl : ioCmdAccCtl setFwMessage S.apu = some (S.apu.putAcc a { acc with firmware := bytes }) := by
    simp only [ioCmdAccCtl, number, op, here, accIoOpSetFw, Apu.setFw, stored, Option.getD_some]
    rw [← stored, Function.update_eq_self, Apu.setAcc, obj]
    rfl
  change (ioCmdAccCtl setFwMessage S.apu).map (·.sendAck setFwMessage payloadAck) = _
  rw [ctl]
  rfl

theorem firmware_of_config {s t : Apu} {a : Nat} (h : t.config a = s.config a) : t.firmware a = s.firmware a :=
  congrArg (Option.map AccConfig.firmware) h

theorem firmware_of_configured {s t u : Apu} {b : SqBuf} {id a : Nat} {action : AccAction} (other : action ≠ .setFw)
    (h : s.Configured a (action.update u b id) t) (a' : Nat) : t.firmware a' = s.firmware a' := by
  by_cases same : a' = a
  · rw [same, Apu.firmware, Apu.firmware, Apu.config, Apu.config, h.here]
    cases s.objs a with
    | none => rfl
    | some acc =>
      cases action with
      | setFw => exact absurd rfl other
      | _ => rfl
  · exact firmware_of_config (h.others a' same)

theorem governed_of_controlled (meets : Controlled L up S (.message m)) (step : S.step L (.message m) = some T) :
    Governed up S T m := by
  obtain ⟨t, handled, rfl⟩ := Option.map_eq_some_iff.mp step
  refine ⟨fun id io action unknown => ⟨?_, fun a => ?_⟩, fun other => ?_⟩
  · rcases fwMap_handle handled with ⟨-, same⟩ | ⟨arrives, act⟩
    · exact same
    · cases act with
      | same opc same => exact same
      | upload opc stored =>
        rw [accAction, opc] at action
        cases action
      | choose opc action' here stored =>
        rw [action, Option.some.injEq, Prod.mk.injEq] at action'
        exact absurd unknown (action'.2 ▸ ((meets arrives).2 _ _ _ (action'.2 ▸ action) here).2 rfl)
  · rcases message_handle handled with calm | ⟨io, mapped, n, act⟩
    · exact firmware_of_config (calm.objs a)
    · cases act with
      | start action' =>
        rw [action] at action'
        cases action'
      | reset action' =>
        rw [action] at action'
        cases action'
      | config decoded here configured =>
        rw [action] at decoded
        cases decoded
        exact absurd unknown (((meets ⟨io, mapped⟩).2 _ _ _ action here).2 rfl)
  · rcases message_handle handled with calm | ⟨io, mapped, n, act⟩
    · exact ⟨calm.accelerators, calm.created, fun a => firmware_of_config (calm.objs a)⟩
    · have only {action : AccAction} {id a : Nat} (decoded : accAction m.data = some (action, id))
          (here : S.apu.accelerators[id]? = some a) : ¬(action = .start ∨ action = .reset ∨ action = .setFw) := fun ctl =>
        other ⟨io, ((meets ⟨io, mapped⟩).2 _ _ _ decoded here).1 ctl⟩
      cases act with
      | start action here => exact absurd (.inl rfl) (only action here)
      | reset action here => exact absurd (.inr (.inl rfl)) (only action here)
      | config decoded here configured =>
        exact ⟨configured.accelerators, configured.created,
          firmware_of_configured (s := { S.apu with clock := n }) (fun set => only decoded here (.inr (.inr set))) configured⟩

end Step

/-- In every state of such a run the uploads can be installed, and the next message of the kind
does to the accelerators what it may. -/
theorem governed_of_controlled_run (L : Linux) (up : Uploads) (S : ApuSys) (run : FwRun L (Controlled L) up S) :
    AllInstallable L up S ∧
      ∀ m T, Controlled L up S (.message m) → S.step L (.message m) = some T → Governed up S T m :=
  ⟨(stocked_run run).installable, fun _ _ meets step => governed_of_controlled meets step⟩

/-- SEND_FW of four bytes. -/
def sendFwMessage (id : Nat) : RpmsgPayload := message payloadIoCmd 0 4 (dwords cmdIoSendFw [(10, 1), (13, id)]) (by decide)

/-- What is uploaded under another id than the number of the accelerator is out of its reach. -/
theorem upload_out_of_reach : ¬∀ (L : Linux) (up : Uploads) (S : ApuSys), FwRun L (fun _ _ _ => True) up S →
    AllInstallable L up S ∧ ∀ m T, S.step L (.message m) = some T → Governed up S T m := by
  intro claim
  let S₀ := ApuSys.boot (fun _ => 7) noHeads
  have runs : (S₀.step plainLinux (.message (sendFwMessage 1))).map (fun S => (S.apu.accelerators, S.apu.firmware 0, S.apu.fwMap 0)) =
      some ([0], some [], none) := by
    decide +kernel
  obtain ⟨S, step, state⟩ := Option.map_eq_some_iff.mp runs
  rw [Prod.mk.injEq, Prod.mk.injEq] at state
  obtain ⟨accelerators, firmware, unset⟩ := state
  have known : noteUpload plainLinux S₀ (fun _ => none) (.message (sendFwMessage 1)) 1 = some [7, 7, 7, 7] := by decide +kernel
  have here : S.apu.accelerators[0]? = some 0 := by rw [accelerators]; rfl
  have begun : FwRun plainLinux (fun _ _ _ => True) (fun _ => none) S₀ := .boot _ _
  have run := begun.step (.message (sendFwMessage 1)) trivial step
  obtain ⟨m, acc, ack, io, opc, op, obj, handled⟩ := (claim plainLinux _ S run).1 1 _ known 0 0 here
  have action : accAction m.data = some (.setFw, m.data.cdw14) := by simp only [accAction, opc, op]; rfl
  -- whatever SET_FW names, the accelerator is left with nothing
  have set : Apu.firmware { S.apu.putAcc 0 { acc with firmware := [7, 7, 7, 7] } with acks := ack :: S.apu.acks } 0 = some [7, 7, 7, 7] := by
    exact congrArg (fun o : Option Acc => (o.map Acc.config).map AccConfig.firmware) (putAcc_objs S.apu 0 { acc with firmware := [7, 7, 7, 7] })
  rcases message_handle handled with calm | ⟨-, -, n, act⟩
  · rw [firmware_of_config (calm.objs 0), firmware] at set
    cases set
  · cases act with
    | start action' =>
      rw [action] at action'
      cases action'
    | reset action' =>
      rw [action] at action'
      cases action'
    | config decoded there configured =>
      rw [action] at decoded
      cases decoded
      dsimp only at there
      rw [accelerators] at there
      obtain ⟨inside, rfl⟩ := List.getElem?_eq_some_iff.mp there
      have zero : m.data.cdw14 = 0 := Nat.lt_one_iff.mp inside
      have left := congrArg (Option.map AccConfig.firmware) configured.here
      simp only [zero, List.getElem_cons_zero] at left
      rw [Apu.firmware, Apu.config, left] at set
      rw [obj, Option.map_some, Option.map_some, AccAction.update] at set
      dsimp only at set
      rw [unset] at set
      cases set

/-- An upload under the number of the accelerator. -/
theorem upload_installable : ∃ up S, up 0 = some [7, 7, 7, 7] ∧ AllInstallable plainLinux up S := by
  let S₀ := ApuSys.boot (fun _ => 7) noHeads
  have runs : (S₀.step plainLinux (.message (sendFwMessage 0))).isSome := by decide +kernel
  obtain ⟨S, step⟩ := Option.isSome_iff_exists.mp runs
  have begun : FwRun plainLinux (Controlled plainLinux) (fun _ => none) S₀ := .boot _ _
  have meets : Controlled plainLinux (fun _ => none) S₀ (.message (sendFwMessage 0)) := by
    refine fun _ => ⟨fun _ i a here => ?_, fun action id a decoded => ?_⟩
    · exact (Nat.lt_one_iff.mp (List.getElem?_eq_some_iff.mp here).1).symm
    · cases decoded
  exact ⟨_, S, by decide +kernel, (governed_of_controlled_run _ _ S (begun.step _ meets step)).1⟩

end AlkaliFw
