import AlkaliFw.Accelerator

/-! Threads of accelerators against the messages that start, configure and reset them. -/

namespace AlkaliFw
open Resumption

/-- The part of a configuration that a member holds is the same. -/
def AccField.Same (f : AccField) (c d : AccConfig) : Prop :=
  match f with
  | .firmware => c.firmware = d.firmware
  | .ramdiskIn => c.ramdiskIn = d.ramdiskIn
  | .ramdiskOut => c.ramdiskOut = d.ramdiskOut
  | _ => True

/-- One thread at most runs for an accelerator, it is not about to touch a deleted object, and
what it is about to read of its configuration is as it was at its start. -/
structure RaceFree (S : ApuSys) : Prop where
  one : ∀ id, (S.threads.filter fun t => t.config.id = id).length ≤ 1
  live : ∀ t ∈ S.threads, ∀ a f, t.label = some (.acc a f) → S.apu.objs a ≠ none
  config : ∀ t ∈ S.threads, ∀ a f, t.label = some (.acc a f) → ∀ acc, S.apu.objs a = some acc → f.Same acc.config t.config

inductive AccAction where
  | start | reset | setFw | readLba | writeLba
  deriving DecidableEq

/-- What an IO command does to which accelerator. -/
def accAction (b : SqBuf) : Option (AccAction × Nat) :=
  match b.opc with
  | cmdIoReadLba => some (.readLba, b.cdw15)
  | cmdIoWriteLba => some (.writeLba, b.cdw15)
  | cmdIoSendData | cmdIoReadData | cmdIoReadFw | cmdIoCtl =>
    match b.cdw13 with
    | accIoOpReset => some (.reset, b.cdw14)
    | accIoOpStart => some (.start, b.cdw14)
    | accIoOpSetFw => some (.setFw, b.cdw14)
    | _ => none
  | _ => none

/-- The window that an LBA command sets. -/
def lbaWindow (b : SqBuf) : Window :=
  ⟨true, ((b.cdw13 * 2 ^ 32 + b.cdw12) * ramdiskPage + ramdiskBase) % 2 ^ 64 % 2 ^ 32,
    b.cdw14 % 2 ^ 16 * ramdiskPage % 2 ^ 32 % 2 ^ 32⟩

/-- The thread may yet read this member. -/
def AccThread.Reads (t : AccThread) (f : AccField) : Prop :=
  ¬t.rest.Without (fun _ => True) (· = .acc t.obj f)

/-- What is left of a configuration. -/
def AccAction.update (s : Apu) (b : SqBuf) (id : Nat) (c : AccConfig) : AccAction → AccConfig
  | .setFw => { c with firmware := (s.fwMap id).getD [] }
  | .readLba => { c with ramdiskIn := lbaWindow b }
  | .writeLba => { c with ramdiskOut := lbaWindow b }
  | .start | .reset => c

/-- The action does the thread of its accelerator no harm: it changes nothing that the thread may
yet read, and neither starts nor resets. -/
structure AccAction.Harmless (s : Apu) (b : SqBuf) (id : Nat) (t : AccThread) (action : AccAction) : Prop where
  start : action ≠ .start
  reset : action ≠ .reset
  config : ∀ f, t.Reads f → f.Same (action.update s b id t.config) t.config

/-- An IO command that is carried out does no harm to a thread of the accelerator it addresses. -/
def Considerate (L : Linux) (S : ApuSys) : ApuEvent → Prop
  | .message m => m.id = payloadIoCmd → (mapRequest L m S.apu).1.isSome →
    ∀ action id, accAction m.data = some (action, id) →
      ∀ t ∈ S.threads, t.config.id = id → action.Harmless S.apu m.data id t
  | _ => True

/-- No object comes or goes, and none is configured. -/
structure Apu.Calm (s t : Apu) : Prop where
  accelerators : t.accelerators = s.accelerators
  nextObj : t.nextObj = s.nextObj
  created : t.created = s.created
  objs : ∀ a, (t.objs a).map Acc.config = (s.objs a).map Acc.config

namespace Apu.Calm

variable {s t u : Apu}

theorem refl (s : Apu) : s.Calm s := ⟨rfl, rfl, rfl, fun _ => rfl⟩

theorem trans (h : s.Calm t) (h' : t.Calm u) : s.Calm u :=
  ⟨h'.accelerators.trans h.accelerators, h'.nextObj.trans h.nextObj, h'.created.trans h.created,
    fun a => (h'.objs a).trans (h.objs a)⟩

end Apu.Calm

/-- Nor is the firmware of the board touched, or that of the accelerators. -/
structure Apu.Still (s t : Apu) : Prop extends s.Calm t where
  fwBuffer : t.fwBuffer = s.fwBuffer
  fwMap : t.fwMap = s.fwMap

namespace Apu.Still

variable {s t u : Apu}

theorem refl (s : Apu) : s.Still s := ⟨.refl s, rfl, rfl⟩

theorem trans (h : s.Still t) (h' : t.Still u) : s.Still u :=
  ⟨h.toCalm.trans h'.toCalm, h'.fwBuffer.trans h.fwBuffer, h'.fwMap.trans h.fwMap⟩

theorem clock (s : Apu) (n : Nat) : s.Still { s with clock := n } := ⟨⟨rfl, rfl, rfl, fun _ => rfl⟩, rfl, rfl⟩

theorem put {a : Nat} {old acc : Acc} (here : s.objs a = some old) (same : acc.config = old.config) : s.Still (s.putAcc a acc) := by
  refine ⟨⟨rfl, rfl, rfl, fun b => ?_⟩, rfl, rfl⟩
  by_cases h : b = a
  · rw [h, here, putAcc]
    simp only [Function.update_self, Option.map_some, same]
  · rw [putAcc]
    simp only [Function.update_of_ne h]

theorem store {b : Mapped} {bytes : List UInt8} (h : s.store b bytes = some t) : s.Still t := by
  unfold Apu.store at h
  split at h <;> cases h
  exact ⟨⟨rfl, rfl, rfl, fun _ => rfl⟩, rfl, rfl⟩

end Apu.Still

/-- An action of the thread of `a`. -/
def AccAct (a : Nat) (l : AccAccess) (s t : Apu) : Prop := (∀ b f, l = .acc b f → b = a) ∧ s.Still t

section

variable {L : Linux} {a : Nat}

abbrev AccMade (a : Nat) {α : Type} (p : AccCode α) : Prop := p.Acts (fun _ => True) (AccAct a)

theorem made_onAcc {α : Type} {f : AccField} {g : Acc → Apu → α × Apu}
    (h : ∀ (acc : Acc) (s : Apu), s.objs a = some acc → s.Still (g acc s).2) : AccMade a (onAcc a f g) := by
  refine Prog.acts_swap_bind (fun s => ⟨fun _ _ e => by cases e; rfl, ?_⟩) fun s => ?_
  · cases here : s.objs a with
    | none => exact .refl s
    | some acc => exact h acc s here
  · cases (s.objs a) with
    | none => exact Prog.acts_stuck
    | some acc => exact Prog.acts_pure _

theorem made_ofAcc {α : Type} {f : AccField} {get : Acc → α} : AccMade a (ofAcc a f get) :=
  made_onAcc fun _ s _ => .refl s

theorem made_logId : AccMade a (logId a) := Prog.acts_bind made_ofAcc fun _ => Prog.acts_pure _

theorem made_setState {state : AccState} : AccMade a (setState a state) :=
  made_onAcc fun _ _ here => .put here rfl

theorem made_failed : AccMade a (failed a) := Prog.acts_bind made_logId fun _ => made_setState

theorem made_withWindow {f : AccField} {window : Acc → Window} {move : Mapped → Nat → AccCode Unit}
    (h : ∀ buf n, AccMade a (move buf n)) : AccMade a (withWindow L a f window move) := by
  refine Prog.acts_bind made_ofAcc fun base => Prog.acts_bind made_ofAcc fun size => ?_
  refine Prog.acts_swap_bind (fun s => ⟨nofun, .clock s _⟩) fun s => ?_
  refine Prog.acts_bind made_ofAcc fun n => Prog.acts_bind (h _ _) fun _ => ?_
  exact Prog.acts_bind made_ofAcc fun _ => Prog.acts_pure _

theorem made_ramdiskToBuf : AccMade a (ramdiskToBuf L a) := by
  refine made_withWindow fun buf n => Prog.acts_bind (made_onAcc fun acc s here => ?_) fun ok =>
    Prog.acts_ite (fun _ => Prog.acts_pure _) fun _ => Prog.acts_stuck
  split
  · exact .put here rfl
  · exact .refl s

theorem made_bufToRamdisk : AccMade a (bufToRamdisk L a) := by
  refine made_withWindow fun buf n => Prog.acts_bind (made_onAcc fun acc s here => ?_) fun ok =>
    Prog.acts_ite (fun _ => Prog.acts_pure _) fun _ => Prog.acts_stuck
  split
  · exact .store ‹_›
  · exact .refl s

theorem made_resizeObuf : AccMade a (resizeObuf a) :=
  Prog.acts_bind made_ofAcc fun _ => made_onAcc fun _ _ here => .put here rfl

theorem made_ubpfExec {firmware : List UInt8} : AccMade a (ubpfExec L a firmware) :=
  made_onAcc fun _ s here => .trans (.clock s (s.clock + 1)) (.put here rfl)

theorem made_runBPF : AccMade a (runBPF L a) := by
  refine Prog.acts_bind made_logId fun _ => Prog.acts_bind made_setState fun _ => ?_
  refine Prog.acts_swap_bind (fun s => ⟨nofun, .clock s _⟩) fun s => ?_
  refine Prog.acts_ite (fun _ => made_failed) fun _ => ?_
  refine Prog.acts_bind (made_onAcc fun _ s _ => .clock s _) fun loaded => ?_
  refine Prog.acts_ite (fun _ => made_failed) fun _ => Prog.acts_bind made_ofAcc fun input => ?_
  refine Prog.acts_bind (Prog.acts_when fun _ => made_ramdiskToBuf) fun _ => Prog.acts_bind made_ofAcc fun output => ?_
  refine Prog.acts_bind (Prog.acts_when fun _ => made_resizeObuf) fun _ => Prog.acts_bind made_ubpfExec fun _ => ?_
  refine Prog.acts_bind made_ofAcc fun output => Prog.acts_bind (Prog.acts_when fun _ => made_bufToRamdisk) fun _ => ?_
  exact Prog.acts_bind made_setState fun _ => made_logId

end

/-! Messages. -/

/-- The object `a` is configured, and nothing else happens to the accelerators. -/
structure Apu.Configured (a : Nat) (f : AccConfig → AccConfig) (s t : Apu) : Prop where
  accelerators : t.accelerators = s.accelerators
  nextObj : t.nextObj = s.nextObj
  created : t.created = s.created
  here : (t.objs a).map Acc.config = (s.objs a).map fun acc => f acc.config
  others : ∀ b ≠ a, (t.objs b).map Acc.config = (s.objs b).map Acc.config

/-- What an IO command does to the accelerator it addresses. -/
inductive MessageAct (b : SqBuf) (s t : Apu) : Prop where
  | start {id a : Nat} (action : accAction b = some (.start, id)) (here : s.accelerators[id]? = some a)
      (started : Apu.Calm { s with created := a :: s.created } t)
  | reset {id a : Nat} (action : accAction b = some (.reset, id)) (here : s.accelerators[id]? = some a)
      (replaced : (s.resetAcc id a).Calm t)
  | config {action : AccAction} {id a : Nat} (decoded : accAction b = some (action, id))
      (here : s.accelerators[id]? = some a) (configured : s.Configured a (action.update s b id) t)

theorem calm_sendAck {s t : Apu} {m : RpmsgPayload} {id : Nat} (h : s.Calm t) : s.Calm (t.sendAck m id) :=
  ⟨h.accelerators, h.nextObj, h.created, h.objs⟩

theorem calm_admCmd {m : RpmsgPayload} {buf : Mapped} {s t : Apu} (h : admCmd m buf s = some t) : s.Calm t := by
  unfold admCmd at h
  split at h
  · cases h
    exact ⟨rfl, rfl, rfl, fun _ => rfl⟩
  · obtain ⟨u, load, rfl⟩ := Option.map_eq_some_iff.mp h
    obtain ⟨bytes, -, load⟩ := Option.bind_eq_some_iff.mp load
    obtain ⟨fw, -, load⟩ := Option.bind_eq_some_iff.mp load
    cases load
    exact ⟨rfl, rfl, rfl, fun _ => rfl⟩
  · obtain ⟨u, store, rfl⟩ := Option.map_eq_some_iff.mp h
    exact calm_sendAck (Apu.Still.store store).toCalm
  · cases h
    unfold admCmdAccCtl
    split <;> exact ⟨rfl, rfl, rfl, fun _ => rfl⟩
  · obtain ⟨u, status, rfl⟩ := Option.map_eq_some_iff.mp h
    refine calm_sendAck ?_
    unfold admCmdStatus at status
    dsimp only at status
    split at status
    · cases status
      exact .refl s
    · obtain ⟨v, fresh, stored⟩ := Option.bind_eq_some_iff.mp status
      have first : s.Calm v := by
        split at fresh
        · obtain ⟨a, -, fresh⟩ := Option.bind_eq_some_iff.mp fresh
          obtain ⟨acc, -, fresh⟩ := Option.bind_eq_some_iff.mp fresh
          cases fresh
          exact ⟨rfl, rfl, rfl, fun _ => rfl⟩
        · cases fresh
          exact .refl s
      split at stored
      · exact first.trans (Apu.Still.store stored).toCalm
      · cases stored
        exact first
  · cases h
    exact ⟨rfl, rfl, rfl, fun _ => rfl⟩

theorem configured_setAcc {s t : Apu} {a : Nat} {f : Acc → Acc} {g : AccConfig → AccConfig}
    (h : s.setAcc a f = some t) (same : ∀ acc, (f acc).config = g acc.config) : s.Configured a g t := by
  obtain ⟨acc, here, rfl⟩ := Option.map_eq_some_iff.mp h
  refine ⟨rfl, rfl, rfl, ?_, fun b other => ?_⟩
  · rw [here]
    simp only [Function.update_self, Option.map_some, same]
  · simp only [Function.update_of_ne other]

theorem configured_sendAck {s t : Apu} {a : Nat} {g : AccConfig → AccConfig} {m : RpmsgPayload} {id : Nat}
    (h : s.Configured a g t) : s.Configured a g (t.sendAck m id) :=
  ⟨h.accelerators, h.nextObj, h.created, h.here, h.others⟩

theorem message_ioCmdLba {add : Acc → Nat → Nat → Acc} (action : AccAction) {m : RpmsgPayload} {s t : Apu}
    (decoded : accAction m.data = some (action, m.data.cdw15))
    (sets : ∀ acc, (add acc (((m.data.cdw13 * 2 ^ 32 + m.data.cdw12) * ramdiskPage + ramdiskBase) % 2 ^ 64)
      (m.data.cdw14 % 2 ^ 16 * ramdiskPage % 2 ^ 32)).config = action.update s m.data m.data.cdw15 acc.config)
    (h : (ioCmdLba add m s).map (·.sendAck m payloadAck) = some t) : s.Calm t ∨ MessageAct m.data s t := by
  obtain ⟨u, lba, rfl⟩ := Option.map_eq_some_iff.mp h
  unfold ioCmdLba at lba
  dsimp only at lba
  split at lba
  · rename_i a here
    exact .inr (.config decoded here (configured_sendAck (configured_setAcc lba sets)))
  · cases lba
    exact .inl (calm_sendAck (.refl s))

theorem message_ioCmdAccCtl {m : RpmsgPayload} {s t : Apu}
    (opc : accAction m.data = match m.data.cdw13 with
      | accIoOpReset => some (.reset, m.data.cdw14)
      | accIoOpStart => some (.start, m.data.cdw14)
      | accIoOpSetFw => some (.setFw, m.data.cdw14)
      | _ => none)
    (h : (ioCmdAccCtl m s).map (·.sendAck m payloadAck) = some t) : s.Calm t ∨ MessageAct m.data s t := by
  obtain ⟨u, ctl, rfl⟩ := Option.map_eq_some_iff.mp h
  unfold ioCmdAccCtl at ctl
  dsimp only at ctl
  split at ctl
  · cases ctl
    exact .inl (calm_sendAck (.refl s))
  · rename_i a here
    split at ctl
    · rename_i op
      cases ctl
      rw [op] at opc
      exact .inr (.reset opc here (calm_sendAck (.refl _)))
    · rename_i op
      cases ctl
      rw [op] at opc
      exact .inr (.start opc here (calm_sendAck (.refl _)))
    · cases ctl
      exact .inl (calm_sendAck (.refl s))
    · rename_i op
      rw [op] at opc
      have configured := configured_setAcc (g := AccAction.setFw.update s m.data m.data.cdw14) ctl fun _ => rfl
      exact .inr (.config opc here (configured_sendAck
        ⟨configured.accelerators, configured.nextObj, configured.created, configured.here, configured.others⟩))
    · cases ctl
      exact .inl (calm_sendAck (.refl s))

theorem message_ioCmd {m : RpmsgPayload} {buf : Mapped} {s t : Apu} (h : ioCmd m buf s = some t) :
    s.Calm t ∨ MessageAct m.data s t := by
  unfold ioCmd at h
  split at h
  · obtain ⟨u, fw, rfl⟩ := Option.map_eq_some_iff.mp h
    simp only [ioCmdSendFw] at fw
    split at fw
    · cases fw
    · obtain ⟨bytes, -, fw⟩ := Option.bind_eq_some_iff.mp fw
      cases fw
      exact .inl ⟨rfl, rfl, rfl, fun _ => rfl⟩
  · rename_i opc
    exact message_ioCmdLba .readLba (by simp only [accAction, opc]) (fun _ => rfl) h
  · rename_i opc
    exact message_ioCmdLba .writeLba (by simp only [accAction, opc]) (fun _ => rfl) h
  · rename_i opc
    exact message_ioCmdAccCtl (by simp only [accAction, opc]) h
  · rename_i opc
    exact message_ioCmdAccCtl (by simp only [accAction, opc]) h
  · rename_i opc
    exact message_ioCmdAccCtl (by simp only [accAction, opc]) h
  · rename_i opc
    exact message_ioCmdAccCtl (by simp only [accAction, opc]) h
  · cases h
    exact .inl (calm_sendAck (.refl s))

theorem message_handle {L : Linux} {m : RpmsgPayload} {s t : Apu} (h : s.handle L m = some t) :
    s.Calm t ∨ m.id = payloadIoCmd ∧ (mapRequest L m s).1.isSome ∧ ∃ n, MessageAct m.data { s with clock := n } t := by
  obtain ⟨n, clock⟩ := mapRequest_clock L m s
  have tick := (Apu.Still.clock s n).toCalm
  rcases handle_cases L h with ⟨-, -, rfl⟩ | ⟨-, -, rfl⟩ | ⟨buf, some', ⟨-, cmd⟩ | ⟨io, cmd⟩⟩
  · exact .inl (.refl _)
  · rw [clock]
    exact .inl (calm_sendAck tick)
  · rw [clock] at cmd
    exact .inl (tick.trans (calm_admCmd cmd))
  · rw [clock] at cmd
    rcases message_ioCmd cmd with calm | act
    · exact .inl (tick.trans calm)
    · exact .inr ⟨io, by rw [some']; rfl, n, act⟩

/-! The invariant of considerate runs. -/

/-- The object that stands for an accelerator is live and carries its id. -/
def Placed (s : Apu) : Prop :=
  ∀ i a, s.accelerators[i]? = some a → a < s.nextObj ∧ ∃ c, (s.objs a).map Acc.config = some c ∧ c.id = i

/-- A thread runs on the object that stands for its accelerator, and finds there what it may yet read. -/
structure Attended (s : Apu) (t : AccThread) : Prop where
  here : s.accelerators[t.config.id]? = some t.obj
  made : AccMade t.obj t.rest
  fits : ∀ c, (s.objs t.obj).map Acc.config = some c → ∀ f, t.Reads f → f.Same c t.config

structure Orderly (S : ApuSys) : Prop where
  placed : Placed S.apu
  attended : ∀ t ∈ S.threads, Attended S.apu t
  ids : (S.threads.map (·.config.id)).Nodup

theorem Placed.calm {s s' : Apu} (h : Placed s) (calm : s.Calm s') : Placed s' := by
  intro i a here
  rw [calm.accelerators] at here
  rw [calm.nextObj, calm.objs]
  exact h i a here

theorem Attended.calm {s s' : Apu} {t : AccThread} (h : Attended s t) (calm : s.Calm s') : Attended s' t := by
  refine ⟨?_, h.made, fun c hc => ?_⟩
  · rw [calm.accelerators]
    exact h.here
  · rw [calm.objs] at hc
    exact h.fits c hc

theorem Orderly.calm {S : ApuSys} (h : Orderly S) {s' : Apu} (calm : S.apu.Calm s') : Orderly { S with apu := s' } :=
  ⟨h.placed.calm calm, fun t ht => (h.attended t ht).calm calm, h.ids⟩

theorem same_refl (f : AccField) (c : AccConfig) : f.Same c c := by
  cases f <;> first | exact rfl | trivial

theorem same_update {f : AccField} {c d : AccConfig} (h : f.Same c d) (s : Apu) (b : SqBuf) (id : Nat) (action : AccAction)
    (still : f.Same (action.update s b id d) d) : f.Same (action.update s b id c) d := by
  cases action <;> cases f <;> first | exact h | exact still

section Step

variable {L : Linux} {S T : ApuSys}

theorem orderly_start {t : Apu} {id a : Nat} (h : Orderly S) (here : S.apu.accelerators[id]? = some a)
    (alone : ∀ t ∈ S.threads, t.config.id ≠ id)
    (started : Apu.Calm { S.apu with created := a :: S.apu.created } t) {th : AccThread}
    (spawn : AccThread.spawn L t a = some th) : Orderly ⟨t, S.threads ++ [th]⟩ := by
  have calm : S.apu.Calm { t with created := S.apu.created } := ⟨started.accelerators, started.nextObj, rfl, started.objs⟩
  have placed : Placed { t with created := S.apu.created } := h.placed.calm calm
  obtain ⟨acc, obj, rfl⟩ := Option.map_eq_some_iff.mp spawn
  have there : t.accelerators[id]? = some a := by
    rw [started.accelerators]
    exact here
  have own : acc.config.id = id := by
    obtain ⟨-, c, config, hid⟩ := placed id a there
    rw [obj] at config
    cases config
    exact hid
  refine ⟨placed, fun th hth => ?_, ?_⟩
  · rcases List.mem_append.mp hth with old | new
    · have attended := (h.attended th old).calm calm
      exact ⟨attended.here, attended.made, attended.fits⟩
    · rw [List.mem_singleton.mp new]
      refine ⟨own.symm ▸ there, made_runBPF, fun c hc f _ => ?_⟩
      rw [obj] at hc
      cases hc
      exact same_refl f _
  · rw [List.map_append]
    refine List.Nodup.append h.ids (List.nodup_singleton _) fun i old new => ?_
    obtain ⟨th, hth, rfl⟩ := List.mem_map.mp old
    exact alone th hth ((List.mem_singleton.mp new).trans own)

/-- The object of another accelerator is neither the deleted one nor the new one. -/
theorem Placed.other {s : Apu} {id a i b : Nat} (h : Placed s) (here : s.accelerators[id]? = some a) (ne : i ≠ id)
    (there : s.accelerators[i]? = some b) : b ≠ a ∧ b ≠ s.nextObj := by
  obtain ⟨old, c, config, hid⟩ := h i b there
  obtain ⟨-, d, config', hid'⟩ := h id a here
  refine ⟨fun same => ?_, Nat.ne_of_lt old⟩
  rw [same, config'] at config
  cases config
  exact ne (hid.symm.trans hid')

theorem resetAcc_get {s : Apu} {id a i : Nat} (ne : i ≠ id) : (s.resetAcc id a).accelerators[i]? = s.accelerators[i]? :=
  List.getElem?_set_ne (Ne.symm ne)

theorem resetAcc_objs {s : Apu} {id a b : Nat} (gone : b ≠ a) (old : b ≠ s.nextObj) :
    (s.resetAcc id a).objs b = s.objs b := by
  simp only [Apu.resetAcc, Function.update_of_ne gone, Function.update_of_ne old]

theorem Placed.reset {s : Apu} {id a : Nat} (h : Placed s) (here : s.accelerators[id]? = some a) : Placed (s.resetAcc id a) := by
  have fresh : a ≠ s.nextObj := Nat.ne_of_lt (h id a here).1
  intro i b there
  by_cases same : i = id
  · subst same
    obtain ⟨inside, -⟩ := List.getElem?_eq_some_iff.mp here
    simp only [Apu.resetAcc, List.getElem?_set_self inside] at there
    cases there
    refine ⟨Nat.lt_succ_self _, ⟨i, [], {}, {}⟩, ?_, rfl⟩
    simp [Apu.resetAcc, Function.update_of_ne fresh.symm, Acc.config]
  · rw [resetAcc_get same] at there
    obtain ⟨gone, old⟩ := h.other here same there
    obtain ⟨bound, config⟩ := h i b there
    rw [resetAcc_objs gone old]
    exact ⟨Nat.lt_succ_of_lt bound, config⟩

theorem orderly_reset {t : Apu} {id a : Nat} (h : Orderly S) (here : S.apu.accelerators[id]? = some a)
    (alone : ∀ t ∈ S.threads, t.config.id ≠ id) (replaced : (S.apu.resetAcc id a).Calm t) :
    Orderly ⟨t, S.threads⟩ := by
  refine Orderly.calm (S := ⟨S.apu.resetAcc id a, S.threads⟩) ⟨h.placed.reset here, fun th hth => ?_, h.ids⟩ replaced
  have attended := h.attended th hth
  obtain ⟨gone, old⟩ := h.placed.other here (alone th hth) attended.here
  refine ⟨(resetAcc_get (alone th hth)).trans attended.here, attended.made, fun c hc => ?_⟩
  dsimp only at hc
  rw [resetAcc_objs gone old] at hc
  exact attended.fits c hc

theorem Placed.configured {s t u : Apu} {b : SqBuf} {id a : Nat} {action : AccAction} (h : Placed s)
    (configured : s.Configured a (action.update u b id) t) : Placed t := by
  intro i a' there
  rw [configured.accelerators] at there
  rw [configured.nextObj]
  obtain ⟨bound, c, config, hid⟩ := h i a' there
  refine ⟨bound, ?_⟩
  by_cases same : a' = a
  · rw [same] at config ⊢
    rw [configured.here]
    obtain ⟨acc, obj, rfl⟩ := Option.map_eq_some_iff.mp config
    refine ⟨_, by rw [obj]; rfl, ?_⟩
    rw [← hid]
    cases action <;> rfl
  · rw [configured.others a' same]
    exact ⟨c, config, hid⟩

theorem orderly_config {t s : Apu} {b : SqBuf} {id a : Nat} {action : AccAction} (h : Orderly S)
    (here : S.apu.accelerators[id]? = some a)
    (harmless : ∀ t ∈ S.threads, t.config.id = id → action.Harmless s b id t)
    (configured : S.apu.Configured a (action.update s b id) t) : Orderly ⟨t, S.threads⟩ := by
  refine ⟨h.placed.configured configured, fun th hth => ?_, h.ids⟩
  have attended := h.attended th hth
  refine ⟨by rw [configured.accelerators]; exact attended.here, attended.made, fun c hc f reads => ?_⟩
  by_cases same : th.obj = a
  · have own : th.config.id = id := by
      obtain ⟨-, c', config, hid⟩ := h.placed _ _ attended.here
      obtain ⟨-, d, config', hid'⟩ := h.placed id a here
      rw [same, config'] at config
      cases config
      exact hid.symm.trans hid'
    rw [same, configured.here] at hc
    obtain ⟨acc, obj, rfl⟩ := Option.map_eq_some_iff.mp hc
    refine same_update (attended.fits acc.config ?_ f reads) s b id action ((harmless th hth own).config f reads)
    rw [same, obj]
    rfl
  · rw [configured.others _ same] at hc
    exact attended.fits c hc f reads

theorem orderly_message {m : RpmsgPayload} (h : Orderly S) (meets : Considerate L S (.message m))
    (step : S.step L (.message m) = some T) : Orderly T := by
  obtain ⟨t, handled, rfl⟩ := Option.map_eq_some_iff.mp step
  rcases message_handle handled with calm | ⟨io, mapped, n, act⟩
  · rw [calm.created, Nat.sub_self, List.take_zero, List.filterMap_nil, List.append_nil]
    exact h.calm calm
  · have harmless := meets io mapped
    have h' := h.calm (Apu.Still.clock S.apu n).toCalm
    cases act with
    | start action here started =>
      rename_i id a
      have new : (t.created.take (t.created.length - S.apu.created.length)).filterMap (AccThread.spawn L t) =
          [a].filterMap (AccThread.spawn L t) := by
        rw [started.created]
        simp
      rw [new]
      obtain ⟨-, c, config, -⟩ := h'.placed id a here
      have obj : (t.objs a).map Acc.config = some c := (started.objs a).trans config
      obtain ⟨acc, obj, -⟩ := Option.map_eq_some_iff.mp obj
      have spawn : AccThread.spawn L t a = some ⟨a, acc.config, runBPF L a⟩ := by
        rw [AccThread.spawn, obj]
        rfl
      rw [List.filterMap_cons_some spawn, List.filterMap_nil]
      exact orderly_start h' here (fun th hth own => (harmless _ _ action th hth own).start rfl) started spawn
    | reset action here replaced =>
      have created : t.created = S.apu.created := replaced.created
      rw [created, Nat.sub_self, List.take_zero, List.filterMap_nil, List.append_nil]
      exact orderly_reset (S := ⟨{ S.apu with clock := n }, S.threads⟩) h' here (fun th hth own => (harmless _ _ action th hth own).reset rfl) replaced
    | config decoded here configured =>
      have created : t.created = S.apu.created := configured.created
      rw [created, Nat.sub_self, List.take_zero, List.filterMap_nil, List.append_nil]
      refine orderly_config (S := ⟨{ S.apu with clock := n }, S.threads⟩) h' here (fun th hth own => ?_) configured
      have harm := harmless _ _ decoded th hth own
      exact ⟨harm.start, harm.reset, harm.config⟩

theorem orderly_thread {i : Nat} (h : Orderly S) (step : S.stepThread i = some T) : Orderly T := by
  unfold ApuSys.stepThread at step
  split at step
  · cases step
  · rename_i t here
    have attended := h.attended t (List.mem_of_getElem? here)
    split at step
    · rename_i l f k code
      have made := attended.made
      rw [code] at made
      obtain ⟨act, rest⟩ := made S.apu trivial
      have calm := h.calm act.2.toCalm
      split at step
      · cases step
        have sub := List.eraseIdx_sublist S.threads i
        refine ⟨calm.placed, fun u hu => calm.attended u (sub.subset hu), ?_⟩
        exact (sub.map _).nodup h.ids
      · cases step
      · cases step
        have attended' := calm.attended t (List.mem_of_getElem? here)
        refine ⟨calm.placed, fun u hu => ?_, ?_⟩
        · rcases List.mem_or_eq_of_mem_set hu with old | rfl
          · exact calm.attended u old
          · refine ⟨attended'.here, rest, fun c hc g reads => attended'.fits c hc g fun without => reads ?_⟩
            rw [code] at without
            exact without.2 S.apu trivial
        · obtain ⟨inside, value⟩ := List.getElem?_eq_some_iff.mp here
          have same : (S.threads.set i { t with rest := k S.apu }).map (·.config.id) = S.threads.map (·.config.id) := by
            have inside' : i < (S.threads.map (·.config.id)).length := by simpa using inside
            have there : (S.threads.map (·.config.id))[i] = t.config.id := by simp [value]
            rw [List.map_set, ← there, List.set_getElem_self]
          rw [same]
          exact h.ids
    · cases step

theorem Orderly.raceFree (h : Orderly S) : RaceFree S := by
  have own {t : AccThread} (ht : t ∈ S.threads) {a : Nat} {f : AccField} (label : t.label = some (.acc a f)) :
      a = t.obj ∧ t.Reads f := by
    unfold AccThread.label at label
    split at label
    · rename_i l g k code
      cases label
      have made := (h.attended t ht).made
      rw [code] at made
      have ours := (made S.apu trivial).1.1
      have same : a = t.obj := ours a f rfl
      refine ⟨same, fun without => ?_⟩
      rw [code] at without
      exact without.1 (by rw [same])
    · cases label
  have live {t : AccThread} (ht : t ∈ S.threads) : ∃ c, (S.apu.objs t.obj).map Acc.config = some c := by
    obtain ⟨-, c, config, -⟩ := h.placed _ _ (h.attended t ht).here
    exact ⟨c, config⟩
  refine ⟨fun id => ?_, fun t ht a f label gone => ?_, fun t ht a f label acc obj => ?_⟩
  · have all : (S.threads.filter fun t => t.config.id = id).map (·.config.id) =
        List.replicate (S.threads.filter fun t => t.config.id = id).length id := by
      refine List.eq_replicate_iff.mpr ⟨List.length_map .., fun i hi => ?_⟩
      obtain ⟨t, ht, rfl⟩ := List.mem_map.mp hi
      simpa using (List.mem_filter.mp ht).2
    have nodup : ((S.threads.filter fun t => t.config.id = id).map (·.config.id)).Nodup :=
      (List.filter_sublist.map _).nodup h.ids
    rwa [all, List.nodup_replicate] at nodup
  · rw [(own ht label).1] at gone
    obtain ⟨c, config⟩ := live ht
    rw [gone] at config
    cases config
  · obtain ⟨rfl, reads⟩ := own ht label
    exact (h.attended t ht).fits acc.config (by rw [obj]; rfl) f reads

end Step

/-- Messages that leave running accelerators alone. -/
theorem raceFree_of_considerate (L : Linux) (mem : Nat → UInt8) (heads : Nat → StatHead) (S : ApuSys)
    (run : ApuRun L (Considerate L) (ApuSys.boot mem heads) S) : RaceFree S := by
  suffices orderly : Orderly S from orderly.raceFree
  induction run with
  | refl =>
    refine ⟨fun i a here => ?_, fun t ht => ?_, List.nodup_nil⟩
    · cases i with
      | zero =>
        cases here
        exact ⟨Nat.one_pos, _, rfl, rfl⟩
      | succ i => cases here
    · cases ht
  | step e _ meets next ih =>
    cases e with
    | message m => exact orderly_message ih meets next
    | thread i => exact orderly_thread ih next
    | memory mem =>
      cases next
      exact ih.calm ⟨rfl, rfl, rfl, fun _ => rfl⟩

/-- An IO CTL message for the accelerator after power on. -/
def accCtl (op : Nat) : RpmsgPayload := message payloadIoCmd 0 0 (dwords cmdIoCtl [(13, op)]) noBuffer_word

/-- The second START does not wait for the thread of the first. -/
theorem start_twice : ¬∀ (L : Linux) (mem : Nat → UInt8) (heads : Nat → StatHead) (S : ApuSys),
    ApuRun L (fun _ _ => True) (ApuSys.boot mem heads) S → RaceFree S := by
  intro claim
  let S₀ := ApuSys.boot (fun _ => 0) fun _ => ⟨0, 0, fun _ => 0⟩
  have runs : ((S₀.step plainLinux (.message (accCtl 1))).bind fun S =>
      (S.step plainLinux (.message (accCtl 1))).map fun T => T.threads.map (·.config.id)) = some [0, 0] := by
    decide +kernel
  obtain ⟨S, first, runs⟩ := Option.bind_eq_some_iff.mp runs
  obtain ⟨T, second, ids⟩ := Option.map_eq_some_iff.mp runs
  have safe := claim plainLinux _ _ T (((ApuRun.refl S₀).step _ trivial first).step _ trivial second)
  have two : (T.threads.filter fun t => t.config.id = 0).length = (T.threads.map (·.config.id)).length := by
    rw [List.length_map]
    refine congrArg _ (List.filter_eq_self.mpr fun t ht => ?_)
    have : t.config.id ∈ T.threads.map (·.config.id) := List.mem_map_of_mem ht
    rw [ids] at this
    simpa using this
  have one := safe.one 0
  rw [two, ids] at one
  exact absurd one (by decide)

/-- One START, and the first action of its thread. -/
theorem start_once : ∃ S T, (ApuSys.boot (fun _ => 0) fun _ => ⟨0, 0, fun _ => 0⟩).step plainLinux (.message (accCtl 1)) = some S ∧
    S.step plainLinux (.thread 0) = some T ∧ T.threads.length = 1 ∧ RaceFree T := by
  let S₀ := ApuSys.boot (fun _ => 0) fun _ => ⟨0, 0, fun _ => 0⟩
  have runs : ((S₀.step plainLinux (.message (accCtl 1))).bind fun S =>
      (S.step plainLinux (.thread 0)).map fun T => T.threads.length) = some 1 := by decide +kernel
  obtain ⟨S, first, runs⟩ := Option.bind_eq_some_iff.mp runs
  obtain ⟨T, second, length⟩ := Option.map_eq_some_iff.mp runs
  have quiet : Considerate plainLinux S₀ (.message (accCtl 1)) := fun _ _ _ _ _ _ h => nomatch h
  have start : ApuRun plainLinux (Considerate plainLinux) S₀ S₀ := .refl S₀
  have run := (start.step _ quiet first).step (.thread 0) trivial second
  exact ⟨S, T, first, second, length, raceFree_of_considerate _ _ _ T run⟩

end AlkaliFw
