import AlkaliFw.Fetch
import AlkaliFw.Identity
import AlkaliFw.PrpSlab

/-! Fetching and completing on live queues. The flags that say which queues are valid and
whether the controller is enabled are written by six handlers and looked at by none, so it
is up to the host: it must not announce entries on a queue that is not live, nor take a
completion queue away from commands that are under way. -/

namespace AlkaliFw
open Resumption

/-- What has to hold whenever an action is taken under this label. Entries are announced as long as head
and tail differ; the tail handler fetches until they do not. -/
structure Live (l : Access) (s : Fw) : Prop where
  announced : ∀ q, s.tc.sqTail q ≠ s.tc.sqHead q → s.tc.enabled = true ∧ s.tc.sqValid q = true ∧ 0 < s.tc.sqSize q
  fetch : ∀ c, l = .submit (some (.nvmeCmdHandler, c)) → s.tc.enabled = true ∧ s.tc.sqValid (s.cmds c).qid = true
  ring : ∀ q, l = .ring q → s.tc.cqValid q = true ∧ 0 < s.tc.cqSize q
  post : ∀ c, l = .submit (some (.cqCb, c)) → s.tc.cqValid (s.cmds c).qid = true
  page : ∀ c, l = .cmd c → 0 < s.tc.memoryPageSize

/-- Every action that a step consists of meets live queues only. -/
def Lively (P : Platform) (S : Sys) : Event → Prop
  | .tcIrq => ∀ x ∈ (nvmeTcIrqHandler P).points S.fw, Live x.1 x.2
  | .dmaIrq => ∀ x ∈ (nvmeDmaIrqHandler (callback P)).points S.fw, Live x.1 x.2
  | .poll => ∀ call ∈ S.call, ∀ l ∈ call.label, Live l S.fw ∧ 0 < S.fw.tc.memoryPageSize
  | _ => True

/-- The queue pair `q` can be used. -/
structure NvmeTcPriv.Paired (tc : NvmeTcPriv) (q : QId) : Prop where
  enabled : tc.enabled = true
  sq : tc.sqValid q = true ∧ 0 < tc.sqSize q
  cq : tc.cqValid q = true ∧ 0 < tc.cqSize q

/-- What the handler of a register does to the queues, once all entries are fetched. -/
def Fw.settle (s : Fw) : RegHandler → Fw
  | .cc => s.ccHandler
  | .aqa => s.aqaHandler
  | .asq => s.asqHandler
  | .acq => s.acqHandler
  | .tail qid =>
    if h : qid < queues then
      let tail := s.regs (doorbellTail qid) % 2 ^ 16
      s.setTc fun tc =>
        { tc with sqTail := Function.update tc.sqTail ⟨qid, h⟩ tail, sqHead := Function.update tc.sqHead ⟨qid, h⟩ tail }
    else s
  | .head qid =>
    if h : qid < queues then
      s.setTc fun tc => { tc with cqHead := Function.update tc.cqHead ⟨qid, h⟩ (s.regs (doorbellHead qid) % 2 ^ 16) }
    else s
  | .nothing => s

/-- Among the register writes that are pending, a tail doorbell with new entries comes when its pair can be used,
and no command that the thread works on has lost its slot. -/
def Heralds (held : Prop) : Fw → List RegHandler → Prop
  | _, [] => True
  | s, r :: rest =>
    (∀ q : QId, r = .tail q.val → s.regs (doorbellTail q.val) % 2 ^ 16 ≠ s.tc.sqHead q → s.tc.Paired q ∧ held) ∧
      Heralds held (s.settle r) rest

/-- Something is under way that may complete `c`. -/
def Fw.Busy (s : Fw) (c : Slot) : Prop :=
  (∃ ch, ∃ d ∈ (s.ch ch).fifo, ∃ cb, d.callback = some (cb, c)) ∨ ∃ m ∈ s.apu, m.priv = c

/-- The entry takes the completion queue `q` away: it deletes it, or creates it with 65536 slots. -/
def SqBuf.Removes (b : SqBuf) (q : QId) : Prop :=
  b.cdw10 % 2 ^ 16 = q.val ∧ (b.opc = 0x04 ∨ b.opc = 0x05 ∧ qsize b = 0)

def Sys.At (S : Sys) (c : Slot) : Prop := ∃ call ∈ S.call, call.cmd = c

/-- If the DMA interrupt is about to take a completion queue away, no command of the queue is under way. -/
def Sys.Spares (S : Sys) : Prop :=
  ∀ d c, (S.fw.ch .rx).valid = true → (S.fw.ch .rx).fifo.head? = some d → d.callback = some (.nvmeCmdHandler, c) →
    (S.fw.cmds c).qid = admQueueId → ∀ q ≠ admQueueId, (S.fw.cmds c).sqBuf.Removes q →
    ∀ x, S.At x ∨ S.fw.Busy x → (S.fw.cmds x).qid ≠ q

/-- What a host that drives the queues well sees to. -/
def WellDriven (S : Sys) : Event → Prop
  | .tcIrq => Heralds (∀ c, S.At c → c ∈ S.fw.cmdSlab.used) S.fw S.fw.pending
  | .dmaIrq => S.Spares
  | _ => True

section Homes

variable {P : Platform} {A : Slot → Prop} {ids : Slot → QId} {c : Slot} {q : QId} {l : Access} {s t : Fw}

/-- The fields that a completion depends on. -/
def NvmeTcPriv.service (tc : NvmeTcPriv) : (QId → Bool) × (QId → Nat) × Nat × Bool :=
  (tc.cqValid, tc.cqSize, tc.memoryPageSize, tc.enabled)

/-- Commands that are under way, and those in `A`, have a completion queue; the ones in `A` are of the queues `ids`. -/
structure Homed (A : Slot → Prop) (ids : Slot → QId) (s : Fw) : Prop where
  able : ∀ c, A c ∨ s.Busy c → s.tc.cqValid (s.cmds c).qid = true ∧ 0 < s.tc.cqSize (s.cmds c).qid
  page : ∀ c, A c ∨ s.Busy c → 0 < s.tc.memoryPageSize
  paged : s.tc.enabled = true → 0 < s.tc.memoryPageSize
  handlers : ∀ d ∈ (s.ch .tx).fifo, ∀ c, d.callback ≠ some (.nvmeCmdHandler, c)
  qid : ∀ c, A c → (s.cmds c).qid = ids c
  fit : Fitted s

def Drained (s : Fw) : Prop := ∀ q, s.tc.sqTail q = s.tc.sqHead q

structure Rested (A : Slot → Prop) (ids : Slot → QId) (s : Fw) : Prop extends Homed A ids s where
  drained : Drained s

/-- Labels under which code for the commands in `A` acts, the allotment of a slot apart. -/
def Access.Of (A : Slot → Prop) : Access → Prop
  | .ring _ => False
  | .submit (some (.nvmeCmdHandler, _)) => False
  | .submit (some (.cqCb, c)) => A c
  | .cmd _ => ∃ c, A c
  | _ => True

theorem Rested.live (h : Rested A ids s) (of : l.Of A) : Live l s := by
  refine ⟨fun q announced => absurd (h.drained q) announced, ?_, ?_, ?_, ?_⟩
  · rintro c rfl
    exact of.elim
  · rintro q rfl
    exact of.elim
  · rintro c rfl
    exact (h.able c (.inl of)).1
  · rintro c rfl
    obtain ⟨x, mem⟩ := of
    exact h.page x (.inl mem)

/-- A step that leaves the service alone and puts only commands of `A` under way. -/
theorem Homed.frame (h : Homed A ids s) (tc : t.tc.service = s.tc.service) (qid : ∀ c, (t.cmds c).qid = (s.cmds c).qid)
    (busy : ∀ c, t.Busy c → A c ∨ s.Busy c)
    (handlers : ∀ d ∈ (t.ch .tx).fifo, d ∈ (s.ch .tx).fifo ∨ ∀ c, d.callback ≠ some (.nvmeCmdHandler, c)) (fit : Fitted t) : Homed A ids t := by
  obtain ⟨valid, size, page, enabled⟩ : t.tc.cqValid = s.tc.cqValid ∧ t.tc.cqSize = s.tc.cqSize ∧
      t.tc.memoryPageSize = s.tc.memoryPageSize ∧ t.tc.enabled = s.tc.enabled := by
    simpa only [NvmeTcPriv.service, Prod.mk.injEq] using tc
  have before {c : Slot} (at' : A c ∨ t.Busy c) : A c ∨ s.Busy c := at'.elim .inl (busy c)
  refine ⟨fun c at' => ?_, fun c at' => ?_, ?_, fun d mem => ?_, fun c at' => ?_, fit⟩
  · rw [valid, size, qid]
    exact h.able c (before at')
  · rw [page]
    exact h.page c (before at')
  · rw [page, enabled]
    exact h.paged
  · exact (handlers d mem).elim (h.handlers d) id
  · rw [qid]
    exact h.qid c at'

theorem busy_of_fifo {x : Slot} (ch : ∀ e, (t.ch e).fifo = (s.ch e).fifo) (apu : t.apu = s.apu) (busy : t.Busy x) : s.Busy x := by
  simpa only [Fw.Busy, ch, apu] using busy

theorem Homed.quiet (h : Homed A ids s) (tc : t.tc.service = s.tc.service) (qid : ∀ c, (t.cmds c).qid = (s.cmds c).qid)
    (ch : ∀ e, (t.ch e).fifo = (s.ch e).fifo) (apu : t.apu = s.apu) (fit : Fitted t) : Homed A ids t := by
  exact h.frame tc qid (fun c busy => .inr (busy_of_fifo ch apu busy)) (fun d mem => .inl (by rwa [← ch])) fit

theorem busy_put {ch : Chan} {d : Desc} {x : Slot} (busy : (s.put ch d).Busy x) : (∃ cb, d.callback = some (cb, x)) ∨ s.Busy x := by
  rcases busy with ⟨e, d', mem, cb, callback⟩ | request
  · rcases mem_put.mp mem with old | ⟨-, rfl⟩
    · exact .inr (.inl ⟨e, d', old, cb, callback⟩)
    · exact .inl ⟨cb, callback⟩
  · exact .inr (.inr request)

theorem Homed.put {ch : Chan} {d : Desc} (h : Homed A ids s) (own : ∀ cb x, d.callback = some (cb, x) → A x)
    (handler : ch = .tx → ∀ x, d.callback ≠ some (.nvmeCmdHandler, x)) : Homed A ids (s.put ch d) := by
  refine h.frame rfl (fun _ => rfl) (fun x busy => ?_) (fun d' mem => ?_) h.fit
  · exact (busy_put busy).imp (fun ⟨cb, callback⟩ => own cb x callback) id
  · rcases mem_put.mp mem with old | ⟨tx, rfl⟩
    · exact .inl old
    · exact .inr (handler tx.symm)

/-- The updates of submission queues. -/
inductive SqUpdate : (NvmeCmdPriv → QId → Fw → Fw) → Prop where
  | createSq : SqUpdate createSq
  | deleteSq : SqUpdate deleteSq

theorem SqUpdate.queueUpdate {f : NvmeCmdPriv → QId → Fw → Fw} (update : SqUpdate f) : QueueUpdate f := by
  cases update with
  | createSq => exact .createSq
  | deleteSq => exact .deleteSq

theorem Shape.callback {ch : Chan} {d : Desc} (shape : Shape c ch d) :
    ∀ cb x, d.callback = some (cb, x) → x = c ∧ cb ≠ .nvmeCmdHandler ∧ cb ≠ .cqCb := by
  intro cb x e
  cases shape with
  | list _ callback =>
    rw [callback] at e
    cases e
    exact ⟨rfl, nofun, nofun⟩
  | data _ callback =>
    rcases callback with none | ⟨f, ends, callback⟩
    · rw [none] at e
      cases e
    · rw [callback] at e
      cases e
      refine ⟨rfl, ?_, ?_⟩
      · rintro rfl
        exact ends
      · rintro rfl
        exact ends

theorem CmdActs.homed (act : CmdActs P c SqUpdate l s t) (own : A c) (h : Homed A ids s) : Homed A ids t := by
  have fit : Fitted t := fitted_closed.fine c l s t (.own (act.mono fun _ => SqUpdate.queueUpdate)) h.fit
  cases act with
  | put s shape =>
    refine h.put (fun cb x callback => (shape.callback cb x callback).1 ▸ own) fun _ x callback => ?_
    exact (shape.callback _ x callback).2.1 rfl
  | cmd s assigns => exact h.quiet rfl (fun e => qid_update (s := s) (assigns.qid _) e) (fun _ => rfl) rfl fit
  | queues s =>
    refine h.quiet rfl (fun e => qid_update (s := s) ?_ e) (fun _ => rfl) rfl fit
    rfl
  | buffer s =>
    refine h.quiet rfl (fun e => qid_update (s := s) ?_ e) (fun _ => rfl) rfl fit
    rfl
  | sent s priv =>
    refine h.frame rfl (fun _ => rfl) (fun x busy => ?_) (fun _ mem => .inl mem) fit
    rcases busy with queued | ⟨m, mem, here⟩
    · exact .inr (.inl queued)
    · rcases List.mem_append.mp mem with old | new
      · exact .inr (.inr ⟨m, old, here⟩)
      · obtain rfl := List.mem_singleton.mp new
        exact .inl (here.symm.trans priv ▸ own)
  | queue update =>
    cases update with
    | createSq => exact h.quiet rfl (fun _ => rfl) (fun _ => rfl) rfl fit
    | deleteSq => exact h.quiet rfl (fun _ => rfl) (fun _ => rfl) rfl fit
  | _ => exact h.quiet rfl (fun _ => rfl) (fun _ => rfl) rfl fit

theorem FineAct.drained (act : FineAct P c l s t) (h : Drained s) : Drained t := by
  cases act with
  | own act =>
    cases act with
    | queue update p io s =>
      cases update with
      | createSq =>
        rename_i q
        intro q'
        by_cases here : q' = q
        · simp [createSq, Fw.note, Fw.setTc, here]
        · simpa [createSq, Fw.note, Fw.setTc, Function.update_of_ne here] using h q'
      | createCq => exact h
      | deleteSq => exact h
      | deleteCq => exact h
    | _ => exact h
  | _ => exact h

theorem CmdActs.of (act : CmdActs P c SqUpdate l s t) (own : A c) : l.Of A := by
  cases act with
  | ofCmd => exact ⟨c, own⟩
  | cmd => exact ⟨c, own⟩
  | cmdFree => exact ⟨c, own⟩
  | queues => exact ⟨c, own⟩
  | poolFree => exact ⟨c, own⟩
  | @put ch d _ shape =>
    cases e : d.callback with
    | none => trivial
    | some r =>
      obtain ⟨cb, x⟩ := r
      obtain ⟨rfl, handler, entry⟩ := shape.callback cb x e
      cases cb with
      | nvmeCmdHandler => exact absurd rfl handler
      | cqCb => exact absurd rfl entry
      | _ => trivial
  | _ => trivial

/-- What others do to the commands in `A`. -/
def Around (A : Slot → Prop) (ids : Slot → QId) (_ : Access) (s t : Fw) : Prop := Rested A ids s → Rested A ids t

/-- Code that acts on live queues only and leaves the commands in `A` where they are. -/
abbrev Tending {α : Type} (A : Slot → Prop) (ids : Slot → QId) (p : Code α) (s : Fw) : Prop :=
  p.Safe (Around A ids) (fun l s => Rested A ids s ∧ Live l s) (fun _ => Rested A ids) s

theorem stable_rested (of : l.Of A) : Prog.Stable (Around A ids) (fun l s => Rested A ids s ∧ Live l s) l (Rested A ids) :=
  ⟨fun _ _ h r => r h, fun _ h => ⟨h, h.live of⟩⟩

theorem Rested.act (h : Rested A ids s) (act : CmdActs P c SqUpdate l s t) (own : A c) : Rested A ids t :=
  ⟨act.homed own h.toHomed, FineAct.drained (.own (act.mono fun _ => SqUpdate.queueUpdate)) h.drained⟩

/-- The queue of a command in `A` can take its completion. -/
theorem stable_ring (own : A c) :
    Prog.Stable (Around A ids) (fun l s => Rested A ids s ∧ Live l s) (.ring (ids c)) (Rested A ids) := by
  refine ⟨fun _ _ h r => r h, fun s h => ⟨h, fun q announced => absurd (h.drained q) announced, nofun, ?_, nofun, nofun⟩⟩
  rintro q e
  cases e
  rw [← h.qid c own]
  exact h.able c (.inl own)

theorem Rested.ring (h : Rested A ids s) (tc : t.tc.service = s.tc.service) (tail : t.tc.sqTail = s.tc.sqTail) (head : t.tc.sqHead = s.tc.sqHead)
    (cmds : t.cmds = s.cmds) (ch : t.ch = s.ch) (apu : t.apu = s.apu) : Rested A ids t := by
  refine ⟨h.toHomed.quiet tc (fun _ => by rw [cmds]) (fun _ => by rw [ch]) apu ?_, fun q => ?_⟩
  · intro c
    rw [cmds]
    exact h.fit c
  · rw [tail, head]
    exact h.drained q

theorem tending_nvmeTcGetCqAddr (own : A c) (h : Rested A ids s) : Tending A ids (nvmeTcGetCqAddr (ids c)) s := by
  have ring : Prog.Stable (Around A ids) (fun l s => Rested A ids s ∧ Live l s) (.ring (ids c)) (Rested A ids) := stable_ring own
  refine Prog.safe_bind (Prog.safe_look (stable_rested (l := .other) trivial) h fun s h => Prog.safe_bind (Prog.safe_look ring h fun s h => ?_))
  refine Prog.safe_ite (fun _ => Prog.safe_stuck) fun _ => Prog.safe_bind (Prog.safe_look ring h fun s h => ?_)
  refine Prog.safe_ite (fun _ => ?_) fun _ => Prog.safe_pure h
  refine Prog.safe_bind (Prog.safe_look ring h fun s h => Prog.safe_bind ((Prog.safe_when (Q := fun _ => Rested A ids)
    (fun _ => ?_) fun _ => h).imp fun _ s h => ?_))
  · refine Prog.safe_bind (Prog.safe_look ring h fun s h => Prog.safe_change ring h fun s h => ?_)
    exact h.ring rfl rfl rfl rfl rfl rfl
  · refine Prog.safe_bind (Prog.safe_look ring h fun s h => Prog.safe_bind (Prog.safe_look ring h fun s h => ?_))
    refine Prog.safe_bind (Prog.safe_change ring h fun s h => Prog.safe_pure ?_)
    exact h.ring rfl rfl rfl rfl rfl rfl

/-- An action of a return, once it has a slot. -/
def Posts (P : Platform) (c : Slot) (l : Access) (s t : Fw) : Prop :=
  CmdActs P c SqUpdate l s t ∨ l = .submit (some (.cqCb, c)) ∧ ∃ d, d.callback = some (.cqCb, c) ∧ t = s.put .tx d

theorem Rested.posts (h : Rested A ids s) (own : A c) (act : Posts P c l s t) : Rested A ids t := by
  rcases act with act | ⟨-, d, callback, rfl⟩
  · exact h.act act own
  · refine ⟨h.toHomed.put (fun cb x e => ?_) fun _ x e => ?_, h.drained⟩
    · rw [callback] at e
      cases e
      exact own
    · rw [callback] at e
      cases e

theorem Posts.of (act : Posts P c l s t) (own : A c) : l.Of A := by
  rcases act with act | ⟨rfl, -⟩
  · exact act.of own
  · exact own

theorem tending_nvmeCmdReturn (own : A c) (h : Rested A ids s) : Tending A ids (nvmeCmdReturn P c) s := by
  refine Prog.safe_bind (Prog.safe_look (stable_rested ⟨c, own⟩) h fun s h => ?_)
  beta_reduce
  rw [h.qid c own]
  refine Prog.safe_bind ((tending_nvmeTcGetCqAddr own h).imp fun addr s h => ?_)
  have posting {p : Code Unit} {s : Fw} (h : Rested A ids s) (acts : p.Acts Fitted (Posts P c)) : Tending A ids p s :=
    acts.safe (fun _ h => h.fit) (fun _ _ _ act h => h.posts own act) (fun _ _ _ r => r) (fun _ _ _ act h => ⟨h, h.live (act.of own)⟩) h
  refine Prog.safe_ite (fun _ => posting h (Prog.acts_change fun s => .inl (.lost _ s))) fun _ => ?_
  refine Prog.safe_bind (Prog.safe_look (stable_ring own) h fun s h => posting h ?_)
  refine Prog.acts_bind (Prog.acts_change fun s => .inl (.cmd s ?_)) fun _ =>
    Prog.acts_bind ?_ fun ok => Prog.acts_when fun _ => Prog.acts_change fun s => .inl (.lost _ s)
  · exact ⟨fun _ => rfl, fun _ => rfl, fun _ => rfl, fun _ => ⟨rfl, rfl, rfl⟩, fun _ h => ⟨h.len, h.cb⟩⟩
  · exact (over_nvmeDmaXfer P c (C := fun _ => False) _ _ _ _ _ _ (fun _ _ _ alloc => .inl (.fill alloc)) (fun s => .inl (.noDescriptor s))
      fun s block q => .inr ⟨rfl, _, rfl, rfl⟩).acts (fun _ _ _ h => h) fun _ => False.elim

/-- Code for a command in `A` that takes no completion queue away. -/
theorem MadeOf.tending {p : Code Unit} (made : MadeOf P c SqUpdate p) (own : A c) (h : Rested A ids s) : Tending A ids p s := by
  refine Prog.Over.safe made (fun _ h => h.fit) (fun _ _ _ act h => h.act act own) (fun _ _ _ r => r) (fun _ _ _ act h => ⟨h, h.live (act.of own)⟩) ?_ h
  rintro _ rfl s h
  exact tending_nvmeCmdReturn own h

/-- No command that is under way, or in `A`, is of queue `q`. -/
def Idle (A : Slot → Prop) (q : QId) (s : Fw) : Prop := ∀ x, A x ∨ s.Busy x → (s.cmds x).qid ≠ q

theorem Rested.updateCq (h : Rested A ids s) (others : ∀ x, x ≠ q → t.tc.cqValid x = s.tc.cqValid x ∧ t.tc.cqSize x = s.tc.cqSize x)
    (here : Idle A q s ∨ t.tc.cqValid q = true ∧ 0 < t.tc.cqSize q) (tail : t.tc.sqTail = s.tc.sqTail) (head : t.tc.sqHead = s.tc.sqHead)
    (page : t.tc.memoryPageSize = s.tc.memoryPageSize) (enabled : t.tc.enabled = s.tc.enabled)
    (cmds : t.cmds = s.cmds) (ch : t.ch = s.ch) (apu : t.apu = s.apu) : Rested A ids t := by
  have before {c : Slot} (at' : A c ∨ t.Busy c) : A c ∨ s.Busy c := at'.imp id (busy_of_fifo (fun _ => by rw [ch]) apu)
  refine ⟨⟨fun c at' => ?_, fun c at' => ?_, ?_, ?_, fun c at' => ?_, fun c => ?_⟩, fun q => ?_⟩
  · rw [cmds]
    by_cases same : (s.cmds c).qid = q
    · rcases here with idle | able
      · exact absurd same (idle c (before at'))
      · rw [same]
        exact able
    · rw [(others _ same).1, (others _ same).2]
      exact h.able c (before at')
  · rw [page]
    exact h.page c (before at')
  · rw [page, enabled]
    exact h.paged
  · rw [ch]
    exact h.handlers
  · rw [cmds]
    exact h.qid c at'
  · rw [cmds]
    exact h.fit c
  · rw [tail, head]
    exact h.drained q

theorem Rested.createCq {p : NvmeCmdPriv} (h : Rested A ids s) (sized : qsize p.sqBuf = 0 → Idle A q s) : Rested A ids (createCq p q s) := by
  refine h.updateCq (q := q) (fun x other => ?_) ?_ rfl rfl rfl rfl rfl rfl rfl
  · simp [AlkaliFw.createCq, Fw.note, Fw.setTc, Function.update_of_ne other]
  · rcases Nat.eq_zero_or_pos (qsize p.sqBuf) with zero | pos
    · exact .inl (sized zero)
    · exact .inr (by simpa [AlkaliFw.createCq, Fw.note, Fw.setTc] using pos)

theorem Rested.deleteCq {p : NvmeCmdPriv} (h : Rested A ids s) (idle : Idle A q s) : Rested A ids (deleteCq p q s) := by
  refine h.updateCq (q := q) (fun x other => ?_) (.inl idle) rfl rfl rfl rfl rfl rfl rfl
  simp [AlkaliFw.deleteCq, Fw.setTc, Function.update_of_ne other]

/-- The same without interference. -/
abbrev Alone {α : Type} (A : Slot → Prop) (ids : Slot → QId) (p : Code α) (s : Fw) : Prop :=
  p.Safe Prog.Quiet Live (fun _ => Rested A ids) s

theorem Tending.alone {α : Type} {p : Code α} (h : Tending A ids p s) : Alone A ids p s := by
  refine Prog.Safe.weaken h (fun l u v e => ?_) fun _ _ => And.right
  cases e
  exact id

theorem stable_now (live : Live l s) : Prog.Stable Prog.Quiet Live l (· = s) :=
  ⟨fun _ _ same e => e ▸ same, fun _ same => same ▸ live⟩

theorem alone_queueCommand {update : NvmeCmdPriv → QId → Fw → Fw} (own : A c) (h : Rested A ids s)
    (updated : ∀ q ≠ admQueueId, (s.cmds c).sqBuf.cdw10 % 2 ^ 16 = q.val → Rested A ids (update (s.cmds c) q s)) :
    Alone A ids (queueCommand P c update) s := by
  refine Prog.safe_bind (Prog.safe_look (stable_now (h.live ⟨c, own⟩)) rfl ?_)
  rintro _ rfl
  refine Prog.safe_ite (fun _ => Tending.alone (tending_nvmeCmdReturn own h)) fun range => ?_
  simp only [id]
  split
  · rename_i lt
    refine Prog.safe_bind (Prog.safe_change (stable_now (h.live (l := .other) trivial)) rfl ?_)
    rintro _ rfl
    exact Tending.alone (tending_nvmeCmdReturn own (updated _ (fun same => range (.inl (congrArg Fin.val same))) rfl))
  · exact Prog.safe_stuck

/-- A new command, unless it takes a completion queue away from others. -/
theorem alone_dispatch (own : A c) (h : Rested A ids s)
    (spares : (s.cmds c).qid = admQueueId → ∀ q ≠ admQueueId, (s.cmds c).sqBuf.Removes q → Idle A q s) : Alone A ids (dispatch P c) s := by
  have other {p : Code Unit} (made : MadeOf P c SqUpdate p) : Alone A ids p s := Tending.alone (made.tending own h)
  have now := stable_now (h.live (l := .cmd c) ⟨c, own⟩)
  refine Prog.safe_bind (Prog.safe_look now rfl ?_)
  rintro _ rfl
  refine Prog.safe_ite (fun adm => ?_) fun _ => other (made_handleIo P c)
  refine Prog.safe_bind (Prog.safe_look now rfl ?_)
  rintro _ rfl
  split
  · exact other (made_nvmeCmdAdmGetLog P c)
  · exact other (made_nvmeCmdAdmIdentify P c)
  · exact other (made_nvmeCmdAdmSetFeatures P c)
  · exact other (made_queueCommand P c .createSq)
  · rename_i opc
    exact alone_queueCommand own h fun q io id => h.createCq fun zero => spares adm q io ⟨id, .inr ⟨opc, zero⟩⟩
  · exact other (made_queueCommand P c .deleteSq)
  · rename_i opc
    exact alone_queueCommand own h fun q io id => h.deleteCq (spares adm q io ⟨id, .inl opc⟩)
  · exact other (made_nvmeCmdVendor P c false)
  · exact other (made_nvmeCmdVendor P c true)
  · exact other (Prog.over_ite (fun _ => made_nvmeCmdVendor P c false) fun _ => made_nvmeCmdReturn P c)

theorem Homed.drop {A' : Slot → Prop} {ids' : Slot → QId} (h : Homed A' ids' s) (less : ∀ c, A c → A' c) (same : ∀ c, A c → ids' c = ids c) :
    Homed A ids s :=
  ⟨fun c at' => h.able c (at'.imp (less c) id), fun c at' => h.page c (at'.imp (less c) id), h.paged, h.handlers,
    fun c at' => (h.qid c (less c at')).trans (same c at'), h.fit⟩

theorem Rested.drop {A' : Slot → Prop} {ids' : Slot → QId} (h : Rested A' ids' s) (less : ∀ c, A c → A' c) (same : ∀ c, A c → ids' c = ids c) :
    Rested A ids s := ⟨h.toHomed.drop less same, h.drained⟩

/-- Upkeep of the DMA engine. -/
theorem Rested.quiet (h : Rested A ids s) (tc : t.tc = s.tc) (qid : ∀ c, (t.cmds c).qid = (s.cmds c).qid)
    (ch : ∀ e, (t.ch e).fifo = (s.ch e).fifo) (apu : t.apu = s.apu) (fit : Fitted t) : Rested A ids t := by
  refine ⟨h.toHomed.quiet (by rw [tc]) qid ch apu fit, fun q => ?_⟩
  rw [tc]
  exact h.drained q

/-- The commands in `A` and the one that the descriptor is for. -/
def With (A : Slot → Prop) (d : Desc) (x : Slot) : Prop := A x ∨ ∃ cb, d.callback = some (cb, x)

variable {ch : Chan} {d : Desc} {rest : List Desc}

theorem busy_get {x : Slot} (busy : (s.get ch).Busy x) : s.Busy x := by
  cases fifo : (s.ch ch).fifo with
  | nil => rwa [Fw.get, fifo] at busy
  | cons d rest =>
    rcases busy with ⟨e, y, mem, cb, callback⟩ | request
    · exact .inl ⟨e, y, mem_get fifo mem, cb, callback⟩
    · rw [get_eq fifo] at request
      exact .inr request

theorem with_busy (fifo : (s.ch ch).fifo = d :: rest) {x : Slot} (at' : With A d x ∨ (s.get ch).Busy x) : A x ∨ s.Busy x := by
  rcases at' with (own | ⟨cb, callback⟩) | busy
  · exact .inl own
  · exact .inr (.inl ⟨ch, d, by rw [fifo]; exact List.mem_cons_self, cb, callback⟩)
  · exact .inr (busy_get busy)

theorem Rested.get (h : Rested A ids s) (fifo : (s.ch ch).fifo = d :: rest) : Rested (With A d) (fun x => (s.cmds x).qid) (s.get ch) := by
  have tc : (s.get ch).tc = s.tc := by
    rw [get_eq fifo]
    rfl
  refine ⟨⟨fun x at' => ?_, fun x at' => ?_, ?_, fun y mem => ?_, fun x _ => by rw [Fw.get_cmds], fun x => ?_⟩, fun q => ?_⟩
  · rw [tc, Fw.get_cmds]
    exact h.able x (with_busy fifo at')
  · rw [tc]
    exact h.page x (with_busy fifo at')
  · rw [tc]
    exact h.paged
  · exact h.handlers y (mem_get fifo mem)
  · rw [Fw.get_cmds]
    exact h.fit x
  · rw [tc]
    exact h.drained q

/-- The head of the channel, if it is the handler of a new command, leaves the queues of others. -/
def SparesAt (A : Slot → Prop) (ch : Chan) (s : Fw) : Prop :=
  ∀ d c, (s.ch ch).fifo.head? = some d → d.callback = some (.nvmeCmdHandler, c) → (s.cmds c).qid = admQueueId →
    ∀ q ≠ admQueueId, (s.cmds c).sqBuf.Removes q → Idle A q s

theorem handled_record (c x : Slot) : ((s.handled c).cmds x).qid = (s.cmds x).qid ∧ ((s.handled c).cmds x).sqBuf = (s.cmds x).sqBuf := by
  by_cases same : x = c
  · simp [Fw.handled, Fw.setCmd, Fw.note, same]
  · simp [Fw.handled, Fw.setCmd, Fw.note, Function.update_of_ne same]

theorem alone_runCallback (h : Rested A ids s) (spares : SparesAt A ch s) (fifo : (s.ch ch).fifo = d :: rest) :
    Alone (With A d) (fun x => (s.cmds x).qid) (runCallback (callback P) d) (s.get ch) := by
  have got := h.get fifo
  cases e : d.callback with
  | none =>
    rw [runCallback, e]
    exact Prog.safe_pure got
  | some r =>
    obtain ⟨cb, c⟩ := r
    have own : With A d c := .inr ⟨cb, e⟩
    rw [runCallback, e]
    by_cases handler : cb = .nvmeCmdHandler
    · subst handler
      change Alone _ _ (fillCqResp c >>= fun _ => dispatch P c) _
      refine Prog.safe_bind (Prog.safe_change (stable_now (got.live ⟨c, own⟩)) rfl ?_)
      rintro _ rfl
      have record (x : Slot) := handled_record (s := s.get ch) c x
      simp only [Fw.get_cmds] at record
      have handled : Rested (With A d) (fun x => (s.cmds x).qid) ((s.get ch).handled c) :=
        got.quiet rfl (fun x => (handled_record c x).1) (fun _ => rfl) rfl (fitted_closed.handled (P := P) c _ got.fit)
      refine alone_dispatch own handled fun adm q io removes x at' => ?_
      have adm : (s.cmds c).qid = admQueueId := (record c).1.symm.trans adm
      have removes : (s.cmds c).sqBuf.Removes q := (record c).2 ▸ removes
      have busy : A x ∨ s.Busy x := with_busy fifo at'
      have idle := spares d c (by rw [fifo]; rfl) e adm q io removes x busy
      exact fun same => idle ((record x).1.symm.trans same)
    · exact Tending.alone ((made_callback P c handler d.localAddr).tending own got)

/-- One channel. -/
theorem alone_nvmeDmaComplete (h : Rested A ids s) (spares : SparesAt A ch s) : Alone A ids (nvmeDmaComplete (callback P) ch) s := by
  refine Prog.safe_bind (Prog.safe_swap (stable_now (h.live (l := .other) trivial)) rfl ?_)
  rintro s rfl
  have other {ids : Slot → QId} : Prog.Stable Prog.Quiet Live .other (Rested A ids) := ⟨fun _ _ h e => e ▸ h, fun _ h => h.live trivial⟩
  have restart {s : Fw} (h : Rested A ids s) : Alone A ids (.change .other (·.restart ch)) s :=
    Prog.safe_change other h fun s h => h.quiet rfl (fun _ => rfl) (fun e => fifo_restart s ch e) rfl h.fit
  cases fifo : (s.ch ch).fifo with
  | nil =>
    simp only [List.head?_nil]
    have same : s.get ch = s := by rw [Fw.get, fifo]
    rw [same]
    exact Prog.safe_bind (Prog.safe_pure (restart h))
  | cons d rest =>
    simp only [List.head?_cons]
    refine Prog.safe_bind (Prog.safe_bind ((alone_runCallback h spares fifo).imp fun _ u hu => ?_))
    have hu : Rested A ids u := hu.drop (fun _ => .inl) h.qid
    exact Prog.safe_change other hu fun v hv => restart (hv.quiet rfl (fun _ => rfl) (fun _ => rfl) rfl hv.fit)

theorem fifo_status (ch e : Chan) : ((s.setCh ch fun c => { c with valid := false }).ch e).fifo = (s.ch e).fifo := by
  by_cases same : e = ch
  · simp [Fw.setCh, same]
  · simp [Fw.setCh, Function.update_of_ne same]

theorem busy_status {x : Slot} (busy : (s.setCh ch fun c => { c with valid := false }).Busy x) : s.Busy x :=
  busy_of_fifo (fifo_status ch) rfl busy

theorem Rested.status (h : Rested A ids s) (ch : Chan) : Rested A ids (s.setCh ch fun c => { c with valid := false }) :=
  h.quiet rfl (fun _ => rfl) (fifo_status ch) rfl h.fit

theorem alone_nvmeDmaIrqHandler (h : Rested A ids s) (spares : (s.ch .rx).valid = true → SparesAt A .rx s) :
    Alone A ids (nvmeDmaIrqHandler (callback P)) s := by
  refine Prog.safe_bind (Prog.safe_swap (stable_now (h.live (l := .other) trivial)) rfl ?_)
  rintro s rfl
  have h₁ := h.status .rx
  refine Prog.safe_bind (Prog.safe_swap (stable_now (h₁.live (l := .other) trivial)) rfl ?_)
  rintro _ rfl
  refine Prog.safe_bind ((Prog.safe_when (Q := fun _ => Rested A ids) (fun valid => ?_) fun _ => h₁.status .tx).imp fun _ u hu =>
    Prog.safe_when (fun _ => alone_nvmeDmaComplete hu ?_) fun _ => hu)
  · refine alone_nvmeDmaComplete (h₁.status .tx) fun d c head callback adm q io removes x at' => ?_
    exact spares valid d c head callback adm q io removes x (at'.imp id fun busy => busy_status (busy_status busy))
  · exact fun d c head callback => absurd callback (hu.handlers d (List.mem_of_mem_head? head) c)

end Homes

section Doorbells

variable {P : Platform} {A : Slot → Prop} {ids : Slot → QId} {c : Slot} {q : QId} {l : Access} {s₀ s t : Fw} {held : Prop} {r : RegHandler}

/-- While the entries of `q` are fetched that were announced in `s₀`. -/
structure Drawing (A : Slot → Prop) (ids : Slot → QId) (q : QId) (s₀ s : Fw) : Prop where
  homed : Homed A ids s
  tc : ∃ head, s.tc = { s₀.tc with sqHead := Function.update s₀.tc.sqHead q head }
  regs : s.regs = s₀.regs
  writes : s.writes = s₀.writes
  used : ∀ c, c ∈ s₀.cmdSlab.used → c ∈ s.cmdSlab.used

/-- Entries may be fetched from `q`, and from no other queue. -/
structure NvmeTcPriv.Open (tc : NvmeTcPriv) (q : QId) : Prop where
  paired : tc.Paired q
  others : ∀ x, x ≠ q → tc.sqTail x = tc.sqHead x

theorem Drawing.live (h : Drawing A ids q s₀ s) (opened : s₀.tc.Open q)
    (label : l = .other ∨ ∃ c, l = .submit (some (.nvmeCmdHandler, c)) ∧ (s.cmds c).qid = q) : Live l s := by
  obtain ⟨head, tc⟩ := h.tc
  have pair := opened.paired
  refine ⟨fun x announced => ?_, fun x e => ?_, fun x e => ?_, fun x e => ?_, fun x e => ?_⟩
  · by_cases here : x = q
    · subst here
      rw [tc]
      exact ⟨pair.enabled, pair.sq⟩
    · rw [tc] at announced
      simp only [Function.update_of_ne here] at announced
      exact absurd (opened.others x here) announced
  · rcases label with other | ⟨c, submit, qid⟩
    · rw [other] at e
      cases e
    · rw [submit] at e
      cases e
      rw [qid, tc]
      exact ⟨pair.enabled, pair.sq.1⟩
  all_goals
    rcases label with other | ⟨c, submit, -⟩
    · rw [other] at e
      cases e
    · rw [submit] at e
      cases e

theorem Drawing.advance (h : Drawing A ids q s₀ s) : Drawing A ids q s₀ (s.advanceSq q).2 := by
  obtain ⟨head, tc⟩ := h.tc
  refine ⟨h.homed.quiet rfl (fun _ => rfl) (fun _ => rfl) rfl h.homed.fit, ⟨(s.tc.sqHead q + 1) % s.tc.sqSize q % 2 ^ 16, ?_⟩, h.regs, h.writes, h.used⟩
  simp only [Fw.advanceSq, Fw.setTc, tc, Function.update_idem]

/-- The request for an entry, as the fetch makes it. -/
inductive Request (c : Slot) : Access → Fw → Fw → Prop where
  | fill (slab : Slab kMemSlabMax) (s : Fw) : Request c .other s { s with descSlab := slab, clock := s.clock + 1 }
  | noDescriptor (s : Fw) : Request c .other s (Fw.note { s with clock := s.clock + 1 } (.noDescriptor c))
  | lost (why : Loss) (s : Fw) : Request c .other s (s.note (.lost c why))
  | put {d : Desc} (s : Fw) (callback : d.callback = some (.nvmeCmdHandler, c)) :
      Request c (.submit (some (.nvmeCmdHandler, c))) s (s.put .rx d)

theorem Drawing.request (h : Drawing A ids q s₀ s) (act : Request c l s t) (own : A c) : Drawing A ids q s₀ t := by
  cases act with
  | put s callback =>
    refine ⟨h.homed.put (fun cb x e => ?_) nofun, h.tc, h.regs, h.writes, h.used⟩
    rw [callback] at e
    cases e
    exact own
  | _ => exact ⟨h.homed.quiet rfl (fun _ => rfl) (fun _ => rfl) rfl h.homed.fit, h.tc, h.regs, h.writes, h.used⟩

theorem Request.label (act : Request c l s t) (qid : (s.cmds c).qid = q) :
    l = .other ∨ ∃ c, l = .submit (some (.nvmeCmdHandler, c)) ∧ (s.cmds c).qid = q := by
  cases act with
  | put => exact .inr ⟨c, rfl, qid⟩
  | _ => exact .inl rfl

/-- A fresh slot for an entry of `q`. -/
theorem Drawing.taken {slab : Slab nvmeCmdSlabSize} (h : Drawing A ids q s₀ s) (clock : Nat) (opened : s₀.tc.Open q)
    (fresh : c ∉ s.cmdSlab.used) (used : slab.used = c :: s.cmdSlab.used) :
    let t := (Fw.setCmd { s with cmdSlab := slab, clock := clock } c fun _ => { qid := q }).note (.cmdAlloc c q)
    Drawing (fun x => A x ∨ x = c) (Function.update ids c q) q s₀ t := by
  obtain ⟨head, tc⟩ := h.tc
  have pair := opened.paired
  have page : 0 < s.tc.memoryPageSize := h.homed.paged (by rw [tc]; exact pair.enabled)
  refine ⟨⟨fun x at' => ?_, fun x _ => page, h.homed.paged, h.homed.handlers, fun x at' => ?_, fun x => ?_⟩, ⟨head, tc⟩, h.regs, h.writes,
    fun x at' => ?_⟩
  · by_cases here : x = c
    · subst here
      simp only [Fw.note, Fw.setCmd, Function.update_self]
      rw [tc]
      exact pair.cq
    · simp only [Fw.note, Fw.setCmd, Function.update_of_ne here]
      refine h.homed.able x ?_
      rcases at' with (own | same) | busy
      · exact .inl own
      · exact absurd same here
      · exact .inr busy
  · by_cases here : x = c
    · subst here
      simp [Fw.note, Fw.setCmd]
    · simp only [Fw.note, Fw.setCmd, Function.update_of_ne here]
      exact h.homed.qid x (at'.resolve_right here)
  · exact h.homed.fit.update (p := { qid := q }) ⟨Nat.two_pow_pos _, by simp⟩ x
  · change x ∈ slab.used
    rw [used]
    exact List.mem_cons_of_mem _ (h.used x at')

theorem stable_drawing (opened : s₀.tc.Open q) : Prog.Stable Prog.Quiet Live .other (Drawing A ids q s₀) :=
  ⟨fun _ _ h e => e ▸ h, fun _ h => h.live opened (.inl rfl)⟩

theorem drawing_nvmeTcFetch (opened : s₀.tc.Open q) (inUse : ∀ x, A x → x ∈ s₀.cmdSlab.used) (h : Drawing A ids q s₀ s) :
    (nvmeTcFetch P q).Safe Prog.Quiet Live (fun _ => Drawing A ids q s₀) s := by
  have other : Prog.Stable Prog.Quiet Live .other (Drawing A ids q s₀) := stable_drawing opened
  refine Prog.safe_bind (Prog.safe_bind (Prog.safe_look other h fun s h => ?_))
  refine Prog.safe_ite (fun _ => Prog.safe_stuck) fun _ => Prog.safe_swap other h fun s h => ?_
  refine Prog.safe_bind (Prog.safe_swap other h.advance fun s h => ?_)
  rcases alloc : P.kMemSlabAlloc s.cmdSlab s.clock with ⟨_ | c, slab⟩
  · rw [kMemSlabAlloc_none P alloc]
    exact Prog.safe_pure ⟨h.homed.quiet rfl (fun _ => rfl) (fun _ => rfl) rfl h.homed.fit, h.tc, h.regs, h.writes, h.used⟩
  · obtain ⟨fresh, used⟩ := kMemSlabAlloc_some alloc
    have taken := h.taken (s.clock + 1) opened fresh used
    refine Prog.Safe.imp ?_ fun _ t (ht : Drawing (fun x => A x ∨ x = c) (Function.update ids c q) q s₀ t) => ?_
    · refine Prog.Acts.safe (G := Fitted) (R := Request c) ?_ (fun _ h => h.homed.fit) (fun _ _ _ act h => h.request act (.inr rfl))
        (fun _ _ _ e => e ▸ id) (fun _ _ _ act h => h.live opened (act.label ?_)) taken
      · refine Prog.acts_bind ?_ fun ok => Prog.acts_when fun _ => Prog.acts_change fun s => .lost _ s
        exact (over_nvmeDmaXfer P c (C := fun _ => False) _ _ _ _ _ _ (fun s _ slab _ => .fill slab s)
          (fun s => .noDescriptor s) fun s block q => .put s rfl).acts (fun _ _ _ h => h) fun _ => False.elim
      · rw [h.homed.qid c (.inr rfl), Function.update_self]
    · refine ⟨ht.homed.drop (fun _ => .inl) fun x at' => Function.update_of_ne ?_ .., ht.tc, ht.regs, ht.writes, ht.used⟩
      rintro rfl
      exact fresh (h.used x (inUse x at'))

theorem drawing_nvmeTcFetchLoop (opened : s₀.tc.Open q) (inUse : ∀ x, A x → x ∈ s₀.cmdSlab.used) (fuel : Nat) (h : Drawing A ids q s₀ s) :
    (nvmeTcFetchLoop P q fuel).Safe Prog.Quiet Live (fun _ t => Drawing A ids q s₀ t ∧ t.tc.sqTail q = t.tc.sqHead q) s := by
  induction fuel generalizing s with
  | zero => exact Prog.safe_stuck
  | succ fuel ih =>
    refine Prog.safe_bind (Prog.safe_look (stable_drawing opened) h fun s h => Prog.safe_ite (fun _ => ?_) fun same => ?_)
    · exact Prog.safe_bind ((drawing_nvmeTcFetch opened inUse h).imp fun _ t ht => ih ht)
    · refine Prog.safe_pure ⟨h, ?_⟩
      simpa using same

/-- A pending register write is handled as `settle` says. -/
structure Settles (A : Slot → Prop) (ids : Slot → QId) (r : RegHandler) (s t : Fw) : Prop where
  rested : Rested A ids t
  tc : t.tc = (s.settle r).tc
  regs : t.regs = (s.settle r).regs
  writes : t.writes = s.writes
  used : ∀ c, c ∈ s.cmdSlab.used → c ∈ t.cmdSlab.used

theorem settle_congr (tc : t.tc = s.tc) (regs : t.regs = s.regs) (r : RegHandler) :
    (t.settle r).tc = (s.settle r).tc ∧ (t.settle r).regs = (s.settle r).regs := by
  cases r with
  | cc =>
    simp only [Fw.settle, Fw.ccHandler, tc, regs]
    split
    · exact ⟨by simp [Fw.setTc, Fw.sysWrite32, tc], by simp [Fw.setTc, Fw.sysWrite32, regs]⟩
    · split <;> exact ⟨by simp [Fw.setTc, Fw.sysWrite32, tc], by simp [Fw.setTc, Fw.sysWrite32, regs]⟩
  | tail qid =>
    simp only [Fw.settle]
    split
    · exact ⟨by simp [Fw.setTc, tc, regs], regs⟩
    · exact ⟨tc, regs⟩
  | head qid =>
    simp only [Fw.settle]
    split
    · exact ⟨by simp [Fw.setTc, tc, regs], regs⟩
    · exact ⟨tc, regs⟩
  | nothing => exact ⟨tc, regs⟩
  | _ => exact ⟨by simp [Fw.settle, Fw.aqaHandler, Fw.asqHandler, Fw.acqHandler, Fw.setTc, tc, regs], regs⟩

theorem Heralds.congr {rs : List RegHandler} (tc : t.tc = s.tc) (regs : t.regs = s.regs) (h : Heralds held s rs) : Heralds held t rs := by
  induction rs generalizing s t with
  | nil => trivial
  | cons r rs ih =>
    obtain ⟨first, rest⟩ := h
    obtain ⟨tc', regs'⟩ := settle_congr tc regs r
    refine ⟨fun q tail announced => ?_, ih tc' regs' rest⟩
    rw [tc, regs] at announced
    rw [tc]
    exact first q tail announced

/-- No handler of a register takes anything from a queue pair. -/
theorem Rested.grow (h : Rested A ids s) (valid : ∀ q, s.tc.cqValid q = true → t.tc.cqValid q = true) (size : ∀ q, 0 < s.tc.cqSize q → 0 < t.tc.cqSize q)
    (page : 0 < s.tc.memoryPageSize → 0 < t.tc.memoryPageSize) (paged : t.tc.enabled = true → 0 < t.tc.memoryPageSize)
    (tail : t.tc.sqTail = s.tc.sqTail) (head : t.tc.sqHead = s.tc.sqHead) (cmds : t.cmds = s.cmds) (ch : t.ch = s.ch) (apu : t.apu = s.apu) :
    Rested A ids t := by
  have before {c : Slot} (at' : A c ∨ t.Busy c) : A c ∨ s.Busy c := at'.imp id (busy_of_fifo (fun _ => by rw [ch]) apu)
  refine ⟨⟨fun c at' => ?_, fun c at' => page (h.page c (before at')), paged, ?_, fun c at' => ?_, fun c => ?_⟩, fun q => ?_⟩
  · rw [cmds]
    exact ⟨valid _ (h.able c (before at')).1, size _ (h.able c (before at')).2⟩
  · rw [ch]
    exact h.handlers
  · rw [cmds]
    exact h.qid c at'
  · rw [cmds]
    exact h.fit c
  · rw [tail, head]
    exact h.drained q

theorem Rested.cc (h : Rested A ids s) : Rested A ids s.ccHandler := by
  have paged : 0 < 2 ^ (nvmeTcGetField (s.regs nvmeTcRegCc) 7 4 + 12) := Nat.two_pow_pos _
  unfold Fw.ccHandler
  dsimp only
  generalize 2 ^ (nvmeTcGetField (s.regs nvmeTcRegCc) 7 4 + 12) = page at paged ⊢
  split
  · exact h.grow (fun _ => id) (fun _ => id) (fun _ => paged) (fun _ => paged) rfl rfl rfl rfl rfl
  · split
    · exact h.grow (fun _ => id) (fun _ => id) (fun _ => paged) (fun _ => paged) rfl rfl rfl rfl rfl
    · exact h.grow (fun _ => id) (fun _ => id) (fun _ => paged) (fun _ => paged) rfl rfl rfl rfl rfl

theorem Rested.settle (h : Rested A ids s) (other : ∀ qid, r ≠ .tail qid) : Rested A ids (s.settle r) := by
  cases r with
  | cc => exact h.cc
  | aqa =>
    refine h.grow (fun _ => id) (fun x pos => ?_) id h.paged rfl rfl rfl rfl rfl
    by_cases adm : x = admQueueId
    · simp [Fw.settle, Fw.aqaHandler, Fw.setTc, adm]
    · simpa [Fw.settle, Fw.aqaHandler, Fw.setTc, Function.update_of_ne adm] using pos
  | asq => exact h.grow (fun _ => id) (fun _ => id) id h.paged rfl rfl rfl rfl rfl
  | acq =>
    refine h.grow (fun x valid => ?_) (fun _ => id) id h.paged rfl rfl rfl rfl rfl
    by_cases adm : x = admQueueId
    · simp [Fw.settle, Fw.acqHandler, Fw.setTc, adm]
    · simpa [Fw.settle, Fw.acqHandler, Fw.setTc, Function.update_of_ne adm] using valid
  | tail qid => exact absurd rfl (other qid)
  | head qid =>
    unfold Fw.settle
    dsimp only
    split
    · exact h.grow (fun _ => id) (fun _ => id) id h.paged rfl rfl rfl rfl rfl
    · exact h
  | nothing => exact h

/-- The doorbell value is taken over. -/
def Fw.ring (s : Fw) (q : QId) (tail : Nat) : Fw := s.setTc fun tc => { tc with sqTail := Function.update tc.sqTail q tail }

theorem Rested.ring_drained (h : Rested A ids s) {tail : Nat} {t : Fw} (homed : Homed A ids t)
    (tc : ∃ head, t.tc = { (s.ring q tail).tc with sqHead := Function.update s.tc.sqHead q head }) (met : t.tc.sqTail q = t.tc.sqHead q) :
    Rested A ids t ∧ t.tc = { s.tc with sqTail := Function.update s.tc.sqTail q tail, sqHead := Function.update s.tc.sqHead q tail } := by
  obtain ⟨head, tc⟩ := tc
  obtain rfl : tail = head := by simpa [tc, Fw.ring, Fw.setTc] using met
  refine ⟨⟨homed, fun x => ?_⟩, tc⟩
  rw [tc]
  by_cases here : x = q
  · simp [Fw.ring, Fw.setTc, here]
  · simpa [Fw.ring, Fw.setTc, Function.update_of_ne here] using h.drained x

/-- The tail handler, where new entries are for a live pair. -/
theorem drawing_nvmeTcTailHandler (h : Rested A ids s) (inUse : held → ∀ c, A c → c ∈ s.cmdSlab.used)
    (heralded : s.regs (doorbellTail q.val) % 2 ^ 16 ≠ s.tc.sqHead q → s.tc.Paired q ∧ held) :
    (nvmeTcTailHandler P q.val).Safe Prog.Quiet Live (fun _ t =>
      Drawing A ids q (s.ring q (s.regs (doorbellTail q.val) % 2 ^ 16)) t ∧ t.tc.sqTail q = t.tc.sqHead q) s := by
  simp only [nvmeTcTailHandler, dif_pos q.isLt]
  refine Prog.safe_bind (Prog.safe_change (stable_now (h.live (l := .other) trivial)) rfl ?_)
  rintro s rfl
  change (nvmeTcFetchLoop P q (2 ^ 16 + 1)).Safe _ _ _ (s.ring q (s.regs (doorbellTail q.val) % 2 ^ 16))
  generalize s.regs (doorbellTail q.val) % 2 ^ 16 = tail at heralded ⊢
  have homed : Homed A ids (s.ring q tail) := h.toHomed.quiet rfl (fun _ => rfl) (fun _ => rfl) rfl h.fit
  have unmoved : (s.ring q tail).tc = { (s.ring q tail).tc with sqHead := Function.update s.tc.sqHead q (s.tc.sqHead q) } := by
    rw [Function.update_eq_self]
    rfl
  have start : Drawing A ids q (s.ring q tail) (s.ring q tail) := ⟨homed, ⟨_, unmoved⟩, rfl, rfl, fun _ => id⟩
  by_cases new : tail = s.tc.sqHead q
  · have met : (s.ring q tail).tc.sqTail q = (s.ring q tail).tc.sqHead q := by simp [Fw.ring, Fw.setTc, new]
    have rested := (h.ring_drained homed ⟨_, unmoved⟩ met).1
    refine Prog.safe_bind (Prog.safe_look (stable_now (rested.live (l := .other) trivial)) rfl ?_)
    rintro _ rfl
    exact Prog.safe_ite (fun more => absurd met (of_decide_eq_true more)) fun _ => Prog.safe_pure ⟨start, met⟩
  · obtain ⟨pair, here⟩ := heralded new
    have opened : (s.ring q tail).tc.Open q := by
      refine ⟨⟨pair.enabled, pair.sq, pair.cq⟩, fun x other => ?_⟩
      simpa [Fw.ring, Fw.setTc, Function.update_of_ne other] using h.drained x
    have inUse : ∀ x, A x → x ∈ (s.ring q tail).cmdSlab.used := inUse here
    exact drawing_nvmeTcFetchLoop opened inUse _ start

/-- The handler of a register. -/
theorem settles_handleReg (h : Rested A ids s) (inUse : held → ∀ c, A c → c ∈ s.cmdSlab.used)
    (heralded : ∀ q : QId, r = .tail q.val → s.regs (doorbellTail q.val) % 2 ^ 16 ≠ s.tc.sqHead q → s.tc.Paired q ∧ held) :
    (handleReg P r).Safe Prog.Quiet Live (fun _ => Settles A ids r s) s := by
  have plain (other : ∀ qid, r ≠ .tail qid) (rest : (s.settle r).writes = s.writes ∧ (s.settle r).cmdSlab = s.cmdSlab) :
      (.change .other (fun u => u.settle r) : Code Unit).Safe Prog.Quiet Live (fun _ => Settles A ids r s) s := by
    refine Prog.safe_change (stable_now (h.live (l := .other) trivial)) rfl ?_
    rintro s rfl
    exact ⟨h.settle other, rfl, rfl, rest.1, fun c => by rw [rest.2]; exact id⟩
  cases r with
  | tail qid =>
    by_cases lt : qid < queues
    · refine (drawing_nvmeTcTailHandler (q := ⟨qid, lt⟩) h inUse (heralded ⟨qid, lt⟩ rfl)).imp fun _ t ⟨drawn, met⟩ => ?_
      obtain ⟨rested, tc⟩ := h.ring_drained drawn.homed drawn.tc met
      have settle : s.settle (.tail qid) = s.setTc fun tc =>
          { tc with sqTail := Function.update tc.sqTail ⟨qid, lt⟩ (s.regs (doorbellTail qid) % 2 ^ 16)
                    sqHead := Function.update tc.sqHead ⟨qid, lt⟩ (s.regs (doorbellTail qid) % 2 ^ 16) } := by
        simp only [Fw.settle, dif_pos lt]
      exact ⟨rested, by rw [tc, settle]; rfl, by rw [drawn.regs, settle]; rfl, drawn.writes, drawn.used⟩
    · simp only [handleReg, nvmeTcTailHandler, dif_neg lt]
      exact Prog.safe_stuck
  | cc =>
    refine plain (by simp) ?_
    simp only [Fw.settle, Fw.ccHandler]
    split
    · exact ⟨rfl, rfl⟩
    · split <;> exact ⟨rfl, rfl⟩
  | aqa => exact plain (by simp) ⟨rfl, rfl⟩
  | asq => exact plain (by simp) ⟨rfl, rfl⟩
  | acq => exact plain (by simp) ⟨rfl, rfl⟩
  | head qid =>
    by_cases lt : qid < queues
    · have := plain (by simp) (by simp only [Fw.settle, dif_pos lt]; exact ⟨rfl, rfl⟩)
      simp only [Fw.settle, dif_pos lt] at this
      simp only [handleReg, nvmeTcHeadHandler, dif_pos lt]
      exact this
    · simp only [handleReg, nvmeTcHeadHandler, dif_neg lt]
      exact Prog.safe_stuck
  | nothing => exact Prog.safe_pure ⟨h, rfl, rfl, rfl, fun _ => id⟩

/-- The loop over the pending writes. -/
theorem rested_nvmeTcIrqLoop {ws : List Nat} (h : Rested A ids s) (inUse : held → ∀ c, A c → c ∈ s.cmdSlab.used) (pending : s.writes = ws)
    (heralds : Heralds held s (ws.map fun w => regHandler queues (w * 4 % 2 ^ 16))) :
    (nvmeTcIrqLoop P ws.length).Safe Prog.Quiet Live (fun _ => Rested A ids) s := by
  induction ws generalizing s with
  | nil => exact Prog.safe_pure h
  | cons w ws ih =>
    refine Prog.safe_bind (Prog.safe_swap (stable_now (h.live (l := .other) trivial)) rfl ?_)
    rintro s rfl
    rw [pending]
    have next : Rested A ids { s with writes := ws } := h.quiet rfl (fun _ => rfl) (fun _ => rfl) rfl h.fit
    have heralds' : Heralds held { s with writes := ws } ((w :: ws).map fun w => regHandler queues (w * 4 % 2 ^ 16)) :=
      Heralds.congr (s := s) rfl rfl heralds
    refine Prog.safe_bind ((settles_handleReg next inUse heralds'.1).imp fun _ t ht => ?_)
    exact ih ht.rested (fun here c at' => ht.used c (inUse here c at')) ht.writes (heralds'.2.congr ht.tc ht.regs)

theorem rested_nvmeTcIrqHandler (h : Rested A ids s) (inUse : held → ∀ c, A c → c ∈ s.cmdSlab.used) (heralds : Heralds held s s.pending) :
    (nvmeTcIrqHandler P).Safe Prog.Quiet Live (fun _ => Rested A ids) s := by
  refine Prog.safe_bind (Prog.safe_look (stable_now (h.live (l := .other) trivial)) rfl ?_)
  rintro s rfl
  exact rested_nvmeTcIrqLoop h inUse rfl heralds

end Doorbells

section Runs

variable {P : Platform} {ids : Slot → QId} {A : Slot → Prop} {l : Access} {s t : Fw} {S T : Sys} {e : Event}

/-- The commands that are under way can be completed, and the code of an unfinished call sees to that. -/
def Sys.Served (S : Sys) : Prop := ∃ ids, Rested S.At ids S.fw ∧ ∀ call ∈ S.call, Tending S.At ids call.rest S.fw

theorem Alone.run {p : Code Unit} (h : Alone A ids p s) (run : p.run s = some ((), t)) : Rested A ids t := by
  have total : p.Safe Prog.Quiet (fun _ _ => True) (fun _ => Rested A ids) s := Prog.Safe.weaken h (fun _ _ _ => id) fun _ _ _ => trivial
  exact (Prog.safe_quiet_iff p s).mp total () t run

theorem Rested.outside (h : Rested A ids s) (act : Outside P s t) : Rested A ids t := by
  cases act with
  | done finish =>
    obtain ⟨d, done⟩ := Fw.finished_of_finish finish
    have fit := fitted_closed.outside s t (.done finish) h.fit
    obtain ⟨host, ram, prpMem, cmds, state⟩ := done.state
    have qid (c : Slot) : (t.cmds c).qid = (s.cmds c).qid := by
      rcases done.cmds c with same | ⟨-, -, fetched⟩
      · rw [same]
      · rw [fetched]
    refine h.quiet (by rw [state]; rfl) qid (fun e => ?_) (by rw [state]; rfl) fit
    rename_i ch
    by_cases here : e = ch
    · subst here
      rw [done.ch_self]
    · rw [done.ch_of_ne here]
  | reply i s =>
    refine ⟨h.toHomed.frame rfl (fun _ => rfl) (fun c busy => .inr ?_) (fun _ => .inl) h.fit, h.drained⟩
    rcases busy with queued | ⟨m, mem, priv⟩
    · exact .inl queued
    · exact .inr ⟨m, List.mem_of_mem_eraseIdx mem, priv⟩
  | _ => exact h.quiet rfl (fun _ => rfl) (fun _ => rfl) rfl h.fit

theorem Sys.Spares.at (h : S.Spares) (valid : (S.fw.ch .rx).valid = true) : SparesAt S.At .rx S.fw :=
  fun d c head callback adm q io removes => h d c valid head callback adm q io removes

theorem alone_tcIrq (h : Rested S.At ids S.fw) (well : WellDriven S .tcIrq) : Alone S.At ids (nvmeTcIrqHandler P) S.fw :=
  rested_nvmeTcIrqHandler h id well

theorem alone_dmaIrq (h : Rested S.At ids S.fw) (well : WellDriven S .dmaIrq) : Alone S.At ids (nvmeDmaIrqHandler (callback P)) S.fw :=
  alone_nvmeDmaIrqHandler h (Sys.Spares.at well)

theorem Rested.env (h : Rested S.At ids S.fw) (well : WellDriven S e) (env : S.fw.env P e = some t) : Rested S.At ids t := by
  cases e with
  | hostWrite reg value =>
    cases env
    exact h.outside (P := P) (.hostWrite reg value S.fw)
  | hostStore addr bytes =>
    cases env
    exact h.outside (P := P) (.hostStore addr bytes S.fw)
  | apuStore addr bytes =>
    cases env
    exact h.outside (P := P) (.apuStore addr bytes S.fw)
  | dmaDone ch => exact h.outside (P := P) (.done env)
  | tcIrq =>
    obtain ⟨⟨⟨⟩, _⟩, run, rfl⟩ := Option.map_eq_some_iff.mp env
    exact (alone_tcIrq h well).run run
  | dmaIrq =>
    obtain ⟨⟨⟨⟩, _⟩, run, rfl⟩ := Option.map_eq_some_iff.mp env
    exact (alone_dmaIrq h well).run run
  | reply i withData => cases env
  | poll => cases env

theorem Sys.Served.goesOn {call : Call} {rest : Code Unit} (ids : Slot → QId) (next : call.next l rest = some T.call)
    (tending : Tending (fun c => c = call.cmd) ids rest T.fw) : T.Served := by
  rcases Call.next_rest next with ⟨none, a, rfl⟩ | ⟨call', some', cmd, -, rfl⟩
  · have rested : Rested (fun c => c = call.cmd) ids T.fw := tending
    refine ⟨ids, rested.drop ?_ fun _ _ => rfl, ?_⟩
    · rintro c ⟨call', here, -⟩
      rw [none] at here
      cases here
    · intro call' here
      rw [none] at here
      cases here
  · have at' : T.At = fun c => c = call.cmd := by
      funext c
      refine propext ⟨?_, fun same => ⟨call', some', cmd.trans same.symm⟩⟩
      rintro ⟨call'', here, rfl⟩
      rw [some'] at here
      cases here
      exact cmd
    rw [Sys.Served, at']
    refine ⟨ids, ?_, fun call'' here => ?_⟩
    · cases e : call'.rest with
      | pure a =>
        rw [e] at tending
        exact tending
      | act m f k =>
        rw [e] at tending
        exact (Prog.Safe.here (R := Around _ ids) id tending).1.1
      | stuck =>
        rw [e] at next
        cases next
    · rw [some'] at here
      cases here
      exact tending

theorem Sys.Served.step (h : S.Served) (well : WellDriven S e) (step : S.step P e = some T) : T.Served := by
  obtain ⟨ids, rested, calls⟩ := h
  rcases Sys.step_cases step with ⟨fw, env, rfl⟩ | ⟨i, withData, -, start⟩ | ⟨-, poll⟩
  · have next := rested.env well env
    refine ⟨ids, next, fun call here => ?_⟩
    have tending := calls call here
    cases rest : call.rest with
    | pure a => exact next
    | stuck => trivial
    | act l f k =>
      rw [rest] at tending
      exact Prog.Safe.before (R := Around S.At ids) (fun _ _ _ r r' h => r' (r h)) tending fun _ => next
  · unfold Sys.startCall at start
    split at start
    · rename_i m idle request
      obtain ⟨next, first, rfl⟩ := Option.map_eq_some_iff.mp start
      have there := rested.outside (P := P) (.reply i S.fw)
      have busy : S.fw.Busy m.priv := .inr ⟨m, List.mem_of_getElem? request, rfl⟩
      refine .goesOn (fun c => (S.fw.cmds c).qid) first (MadeOf.tending (made_rpmsgEndpointCb P _) rfl ?_)
      refine ⟨⟨fun c at' => ?_, fun c at' => ?_, there.paged, there.handlers, fun c _ => rfl, there.fit⟩, there.drained⟩
      · rcases at' with rfl | busy'
        · exact rested.able _ (.inr busy)
        · exact there.able c (.inr busy')
      · rcases at' with rfl | busy'
        · exact rested.page _ (.inr busy)
        · exact there.page c (.inr busy')
    · cases start
  · obtain ⟨call, l, f, k, here, rest, fw, next⟩ := Sys.pollStep_act poll
    have tending := calls call here
    have at' : S.At = fun c => c = call.cmd := by
      funext c
      refine propext ⟨?_, fun same => ⟨call, here, same.symm⟩⟩
      rintro ⟨call', here', rfl⟩
      rw [here] at here'
      cases here'
      rfl
    rw [rest, at'] at tending
    refine .goesOn ids next ?_
    rw [fw]
    exact (Prog.Safe.here (R := Around _ ids) id tending).2

theorem Run.served {host ram : Nat → UInt8} (run : Run P WellDriven (Sys.boot host ram) S) : S.Served := by
  induction run with
  | refl =>
    have idle (c : Slot) : ¬((Sys.boot host ram).At c ∨ (Sys.boot host ram).fw.Busy c) := by
      rintro (⟨call, here, -⟩ | ⟨ch, d, mem, -⟩ | ⟨m, mem, -⟩)
      · cases here
      · cases mem
      · cases mem
    refine ⟨fun _ => admQueueId, ⟨⟨fun c at' => absurd at' (idle c), fun c at' => absurd at' (idle c), nofun, nofun, fun c at' => ?_,
      fitted_boot host ram⟩, fun _ => rfl⟩, fun call here => nomatch here⟩
    exact absurd (.inl at') (idle c)
  | step e _ met next ih => exact ih.step met next

theorem Sys.Served.lively (h : S.Served) (well : WellDriven S e) : Lively P S e := by
  obtain ⟨ids, rested, calls⟩ := h
  cases e with
  | tcIrq => exact (alone_tcIrq rested well).points
  | dmaIrq => exact (alone_dmaIrq rested well).points
  | poll =>
    intro call here l label
    have tending := calls call here
    refine ⟨?_, rested.page call.cmd (.inl ⟨call, here, rfl⟩)⟩
    cases rest : call.rest with
    | act l' f k =>
      rw [Call.label, rest] at label
      cases label
      rw [rest] at tending
      exact (Prog.Safe.here (R := Around _ ids) id tending).1.2
    | pure a =>
      rw [Call.label, rest] at label
      cases label
    | stuck =>
      rw [Call.label, rest] at label
      cases label
  | _ => trivial

end Runs

/-- In every run whose host drives the queues well, every step fetches from and completes to live queues. -/
theorem lively_of_wellDriven (P : Platform) {host ram : Nat → UInt8} {S : Sys} {e : Event}
    (run : Run P WellDriven (Sys.boot host ram) S) (well : WellDriven S e) : Lively P S e := run.served.lively well

section Checks

instance (tc : NvmeTcPriv) (q : QId) : Decidable (tc.Paired q) :=
  decidable_of_iff (tc.enabled = true ∧ (tc.sqValid q = true ∧ 0 < tc.sqSize q) ∧ tc.cqValid q = true ∧ 0 < tc.cqSize q)
    ⟨fun h => ⟨h.1, h.2.1, h.2.2⟩, fun h => ⟨h.enabled, h.sq, h.cq⟩⟩

def decideHeralds : (s : Fw) → (rs : List RegHandler) → Decidable (Heralds True s rs)
  | _, [] => isTrue trivial
  | s, r :: rest =>
    have := decideHeralds (s.settle r) rest
    inferInstanceAs (Decidable ((∀ q : QId, r = .tail q.val → s.regs (doorbellTail q.val) % 2 ^ 16 ≠ s.tc.sqHead q → s.tc.Paired q ∧ True) ∧
      Heralds True (s.settle r) rest))

instance (s : Fw) (rs : List RegHandler) : Decidable (Heralds True s rs) := decideHeralds s rs

theorem Heralds.of_held {held : Prop} {s : Fw} {rs : List RegHandler} (here : held) (h : Heralds True s rs) : Heralds held s rs := by
  induction rs generalizing s with
  | nil => trivial
  | cons r rs ih => exact ⟨fun q tail new => ⟨(h.1 q tail new).1, here⟩, ih h.2⟩

/-- Enough for a step to be well driven: no call is unfinished, and no command that creates or deletes a completion queue is next. -/
def Sys.drivenPlainly (S : Sys) (e : Event) : Bool :=
  S.call.isNone && match e with
  | .tcIrq => decide (Heralds True S.fw S.fw.pending)
  | .dmaIrq =>
    match (S.fw.ch .rx).fifo.head?.bind (·.callback) with
    | some (.nvmeCmdHandler, c) => decide ((S.fw.cmds c).sqBuf.opc ≠ 0x04 ∧ (S.fw.cmds c).sqBuf.opc ≠ 0x05)
    | _ => true
  | _ => true

theorem wellDriven_of_drivenPlainly {S : Sys} {e : Event} (h : S.drivenPlainly e = true) : WellDriven S e := by
  obtain ⟨idle, plain⟩ := Bool.and_eq_true_iff.mp h
  have idle : S.call = none := Option.isNone_iff_eq_none.mp idle
  cases e with
  | tcIrq =>
    refine (of_decide_eq_true plain).of_held ?_
    rintro c ⟨call, here, -⟩
    rw [idle] at here
    cases here
  | dmaIrq =>
    rintro d c - head callback - q - ⟨-, removes⟩
    rw [head, Option.bind_some, callback] at plain
    obtain ⟨other, other'⟩ := of_decide_eq_true plain
    rcases removes with delete | ⟨create, -⟩
    · exact absurd delete other
    · exact absurd create other'
  | _ => trivial

end Checks

/-- An identify command on the admin queue; its handler is next. -/
theorem identify_lively : ∃ S, Run (board (2 ^ 12)) WellDriven (Sys.boot (fun a => if a = 0x10000 then 6 else 0) fun _ => 0) S ∧
    WellDriven S .dmaIrq ∧ ((nvmeDmaIrqHandler (callback (board (2 ^ 12)))).points S.fw).length ≠ 0 ∧ Lively (board (2 ^ 12)) S .dmaIrq := by
  have runs : ((Sys.boot (fun a => if a = 0x10000 then 6 else 0) fun _ => 0).execOk (board (2 ^ 12)) Sys.drivenPlainly
      (setUp ++ [.hostWrite (doorbellTail 0 / 4) 1, .tcIrq, .dmaDone .rx])).map (fun S =>
      S.drivenPlainly .dmaIrq && decide (((nvmeDmaIrqHandler (callback (board (2 ^ 12)))).points S.fw).length ≠ 0)) = some true := by decide +kernel
  obtain ⟨S, exec, all⟩ := Option.map_eq_some_iff.mp runs
  obtain ⟨plain, acts⟩ := Bool.and_eq_true_iff.mp all
  have run := (Run.refl _ : Run (board (2 ^ 12)) WellDriven _ _).execOk (fun _ _ => wellDriven_of_drivenPlainly) exec
  have well := wellDriven_of_drivenPlainly plain
  exact ⟨S, run, well, of_decide_eq_true acts, lively_of_wellDriven _ run well⟩

/-- The controller fetches without having been enabled. -/
theorem disabled_fetches : ¬∀ (P : Platform) (S : Sys) (e : Event), Reachable P S → Lively P S e := by
  intro claim
  have runs : ((Sys.boot (fun _ => 0) fun _ => 0).exec (board (2 ^ 12))
      [.hostWrite (nvmeTcRegAqa / 4) 15, .hostWrite (nvmeTcRegAsq1 / 4) 0, .tcIrq, .hostWrite (doorbellTail 0 / 4) 1]).map (fun S : Sys =>
      ((nvmeTcIrqHandler (board (2 ^ 12))).points S.fw).any fun x =>
        decide (x.2.tc.sqTail admQueueId ≠ x.2.tc.sqHead admQueueId ∧ x.2.tc.enabled = false)) = some true := by decide +kernel
  obtain ⟨S, exec, all⟩ := Option.map_eq_some_iff.mp runs
  obtain ⟨x, mem, here⟩ := List.any_eq_true.mp all
  obtain ⟨announced, disabled⟩ := of_decide_eq_true here
  have live := claim _ S .tcIrq ⟨_, _, (Run.refl _).exec exec⟩ x mem
  have enabled := (live.announced admQueueId announced).1
  rw [disabled] at enabled
  cases enabled

end AlkaliFw
