import AlkaliFw.Actions

/-! Every action of the interrupt handlers, and what the host, the APU and the hardware do.
A property of the shared state that all of these keep holds in every state of a run. -/

namespace AlkaliFw
open Resumption

/-- An action of the tc handler, outside of a fetch. -/
inductive TcAct : Access → Fw → Fw → Prop where
  | look (l : Access) (s : Fw) : TcAct l s s
  | reg (s : Fw) : TcAct .other s { s with writes := s.writes.tail }
  | cc (s : Fw) : TcAct .other s s.ccHandler
  | aqa (s : Fw) : TcAct .other s s.aqaHandler
  | asq (s : Fw) : TcAct .other s s.asqHandler
  | acq (s : Fw) : TcAct .other s s.acqHandler
  | tail (q : QId) {v : Nat} (s : Fw) (word : v < 2 ^ 16) :
      TcAct .other s (s.setTc fun tc => { tc with sqTail := Function.update tc.sqTail q v })
  | head (q : QId) {v : Nat} (s : Fw) (word : v < 2 ^ 16) :
      TcAct .other s (s.setTc fun tc => { tc with cqHead := Function.update tc.cqHead q v })

/-- An action of the fetch of an announced entry. -/
inductive FetchAct (P : Platform) : Access → Fw → Fw → Prop where
  | look (l : Access) (s : Fw) : FetchAct P l s s
  | advance (q : QId) (s : Fw) : FetchAct P .other s (s.advanceSq q).2
  | cmdAlloc {s : Fw} {c : Slot} {slab : Slab nvmeCmdSlabSize} (q : QId)
      (alloc : P.kMemSlabAlloc s.cmdSlab s.clock = (some c, slab)) :
      FetchAct P .other s
        ((Fw.setCmd { s with cmdSlab := slab, clock := s.clock + 1 } c fun _ => { qid := q }).note (.cmdAlloc c q))
  | skipped (q : QId) (s : Fw) : FetchAct P .other s (Fw.note { s with clock := s.clock + 1 } (.skipped q))
  | fill {s : Fw} {b : Nat} {slab : Slab kMemSlabMax} (alloc : P.descSlabAlloc s.descSlab s.clock = (some b, slab)) :
      FetchAct P .other s { s with descSlab := slab, clock := s.clock + 1 }
  | noDescriptor (c : Slot) (s : Fw) :
      FetchAct P .other s (Fw.note { s with clock := s.clock + 1 } (.noDescriptor c))
  | fetch {d : Desc} (c : Slot) (s : Fw) (loc : d.localAddr = .sqBuf c) (cb : d.callback = some (.nvmeCmdHandler, c))
      (owner : d.owner = c) : FetchAct P (.submit (some (.nvmeCmdHandler, c))) s (s.put .rx d)
  | lost (c : Slot) (why : Loss) (s : Fw) : FetchAct P .other s (s.note (.lost c why))

/-- The completion entry of `c` is prepared. -/
def Fw.handled (s : Fw) (c : Slot) : Fw :=
  (s.setCmd c fun p => { p with cqBuf := { sqHead := s.tc.sqHead (s.cmds c).qid, cid := p.sqBuf.cid } }).note
    (.handled c (s.cmds c).qid (s.tc.sqHead (s.cmds c).qid))

inductive DmaAct (P : Platform) : Access → Fw → Fw → Prop where
  | status (ch : Chan) (s : Fw) : DmaAct P .other s (s.setCh ch fun c => { c with valid := false })
  | get (ch : Chan) (s : Fw) : DmaAct P .other s (s.get ch)
  | descFree (b : Nat) (s : Fw) :
      DmaAct P .other s (Fw.note { s with descSlab := s.descSlab.free b } (.descFree b))
  | restart (ch : Chan) (s : Fw) : DmaAct P .other s (s.restart ch)
  | handled (c : Slot) (s : Fw) : DmaAct P (.cmd c) s (s.handled c)
  | cmd {c : Slot} {l : Access} {s t : Fw} (act : FineAct P c l s t) : DmaAct P l s t

/-- What happens beside the firmware. -/
inductive Outside (P : Platform) : Fw → Fw → Prop where
  | hostWrite (reg value : Nat) (s : Fw) :
      Outside P s { s with regs := Function.update s.regs (4 * reg) (value % 2 ^ 32), writes := s.writes ++ [reg] }
  | hostStore (addr : Nat) (bytes : List UInt8) (s : Fw) :
      Outside P s { s with host := copyTo s.host addr bytes.length fun i => bytes.getD i 0 }
  | apuStore (addr : Nat) (bytes : List UInt8) (s : Fw) :
      Outside P s { s with ram := copyTo s.ram addr bytes.length fun i => bytes.getD i 0 }
  | done {ch : Chan} {s t : Fw} (finish : s.finish P ch = some t) : Outside P s t
  | reply (i : Nat) (s : Fw) : Outside P s { s with apu := s.apu.eraseIdx i }

section

variable (P : Platform)

theorem acts_nvmeTcGetSqAddr (q : QId) : (nvmeTcGetSqAddr q).Acts Fitted (FetchAct P) := by
  refine Prog.acts_look_bind (fun s => .look _ s) fun s _ => Prog.acts_ite (fun _ => Prog.acts_stuck) fun _ => ?_
  exact fun s _ => ⟨.advance q s, trivial⟩

theorem acts_nvmeTcFetch (q : QId) : (nvmeTcFetch P q).Acts Fitted (FetchAct P) := by
  refine Prog.acts_bind (acts_nvmeTcGetSqAddr P q) fun host => Prog.acts_swap_bind (fun s => ?_) fun s => ?_
  · rcases alloc : P.kMemSlabAlloc s.cmdSlab s.clock with ⟨_ | c, slab⟩
    · rw [kMemSlabAlloc_none P alloc]
      exact .skipped q s
    · exact .cmdAlloc q alloc
  · rcases alloc : (P.kMemSlabAlloc s.cmdSlab s.clock).1 with _ | c
    · simp only [alloc]
      exact Prog.acts_pure _
    · simp only [alloc]
      refine Prog.acts_bind ?_ fun ok => Prog.acts_when fun _ => Prog.acts_change fun s => .lost c _ s
      exact (over_nvmeDmaXfer P c (C := fun _ => False) _ _ _ _ _ _ (fun _ _ _ alloc => .fill alloc)
        (fun s => .noDescriptor c s) fun s block q => .fetch c s rfl rfl rfl).acts (fun _ _ _ h => h) fun _ => False.elim

/-- Code of the tc handler in which a fetch counts as one step. -/
def TcMade {α : Type} (p : Code α) : Prop := p.Over Fitted TcAct fun f => ∃ q, f = nvmeTcFetch P q

theorem made_nvmeTcFetchLoop (q : QId) (fuel : Nat) : TcMade P (nvmeTcFetchLoop P q fuel) := by
  induction fuel with
  | zero => exact .stuck
  | succ fuel ih =>
    refine Prog.over_look_bind (fun s => .look _ s) fun s _ => Prog.over_ite (fun _ => ?_) fun _ => Prog.over_pure _
    exact Prog.over_bind (Prog.over_call ⟨q, rfl⟩) fun _ => ih

theorem made_handleReg (r : RegHandler) : TcMade P (handleReg P r) := by
  cases r with
  | cc => exact Prog.over_change fun s => .cc s
  | aqa => exact Prog.over_change fun s => .aqa s
  | asq => exact Prog.over_change fun s => .asq s
  | acq => exact Prog.over_change fun s => .acq s
  | nothing => exact Prog.over_pure _
  | tail q =>
    simp only [handleReg, nvmeTcTailHandler]
    split
    · refine Prog.over_bind (Prog.over_change fun s => .tail _ s ?_) fun _ => made_nvmeTcFetchLoop P _ _
      exact Nat.mod_lt _ (by decide)
    · exact .stuck
  | head q =>
    simp only [handleReg, nvmeTcHeadHandler]
    split
    · exact Prog.over_change fun s => .head _ s (Nat.mod_lt _ (by decide))
    · exact .stuck

theorem made_nvmeTcIrqLoop (n : Nat) : TcMade P (nvmeTcIrqLoop P n) := by
  induction n with
  | zero => exact Prog.over_pure _
  | succ n ih =>
    refine Prog.over_swap_bind (fun s => .reg s) fun s => ?_
    exact Prog.over_bind (made_handleReg P _) fun _ => ih

theorem made_nvmeTcIrqHandler : TcMade P (nvmeTcIrqHandler P) :=
  Prog.over_look_bind (fun s => .look _ s) fun _ _ => made_nvmeTcIrqLoop P _

theorem acts_callback (cb : Cb) (c : Slot) (loc : Local) : (callback P cb c loc).Acts Fitted (DmaAct P) := by
  by_cases handler : cb = .nvmeCmdHandler
  · rw [handler]
    exact Prog.acts_bind (Prog.acts_change fun s => .handled c s) fun _ => (made_dispatch P c).acts.imp fun _ _ _ => .cmd
  · exact (made_callback P c handler loc).acts.imp fun _ _ _ => .cmd

theorem acts_runDesc (d : Option Desc) : (runDesc (callback P) d).Acts Fitted (DmaAct P) := by
  cases d with
  | none => exact Prog.acts_pure _
  | some d =>
    refine Prog.acts_bind ?_ fun _ => Prog.acts_change fun s => .descFree d.desc s
    unfold runCallback
    split
    · exact acts_callback P _ _ _
    · exact Prog.acts_pure _

theorem acts_nvmeDmaComplete (ch : Chan) : (nvmeDmaComplete (callback P) ch).Acts Fitted (DmaAct P) := by
  refine Prog.acts_swap_bind (fun s => .get ch s) fun s => ?_
  exact Prog.acts_bind (acts_runDesc P _) fun _ => Prog.acts_change fun s => .restart ch s

theorem acts_nvmeDmaIrqHandler : (nvmeDmaIrqHandler (callback P)).Acts Fitted (DmaAct P) := by
  refine Prog.acts_swap_bind (fun s => .status .rx s) fun _ => Prog.acts_swap_bind (fun s => .status .tx s) fun _ => ?_
  refine Prog.acts_bind (Prog.acts_when fun _ => acts_nvmeDmaComplete P .rx) fun _ => ?_
  exact Prog.acts_when fun _ => acts_nvmeDmaComplete P .tx

end

section Runs

variable {P : Platform} {I : Fw → Prop}

/-- Whatever acts on the shared state keeps `I`. -/
structure Closed (P : Platform) (I : Fw → Prop) : Prop where
  fine : ∀ c l s t, FineAct P c l s t → I s → I t
  handled : ∀ c s, I s → I (s.handled c)
  tc : ∀ l s t, TcAct l s t → I s → I t
  fetch : ∀ l s t, FetchAct P l s t → I s → I t
  status : ∀ ch s, I s → I (s.setCh ch fun c => { c with valid := false })
  get : ∀ ch s, I s → I (s.get ch)
  descFree : ∀ b s, I s → I (Fw.note { s with descSlab := s.descSlab.free b } (.descFree b))
  restart : ∀ ch s, I s → I (s.restart ch)
  outside : ∀ s t, Outside P s t → I s → I t

theorem Closed.and {J : Fw → Prop} (h : Closed P I) (h' : Closed P J) : Closed P fun s => I s ∧ J s where
  fine c l s t act hs := ⟨h.fine c l s t act hs.1, h'.fine c l s t act hs.2⟩
  handled c s hs := ⟨h.handled c s hs.1, h'.handled c s hs.2⟩
  tc l s t act hs := ⟨h.tc l s t act hs.1, h'.tc l s t act hs.2⟩
  fetch l s t act hs := ⟨h.fetch l s t act hs.1, h'.fetch l s t act hs.2⟩
  status ch s hs := ⟨h.status ch s hs.1, h'.status ch s hs.2⟩
  get ch s hs := ⟨h.get ch s hs.1, h'.get ch s hs.2⟩
  descFree b s hs := ⟨h.descFree b s hs.1, h'.descFree b s hs.2⟩
  restart ch s hs := ⟨h.restart ch s hs.1, h'.restart ch s hs.2⟩
  outside s t act hs := ⟨h.outside s t act hs.1, h'.outside s t act hs.2⟩

theorem Closed.dma (h : Closed P I) {l : Access} {s t : Fw} (act : DmaAct P l s t) : I s → I t := by
  cases act with
  | status ch => exact h.status ch s
  | get ch => exact h.get ch s
  | descFree b => exact h.descFree b s
  | restart ch => exact h.restart ch s
  | handled c => exact h.handled c s
  | cmd act => exact h.fine _ _ _ _ act

theorem Fitted.update {s : Fw} (h : Fitted s) {c : Slot} {p : NvmeCmdPriv} (fit : p.Fit) :
    ∀ d, (Function.update s.cmds c p d).Fit := by
  intro d
  by_cases here : d = c
  · rw [here, Function.update_self]
    exact fit
  · rw [Function.update_of_ne here]
    exact h d

theorem fitted_closed : Closed P Fitted where
  fine c l s t act h := by
    cases act with
    | own act =>
      cases act with
      | cmd s assigns => exact h.update (assigns.fit _ (h c))
      | queues => exact h.update ⟨(h c).len, (h c).cb⟩
      | buffer => exact h.update ⟨(h c).len, (h c).cb⟩
      | queue update => cases update <;> exact h
      | _ => exact h
    | _ => exact h
  handled c s h := h.update ⟨(h c).len, (h c).cb⟩
  tc l s t act h := by
    cases act with
    | cc =>
      unfold Fw.ccHandler
      dsimp only
      split
      · exact h
      · split <;> exact h
    | _ => exact h
  fetch l s t act h := by
    cases act with
    | cmdAlloc => exact h.update ⟨Nat.two_pow_pos _, fun _ e => nomatch e⟩
    | _ => exact h
  status _ _ h := h
  get ch s h := by
    unfold Fw.get
    split <;> exact h
  descFree _ _ h := h
  restart _ _ h := h
  outside s t act h := by
    cases act with
    | done finish =>
      obtain ⟨d, -, -, cmds⟩ := Fw.finished_of_finish finish
      intro c
      rcases cmds c with same | ⟨-, -, fetched⟩
      · rw [same]
        exact h c
      · rw [fetched]
        exact ⟨(h c).len, (h c).cb⟩
    | _ => exact h

/-- What is left of a call consists of actions of its command. -/
def Sys.CallActs (P : Platform) (S : Sys) : Prop := ∀ call, S.call = some call → call.rest.Acts Fitted (FineAct P call.cmd)

theorem Call.next_acts {call : Call} {l : Access} {rest : Code Unit} {next : Option Call}
    (h : call.next l rest = some next) (acts : rest.Acts Fitted (FineAct P call.cmd)) {call' : Call} (e : next = some call') :
    call'.cmd = call.cmd ∧ call'.rest = rest ∧ call'.rest.Acts Fitted (FineAct P call'.cmd) := by
  cases rest with
  | pure a =>
    cases h
    cases e
  | act m f k =>
    cases h
    cases e
    exact ⟨rfl, rfl, acts⟩
  | stuck => cases h

theorem Fw.env_closed (h : Closed P I) (fit : ∀ s, I s → Fitted s) {s t : Fw} {e : Event} (env : s.env P e = some t) (hs : I s) : I t := by
  cases e with
  | hostWrite reg value =>
    cases env
    exact h.outside _ _ (.hostWrite reg value s) hs
  | hostStore addr bytes =>
    cases env
    exact h.outside _ _ (.hostStore addr bytes s) hs
  | apuStore addr bytes =>
    cases env
    exact h.outside _ _ (.apuStore addr bytes s) hs
  | dmaDone ch => exact h.outside _ _ (.done env) hs
  | tcIrq =>
    obtain ⟨⟨⟩, run, rfl⟩ := Option.map_eq_some_iff.mp env
    refine Prog.Over.run (made_nvmeTcIrqHandler P) fit h.tc ?_ hs run
    rintro _ u v ⟨q, rfl⟩ fetch hu
    exact (acts_nvmeTcFetch P q).run fit h.fetch hu fetch
  | dmaIrq =>
    obtain ⟨⟨⟩, run, rfl⟩ := Option.map_eq_some_iff.mp env
    exact (acts_nvmeDmaIrqHandler P).run fit (fun _ _ _ => h.dma) hs run
  | reply i withData => cases env
  | poll => cases env

theorem Sys.startCall_acts {S T : Sys} {i : Nat} {withData : Bool} (h : S.startCall P i withData = some T) :
    T.CallActs P ∧ T.fw = { S.fw with apu := S.fw.apu.eraseIdx i } := by
  unfold Sys.startCall at h
  split at h
  · rename_i m _ _
    obtain ⟨next, start, rfl⟩ := Option.map_eq_some_iff.mp h
    exact ⟨fun call e => (Call.next_acts start (made_rpmsgEndpointCb P { m with id := _ }).acts e).2.2, rfl⟩
  · cases h

/-- The action that the thread takes. -/
theorem Sys.pollStep_act {S T : Sys} (h : S.pollStep = some T) :
    ∃ call l f k, S.call = some call ∧ call.rest = .act l f k ∧ T.fw = f S.fw ∧
      call.next l (k S.fw) = some T.call := by
  unfold Sys.pollStep at h
  split at h
  · rename_i call e
    split at h
    · rename_i l f k rest
      obtain ⟨next, step, rfl⟩ := Option.map_eq_some_iff.mp h
      exact ⟨call, l, f, k, e, rest, rfl, step⟩
    · cases h
  · cases h

theorem Sys.step_cases {S T : Sys} {e : Event} (step : S.step P e = some T) :
    (∃ fw, S.fw.env P e = some fw ∧ T = { S with fw }) ∨
      (∃ i withData, e = .reply i withData ∧ S.startCall P i withData = some T) ∨
      e = .poll ∧ S.pollStep = some T := by
  cases e with
  | reply i withData => exact .inr (.inl ⟨i, withData, rfl, step⟩)
  | poll => exact .inr (.inr ⟨rfl, step⟩)
  | _ =>
    simp only [Sys.step, Option.map_eq_some_iff] at step
    obtain ⟨fw, env, rfl⟩ := step
    exact .inl ⟨fw, env, rfl⟩

/-- Records fit, and what is left of a call is code for its command. -/
structure Sys.Sound (P : Platform) (S : Sys) : Prop where
  fitted : Fitted S.fw
  acts : S.CallActs P

theorem Sys.step_closed (h : Closed P I) {S T : Sys} {e : Event} (step : S.step P e = some T) (sound : S.Sound P)
    (hs : I S.fw) : I T.fw := by
  have both := h.and fitted_closed
  rcases Sys.step_cases step with ⟨fw, env, rfl⟩ | ⟨i, withData, -, start⟩ | ⟨-, poll⟩
  · exact (Fw.env_closed both (fun _ hs => hs.2) env ⟨hs, sound.fitted⟩).1
  · rw [(Sys.startCall_acts start).2]
    exact h.outside _ _ (.reply i S.fw) hs
  · obtain ⟨call, l, f, k, e, rest, fw, -⟩ := Sys.pollStep_act poll
    have acts := sound.acts call e
    rw [rest] at acts
    rw [fw]
    exact h.fine _ _ _ _ (acts S.fw sound.fitted).1 hs

/-- The trace only grows. -/
theorem history_closed (old : List Obs) : Closed P fun s => old <:+ s.trace where
  fine c l s t act h := by
    have noted {o : Obs} : old <:+ o :: s.trace := h.trans (List.suffix_cons ..)
    cases act with
    | own act =>
      cases act with
      | put => exact noted
      | noDescriptor => exact noted
      | cmdFree => exact noted
      | lost => exact noted
      | prpAlloc => exact noted
      | noPrpBuffer => exact noted
      | prpFree => exact noted
      | queue update =>
        cases update with
        | createSq => exact noted
        | createCq => exact noted
        | deleteSq => exact h
        | deleteCq => exact h
      | sent => exact noted
      | buffer => exact noted
      | poolFree => exact noted
      | _ => exact h
    | entry => exact h.trans (List.suffix_cons ..)
    | _ => exact h
  handled c s h := h.trans (List.suffix_cons ..)
  tc l s t act h := by
    cases act with
    | cc =>
      unfold Fw.ccHandler
      dsimp only
      split
      · exact h
      · split <;> exact h
    | _ => exact h
  fetch l s t act h := by
    cases act with
    | look => exact h
    | advance => exact h
    | fill => exact h
    | _ => exact h.trans (List.suffix_cons ..)
  status _ _ h := h
  get ch s h := by
    unfold Fw.get
    split
    · exact h
    · exact h.trans (List.suffix_cons ..)
  descFree _ _ h := h.trans (List.suffix_cons ..)
  restart _ _ h := h
  outside s t act h := by
    cases act with
    | done finish =>
      obtain ⟨d, -, ⟨host, ram, prpMem, cmds, rfl⟩, -⟩ := Fw.finished_of_finish finish
      exact h.trans (List.suffix_cons ..)
    | _ => exact h

theorem Sys.step_history {S T : Sys} {e : Event} (step : S.step P e = some T) (sound : S.Sound P) :
    S.fw.trace <:+ T.fw.trace := Sys.step_closed (history_closed _) step sound List.suffix_rfl

/-- Events that a step adds to the trace. -/
def Sys.news (P : Platform) (S : Sys) (e : Event) : List Obs :=
  match S.step P e with
  | some T => T.fw.trace.take (T.fw.trace.length - S.fw.trace.length)
  | none => []

theorem Sys.trace_eq {S T : Sys} {e : Event} (step : S.step P e = some T) (sound : S.Sound P) :
    T.fw.trace = S.news P e ++ S.fw.trace := by
  obtain ⟨new, h⟩ := Sys.step_history step sound
  have length : T.fw.trace.length - S.fw.trace.length = new.length := by
    rw [← h, List.length_append, Nat.add_sub_cancel]
  simp only [Sys.news, step, length]
  rw [← h, List.take_left]

/-- What the actions of the DMA handler and of the thread keep, and what happens outside keeps, every
step but a tc interrupt keeps. -/
theorem Sys.step_aside (dma : ∀ l s t, DmaAct P l s t → I s → I t) (outside : ∀ s t, Outside P s t → I s → I t)
    {S T : Sys} {e : Event} (other : e ≠ .tcIrq) (step : S.step P e = some T) (sound : S.Sound P) (hs : I S.fw) : I T.fw := by
  rcases Sys.step_cases step with ⟨fw, env, rfl⟩ | ⟨i, withData, -, start⟩ | ⟨-, poll⟩
  · cases e with
    | hostWrite reg value =>
      cases env
      exact outside _ _ (.hostWrite reg value S.fw) hs
    | hostStore addr bytes =>
      cases env
      exact outside _ _ (.hostStore addr bytes S.fw) hs
    | apuStore addr bytes =>
      cases env
      exact outside _ _ (.apuStore addr bytes S.fw) hs
    | dmaDone ch => exact outside _ _ (.done env) hs
    | tcIrq => exact absurd rfl other
    | dmaIrq =>
      obtain ⟨⟨⟩, run, rfl⟩ := Option.map_eq_some_iff.mp env
      refine ((acts_nvmeDmaIrqHandler P).run (I := fun s => I s ∧ Fitted s) (fun _ hs => hs.2) ?_ ⟨hs, sound.fitted⟩ run).1
      exact fun l s t act hs => ⟨dma l s t act hs.1, fitted_closed.dma act hs.2⟩
    | reply i withData => cases env
    | poll => cases env
  · rw [(Sys.startCall_acts start).2]
    exact outside _ _ (.reply i S.fw) hs
  · obtain ⟨call, l, f, k, e, rest, fw, -⟩ := Sys.pollStep_act poll
    have acts := sound.acts call e
    rw [rest] at acts
    rw [fw]
    exact dma l _ _ (.cmd (acts S.fw sound.fitted).1) hs

theorem Sys.step_sound {S T : Sys} {e : Event} (step : S.step P e = some T) (sound : S.Sound P) : T.Sound P := by
  refine ⟨Sys.step_closed fitted_closed step sound sound.fitted, ?_⟩
  rcases Sys.step_cases step with ⟨fw, -, rfl⟩ | ⟨i, withData, -, start⟩ | ⟨-, poll⟩
  · exact sound.acts
  · exact (Sys.startCall_acts start).1
  · obtain ⟨call, l, f, k, e, rest, -, next⟩ := Sys.pollStep_act poll
    have acts := sound.acts call e
    rw [rest] at acts
    exact fun call' e' => (Call.next_acts next (acts S.fw sound.fitted).2 e').2.2

theorem fitted_boot (host ram : Nat → UInt8) : Fitted (Sys.boot host ram).fw :=
  fun _ => ⟨Nat.two_pow_pos _, fun _ e => nomatch e⟩

theorem Run.sound {ok : Sys → Event → Prop} {host ram : Nat → UInt8} {S : Sys} (run : Run P ok (Sys.boot host ram) S) :
    S.Sound P := by
  induction run with
  | refl => exact ⟨fitted_boot host ram, fun call e => nomatch e⟩
  | step e _ _ next ih => exact Sys.step_sound next ih

theorem Run.closed (h : Closed P I) {ok : Sys → Event → Prop} {host ram : Nat → UInt8} {S : Sys}
    (run : Run P ok (Sys.boot host ram) S) (hs : I (Sys.boot host ram).fw) : I S.fw := by
  induction run with
  | refl => exact hs
  | step e before _ next ih => exact Sys.step_closed h next before.sound ih

theorem Sys.exec_append {P : Platform} {S T U : Sys} {E E' : List Event} (h : S.exec P E = some T)
    (h' : T.exec P E' = some U) : S.exec P (E ++ E') = some U := by
  induction E generalizing S with
  | nil =>
    cases h
    exact h'
  | cons e E ih =>
    obtain ⟨V, step, rest⟩ := Option.bind_eq_some_iff.mp h
    exact Option.bind_eq_some_iff.mpr ⟨V, step, ih rest⟩

theorem Run.exec {P : Platform} {S T U : Sys} {E : List Event} (run : Run P (fun _ _ => True) S T)
    (h : T.exec P E = some U) : Run P (fun _ _ => True) S U := by
  induction E generalizing T with
  | nil =>
    cases h
    exact run
  | cons e E ih =>
    obtain ⟨V, step, rest⟩ := Option.bind_eq_some_iff.mp h
    exact ih (run.step e trivial step) rest

/-- Execute a sequence of events, each of which meets a condition. -/
def Sys.execOk (P : Platform) (ok : Sys → Event → Bool) (S : Sys) : List Event → Option Sys
  | [] => some S
  | e :: es => if ok S e then (S.step P e).bind fun T => T.execOk P ok es else none

theorem Run.execOk {P : Platform} {ok : Sys → Event → Prop} {okb : Sys → Event → Bool} {S T U : Sys} {E : List Event}
    (meets : ∀ S e, okb S e = true → ok S e) (run : Run P ok S T) (h : T.execOk P okb E = some U) : Run P ok S U := by
  induction E generalizing T with
  | nil =>
    cases h
    exact run
  | cons e E ih =>
    rw [Sys.execOk] at h
    split at h
    · obtain ⟨V, step, rest⟩ := Option.bind_eq_some_iff.mp h
      exact ih (run.step e (meets T e ‹_›) step) rest
    · cases h

end Runs
end AlkaliFw
