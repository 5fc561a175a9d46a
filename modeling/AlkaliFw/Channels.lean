import AlkaliFw.Events

/-! The DMA channels over time. The hardware works on the head of the FIFO; the interrupt
handler takes the status, removes the head, runs its callback and starts the next one. -/

namespace AlkaliFw
open Resumption

inductive Channel.Stage where
  | steady | taken | popped
  deriving DecidableEq

/-- The descriptors `left` of a channel have not been moved yet. Between interrupts a channel is
steady; inside the handler its status is taken, then its head is removed. -/
inductive Channel.Phase : Channel.Stage → Channel → (left : List Desc) → Prop where
  | idle : Phase .steady ⟨[], false, none, false⟩ []
  | busy (d : Desc) (rest : List Desc) : Phase .steady ⟨d :: rest, true, some d, false⟩ (d :: rest)
  | done (d : Desc) (rest : List Desc) : Phase .steady ⟨d :: rest, true, none, true⟩ rest
  | taken (d : Desc) (rest : List Desc) : Phase .taken ⟨d :: rest, true, none, false⟩ rest
  | popped (rest : List Desc) : Phase .popped ⟨rest, true, none, false⟩ rest

namespace Channel.Phase

variable {k : Channel.Stage} {c : Channel} {left : List Desc}

theorem put (h : Phase k c left) (d : Desc) :
    Phase k
      { c with fifo := c.fifo ++ [d], running := true, programmed := if c.running then c.programmed else some d }
      (left ++ [d]) := by
  cases h with
  | idle => exact .busy d []
  | busy e rest => exact .busy e (rest ++ [d])
  | done e => exact .done e (left ++ [d])
  | taken e => exact .taken e (left ++ [d])
  | popped => exact .popped (left ++ [d])

theorem finish {d : Desc} (h : Phase .steady c left) (e : c.programmed = some d) :
    ∃ rest, left = d :: rest ∧ c.fifo = d :: rest ∧ Phase .steady { c with programmed := none, valid := true } rest := by
  cases h with
  | idle => cases e
  | busy d' rest =>
    cases e
    exact ⟨rest, rfl, rfl, .done d rest⟩
  | done => cases e

theorem take (h : Phase .steady c left) :
    if c.valid then Phase .taken { c with valid := false } left else Phase .steady { c with valid := false } left := by
  cases h with
  | idle => exact .idle
  | busy d rest => exact .busy d rest
  | done d => exact .taken d left

theorem get (h : Phase .taken c left) : ∃ d, c.fifo = d :: left ∧ Phase .popped { c with fifo := left } left := by
  cases h with
  | taken d => exact ⟨d, rfl, .popped left⟩

theorem restart (h : Phase .popped c left) :
    Phase .steady
      (match c.fifo with
      | [] => { c with running := false }
      | d :: _ => { c with programmed := some d }) left := by
  cases h with
  | popped =>
    cases left with
    | nil => exact .idle
    | cons d rest => exact .busy d rest

end Channel.Phase

theorem fifo_restart (s : Fw) (ch ch' : Chan) : ((s.restart ch).ch ch').fifo = (s.ch ch').fifo := by
  unfold Fw.restart Fw.setCh
  by_cases h : ch' = ch
  · subst h
    simp only [Function.update_self]
    split <;> simp [*]
  · simp only [Function.update_of_ne h]

namespace Fw

@[simp] theorem put_ch_self (s : Fw) (ch : Chan) (d : Desc) : (s.put ch d).ch ch =
    { s.ch ch with
      fifo := (s.ch ch).fifo ++ [d]
      running := true
      programmed := if (s.ch ch).running then (s.ch ch).programmed else some d } :=
  Function.update_self ..

theorem put_ch_of_ne (s : Fw) {ch ch' : Chan} (d : Desc) (h : ch' ≠ ch) : (s.put ch d).ch ch' = s.ch ch' :=
  Function.update_of_ne h ..

theorem get_cmds (s : Fw) (ch : Chan) : (s.get ch).cmds = s.cmds := by
  unfold get
  split <;> rfl

namespace Finished

variable {s t : Fw} {ch : Chan} {d : Desc}

theorem ch_self (h : s.Finished ch d t) : t.ch ch = { s.ch ch with programmed := none, valid := true } := by
  obtain ⟨host, ram, prpMem, cmds, rfl⟩ := h.state
  exact Function.update_self ..

theorem ch_of_ne (h : s.Finished ch d t) {ch' : Chan} (other : ch' ≠ ch) : t.ch ch' = s.ch ch' := by
  obtain ⟨host, ram, prpMem, cmds, rfl⟩ := h.state
  exact Function.update_of_ne other ..

theorem trace (h : s.Finished ch d t) : t.trace = .finished ch d :: s.trace := by
  obtain ⟨host, ram, prpMem, cmds, rfl⟩ := h.state
  rfl

end Finished

/-- Both status registers have been read. -/
def takeBoth (s : Fw) : Fw :=
  (s.setCh .rx fun c => { c with valid := false }).setCh .tx fun c => { c with valid := false }

def release (s : Fw) (d : Desc) : Fw := Fw.note { s with descSlab := s.descSlab.free d.desc } (.descFree d.desc)

end Fw

/-- One channel in the interrupt handler. -/
inductive Serviced (P : Platform) (ch : Chan) : Bool → Fw → Fw → Prop where
  | nothing (s : Fw) : Serviced P ch false s s
  | spurious {s : Fw} (empty : (s.ch ch).fifo = []) : Serviced P ch true s (s.restart ch)
  | called {s u : Fw} {d : Desc} {rest : List Desc} (fifo : (s.ch ch).fifo = d :: rest)
      (run : (runCallback (callback P) d).run (s.get ch) = some ((), u)) :
      Serviced P ch true s ((u.release d).restart ch)

section

variable {P : Platform}

theorem serviced_of_run {ch : Chan} {s t : Fw} (run : (nvmeDmaComplete (callback P) ch).run s = some ((), t)) :
    Serviced P ch true s t := by
  cases fifo : (s.ch ch).fifo with
  | nil =>
    simp only [nvmeDmaComplete, Prog.run_bind, Prog.run_swap, Option.bind_some, fifo, List.head?_nil, runDesc,
      Fw.get] at run
    cases run
    exact .spurious fifo
  | cons d rest =>
    simp only [nvmeDmaComplete, Prog.run_bind, Prog.run_swap, Option.bind_some, fifo, List.head?_cons, runDesc] at run
    obtain ⟨⟨⟨⟩, v⟩, desc, run⟩ := Option.bind_eq_some_iff.mp run
    obtain ⟨⟨⟨⟩, u⟩, called, freed⟩ := Option.bind_eq_some_iff.mp desc
    cases freed
    cases run
    exact .called fifo called

/-- The interrupt handler services the channels one after the other. -/
theorem run_nvmeDmaIrqHandler {s t : Fw} (run : (nvmeDmaIrqHandler (callback P)).run s = some ((), t)) :
    ∃ u, Serviced P .rx (s.ch .rx).valid s.takeBoth u ∧ Serviced P .tx (s.ch .tx).valid u t := by
  simp only [nvmeDmaIrqHandler, takeStatus, Prog.run_bind, Prog.run_swap, Option.bind_some, Prog.run_when] at run
  obtain ⟨⟨⟨⟩, u⟩, first, second⟩ := Option.bind_eq_some_iff.mp run
  have tx : ((s.setCh .rx fun c => { c with valid := false }).ch .tx) = s.ch .tx := rfl
  rw [tx] at second
  refine ⟨u, ?_, ?_⟩
  · cases valid : (s.ch .rx).valid with
    | false =>
      rw [valid] at first
      cases first
      exact .nothing _
    | true =>
      rw [valid] at first
      exact serviced_of_run first
  · cases valid : (s.ch .tx).valid with
    | false =>
      rw [valid] at second
      cases second
      exact .nothing _
    | true =>
      rw [valid] at second
      exact serviced_of_run second

/-- Channels whose status the handler finds valid wait to be serviced. -/
def Fw.stages (s : Fw) (ch : Chan) : Channel.Stage := if (s.ch ch).valid then .taken else .steady

/-- What every action of a command keeps, a callback keeps. -/
theorem runCallback_keeps {I : Fw → Prop} (fine : ∀ c l s t, FineAct P c l s t → I s → I t)
    (handled : ∀ c s, I s → I (s.handled c)) {d : Desc} {s t : Fw}
    (run : (runCallback (callback P) d).run s = some ((), t)) (fit : Fitted s) (hs : I s) : I t ∧ Fitted t := by
  have fitted := fitted_closed (P := P)
  unfold runCallback at run
  split at run
  · rename_i cb c _
    have guard : ∀ s, I s ∧ Fitted s → Fitted s := fun _ h => h.2
    have closed : ∀ l s t, FineAct P c l s t → I s ∧ Fitted s → I t ∧ Fitted t :=
      fun l s t act h => ⟨fine c l s t act h.1, fitted.fine c l s t act h.2⟩
    by_cases handler : cb = .nvmeCmdHandler
    · rw [handler, callback, nvmeCmdHandler_eq, Prog.run_bind] at run
      exact (made_dispatch P c).acts.run guard closed ⟨handled c s hs, fitted.handled c s fit⟩ run
    · exact (made_callback P c handler d.localAddr).acts.run guard closed ⟨hs, fit⟩ run
  · cases run
    exact ⟨hs, fit⟩

/-- A property of the state and of the channels' stages that the handler keeps: servicing a channel
that has been taken makes it steady. -/
structure Serves (P : Platform) (J : (Chan → Channel.Stage) → Fw → Prop) : Prop where
  nonempty : ∀ k ch s, k ch = .taken → J k s → (s.ch ch).fifo ≠ []
  served : ∀ k ch s d rest u, k ch = .taken → (s.ch ch).fifo = d :: rest → J k s →
    (runCallback (callback P) d).run (s.get ch) = some ((), u) →
    J (Function.update k ch .steady) ((u.release d).restart ch)

theorem Serves.one {J : (Chan → Channel.Stage) → Fw → Prop} (h : Serves P J) {k : Chan → Channel.Stage} {ch : Chan} {b : Bool} {s t : Fw}
    (stage : k ch = if b then .taken else .steady) (serviced : Serviced P ch b s t) (hs : J k s) :
    J (Function.update k ch .steady) t := by
  cases serviced with
  | nothing =>
    rwa [show Function.update k ch .steady = k from Function.update_eq_self_iff.mpr stage.symm]
  | spurious empty => exact absurd empty (h.nonempty k ch s stage hs)
  | called fifo run => exact h.served k ch s _ _ _ stage fifo hs run

theorem Serves.irq {J : (Chan → Channel.Stage) → Fw → Prop} (h : Serves P J) {s t : Fw} (start : J s.stages s.takeBoth)
    (run : (nvmeDmaIrqHandler (callback P)).run s = some ((), t)) : J (fun _ => .steady) t := by
  obtain ⟨u, rx, tx⟩ := run_nvmeDmaIrqHandler run
  have first := h.one (k := s.stages) rfl rx start
  have second := h.one (k := Function.update s.stages .rx .steady) rfl tx first
  have steady : Function.update (Function.update s.stages .rx .steady) .tx .steady = fun _ => .steady := by
    funext ch
    cases ch <;> rfl
  rwa [steady] at second

/-- Whatever happens between interrupts of the DMA engine keeps `I`, and so does such an interrupt
as a whole. -/
structure Holds (P : Platform) (I : Fw → Prop) : Prop where
  fine : ∀ c l s t, FineAct P c l s t → I s → I t
  tc : ∀ l s t, TcAct l s t → I s → I t
  fetch : ∀ l s t, FetchAct P l s t → I s → I t
  outside : ∀ s t, Outside P s t → I s → I t
  dma : ∀ s t, Fitted s → I s → (nvmeDmaIrqHandler (callback P)).run s = some ((), t) → I t

theorem Holds.tcIrq {I : Fw → Prop} (h : Holds P I) {s t : Fw} (fit : Fitted s)
    (run : (nvmeTcIrqHandler P).run s = some ((), t)) (hs : I s) : I t := by
  have fitted := fitted_closed (P := P)
  refine (Prog.Over.run (I := fun s => I s ∧ Fitted s) (made_nvmeTcIrqHandler P) (fun _ h => h.2)
    (fun l s t act hs => ⟨h.tc l s t act hs.1, fitted.tc l s t act hs.2⟩) ?_ ⟨hs, fit⟩ run).1
  rintro _ u v ⟨q, rfl⟩ fetch hu
  exact (acts_nvmeTcFetch P q).run (I := fun s => I s ∧ Fitted s) (fun _ h => h.2)
    (fun l s t act hs => ⟨h.fetch l s t act hs.1, fitted.fetch l s t act hs.2⟩) hu fetch

theorem Holds.step {I : Fw → Prop} (h : Holds P I) {S T : Sys} {e : Event} (step : S.step P e = some T)
    (sound : S.Sound P) (hs : I S.fw) : I T.fw := by
  rcases Sys.step_cases step with ⟨fw, env, rfl⟩ | ⟨i, withData, -, start⟩ | ⟨-, poll⟩
  · cases e with
    | hostWrite reg value =>
      cases env
      exact h.outside _ _ (.hostWrite reg value S.fw) hs
    | hostStore addr bytes =>
      cases env
      exact h.outside _ _ (.hostStore addr bytes S.fw) hs
    | apuStore addr bytes =>
      cases env
      exact h.outside _ _ (.apuStore addr bytes S.fw) hs
    | dmaDone ch => exact h.outside _ _ (.done env) hs
    | tcIrq =>
      obtain ⟨⟨⟨⟩, _⟩, run, rfl⟩ := Option.map_eq_some_iff.mp env
      exact h.tcIrq sound.fitted run hs
    | dmaIrq =>
      obtain ⟨⟨⟨⟩, _⟩, run, rfl⟩ := Option.map_eq_some_iff.mp env
      exact h.dma _ _ sound.fitted hs run
    | reply i withData => cases env
    | poll => cases env
  · rw [(Sys.startCall_acts start).2]
    exact h.outside _ _ (.reply i S.fw) hs
  · obtain ⟨call, l, f, k, e, rest, fw, -⟩ := Sys.pollStep_act poll
    have acts := sound.acts call e
    rw [rest] at acts
    rw [fw]
    exact h.fine _ _ _ _ (acts S.fw sound.fitted).1 hs

theorem Run.holds {I : Fw → Prop} (h : Holds P I) {ok : Sys → Event → Prop} {host ram : Nat → UInt8} {S : Sys}
    (run : Run P ok (Sys.boot host ram) S) (hs : I (Sys.boot host ram).fw) : I S.fw := by
  induction run with
  | refl => exact hs
  | step e before _ next ih => exact h.step next before.sound ih

/-- What an action of the command code leaves in the trace, submissions apart. -/
def Obs.Plain : Obs → Prop
  | .skipped _ | .cmdAlloc .. | .handled .. | .queued .. | .finished .. | .called .. | .descFree _ => False
  | _ => True

inductive Effect (c : Slot) (s t : Fw) : Prop where
  | none (ch : t.ch = s.ch) (trace : t.trace = s.trace)
  | note (o : Obs) (ch : t.ch = s.ch) (trace : t.trace = o :: s.trace) (plain : o.Plain)
  | put (at' : Chan) (d : Desc) (owner : d.owner = c) (loc : ∀ e, d.localAddr ≠ .sqBuf e)
      (cb : ∀ e, d.callback ≠ some (.nvmeCmdHandler, e)) (ch : t.ch = (s.put at' d).ch) (trace : t.trace = .queued at' d (s.cmds d.owner) :: s.trace)

theorem FineAct.effect {c : Slot} {l : Access} {s t : Fw} (act : FineAct P c l s t) : Effect c s t := by
  cases act with
  | own act =>
    cases act with
    | put s shape =>
      cases shape with
      | list loc cb owner => exact .put _ _ owner (fun e h => by rw [loc] at h; cases h) (fun e h => by rw [cb] at h; cases h) rfl rfl
      | data loc cb owner =>
        refine .put _ _ owner (fun e h => by rw [loc] at h; cases h) (fun e h => ?_) rfl rfl
        rcases cb with none | ⟨f, ends, some'⟩
        · rw [none] at h
          cases h
        · rw [some'] at h
          cases h
          exact ends
    | noDescriptor => exact .note _ rfl rfl trivial
    | cmdFree => exact .note _ rfl rfl trivial
    | lost => exact .note _ rfl rfl trivial
    | prpAlloc => exact .note _ rfl rfl trivial
    | noPrpBuffer => exact .note _ rfl rfl trivial
    | prpFree => exact .note _ rfl rfl trivial
    | queue update =>
      cases update with
      | createSq => exact .note _ rfl rfl trivial
      | createCq => exact .note _ rfl rfl trivial
      | deleteSq => exact .none rfl rfl
      | deleteCq => exact .none rfl rfl
    | sent => exact .note _ rfl rfl trivial
    | buffer => exact .note _ rfl rfl trivial
    | poolFree => exact .note _ rfl rfl trivial
    | _ => exact .none rfl rfl
  | look => exact .none rfl rfl
  | phase => exact .none rfl rfl
  | tail => exact .none rfl rfl
  | entry s loc cb owner =>
    exact .put _ _ owner (fun e h => by rw [loc] at h; cases h) (fun e h => by rw [cb] at h; cases h) rfl rfl

theorem TcAct.effect {l : Access} {s t : Fw} (act : TcAct l s t) : t.ch = s.ch ∧ t.trace = s.trace := by
  cases act with
  | cc =>
    unfold Fw.ccHandler
    dsimp only
    split
    · exact ⟨rfl, rfl⟩
    · split <;> exact ⟨rfl, rfl⟩
  | _ => exact ⟨rfl, rfl⟩

/-- An announced entry that got a command slot and a descriptor. -/
structure Fetched (P : Platform) (q : QId) (s : Fw) (c : Slot) (d : Desc) (t : Fw) : Prop where
  desc : d.localAddr = .sqBuf c ∧ d.callback = some (.nvmeCmdHandler, c) ∧ d.owner = c ∧ d.queue = q ∧
    d.hostAddr = (s.advanceSq q).1
  fresh : c ∉ s.cmdSlab.used
  state : ∃ slab slab' clock, slab.used = c :: s.cmdSlab.used ∧ slab'.used = d.desc :: s.descSlab.used ∧
    t = Fw.put { ((Fw.setCmd { (s.advanceSq q).2 with cmdSlab := slab } c fun _ => { qid := q }).note (.cmdAlloc c q)) with
      descSlab := slab', clock := clock } .rx d

/-- An announced entry is fetched, or passed over, or it takes a slot in vain. -/
inductive FetchOutcome (P : Platform) (q : QId) (s : Fw) : Fw → Prop where
  | fetched {c : Slot} {d : Desc} {t : Fw} (h : Fetched P q s c d t) : FetchOutcome P q s t
  | skipped (full : nvmeCmdSlabSize ≤ s.cmdSlab.used.length) :
      FetchOutcome P q s (Fw.note { (s.advanceSq q).2 with clock := s.clock + 1 } (.skipped q))
  | lost {c : Slot} {slab : Slab nvmeCmdSlabSize} {clock : Nat} (full : P.nvmeDmaSlabEntries ≤ s.descSlab.used.length)
      (fresh : c ∉ s.cmdSlab.used) (alloc : slab.used = c :: s.cmdSlab.used) :
      FetchOutcome P q s
        ((Fw.note { ((Fw.setCmd { (s.advanceSq q).2 with cmdSlab := slab } c fun _ => { qid := q }).note (.cmdAlloc c q)) with
          clock := clock } (.noDescriptor c)).note (.lost c .descriptor))

theorem kMemSlabAlloc_some {n : Nat} {s slab : Slab n} {clock i : Nat} (h : P.kMemSlabAlloc s clock = (some i, slab)) :
    i ∉ s.used ∧ slab.used = i :: s.used := by
  unfold Platform.kMemSlabAlloc at h
  split at h
  · rename_i free
    cases h
    exact ⟨(P.slabPick_free clock n s.used free).2, rfl⟩
  · cases h

theorem kMemSlabAlloc_full {n : Nat} {s slab : Slab n} {clock : Nat} (h : P.kMemSlabAlloc s clock = (none, slab)) :
    n ≤ s.used.length := by
  unfold Platform.kMemSlabAlloc at h
  split at h
  · cases h
  · omega

theorem run_nvmeTcFetch {q : QId} {s : Fw} (size : 0 < s.tc.sqSize q) :
    ∃ t, (nvmeTcFetch P q).run s = some ((), t) ∧ FetchOutcome P q s t := by
  have addr : (nvmeTcGetSqAddr q).run s = some (s.advanceSq q) := by
    simp [nvmeTcGetSqAddr, Prog.run_bind, Nat.pos_iff_ne_zero.mp size]
  simp only [nvmeTcFetch, Prog.run_bind, addr, Option.bind_some, Prog.run_swap]
  rcases alloc : P.kMemSlabAlloc (s.advanceSq q).2.cmdSlab (s.advanceSq q).2.clock with ⟨_ | c, slab⟩
  · have same := kMemSlabAlloc_none P alloc
    simp only [Prog.run_pure, same]
    exact ⟨_, rfl, .skipped (kMemSlabAlloc_full alloc)⟩
  · obtain ⟨fresh, used⟩ := kMemSlabAlloc_some alloc
    simp only [Prog.run_bind, nvmeDmaXferHostToMem]
    generalize hu : Fw.note _ _ = u
    have cmd : u.cmds c = { qid := q } := by
      rw [← hu]
      exact Function.update_self ..
    rcases run_nvmeDmaXfer P .rx 0xAA (s.advanceSq q).1 (.sqBuf c) nvmeTcSqEntrySize (some (.nvmeCmdHandler, c)) c u with
      ⟨block, slab', run, -, used'⟩ | ⟨run, full⟩
    · rw [run]
      refine ⟨_, rfl, .fetched (c := c) (d := ⟨some (.nvmeCmdHandler, c), (s.advanceSq q).1, .sqBuf c,
        nvmeTcSqEntrySize, 0xAA, block, c, (u.cmds c).qid⟩) ⟨⟨rfl, rfl, rfl, by rw [cmd], rfl⟩, fresh, slab, slab',
        u.clock + 1, used, ?_, ?_⟩⟩
      · rw [used', ← hu]
        rfl
      · rw [← hu]
        rfl
    · rw [run]
      rw [← hu] at full ⊢
      exact ⟨_, rfl, .lost full fresh used⟩

theorem run_nvmeTcFetch_stuck {q : QId} {s : Fw} (size : s.tc.sqSize q = 0) : (nvmeTcFetch P q).run s = none := by
  simp [nvmeTcFetch, nvmeTcGetSqAddr, Prog.run_bind, size]

end
end AlkaliFw
