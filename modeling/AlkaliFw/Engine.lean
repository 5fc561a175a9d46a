import AlkaliFw.Channels
import AlkaliFw.Board

/-! The DMA engine over whole runs. A history lists, newest first, the descriptors that were
queued, moved by the hardware, and taken off the FIFO for their callbacks; each of the three
lags behind the one before it, and none overtakes. -/

namespace AlkaliFw
open Resumption

namespace Obs

def queued? (ch : Chan) : Obs → Option Desc
  | .queued c d _ => if c = ch then some d else none
  | _ => none

def finished? (ch : Chan) : Obs → Option Desc
  | .finished c d => if c = ch then some d else none
  | _ => none

def called? (ch : Chan) : Obs → Option Desc
  | .called c d => if c = ch then some d else none
  | _ => none

/-- Callbacks of either channel. -/
def ran? : Obs → Option Desc
  | .called _ d => some d
  | _ => none

def freed? : Obs → Option Nat
  | .descFree b => some b
  | _ => none

/-- Not an event of the DMA engine. -/
def Silent (o : Obs) : Prop :=
  (∀ ch, o.queued? ch = none ∧ o.finished? ch = none ∧ o.called? ch = none) ∧ o.ran? = none ∧ o.freed? = none

end Obs

/-- Transfers finish in the order in which they were queued; a callback runs after its own
transfer has finished, and in the same order. -/
def InOrder (ch : Chan) (tr : List Obs) : Prop :=
  ∀ d old,
    (.finished ch d :: old <:+ tr →
      ∃ later, old.filterMap (Obs.queued? ch) = later ++ d :: old.filterMap (Obs.finished? ch)) ∧
    (.called ch d :: old <:+ tr → old.filterMap (Obs.finished? ch) = d :: old.filterMap (Obs.called? ch))

/-- A channel between steps. -/
structure DmaOk (s : Fw) (ch : Chan) : Prop where
  running : (s.ch ch).running = true ↔ (s.ch ch).fifo ≠ []
  hardware : ∀ d rest, (s.ch ch).fifo = d :: rest →
    (s.ch ch).programmed = some d ∧ (s.ch ch).valid = false ∧
      s.trace.filterMap (Obs.finished? ch) = s.trace.filterMap (Obs.called? ch) ∨
    (s.ch ch).programmed = none ∧ (s.ch ch).valid = true ∧
      s.trace.filterMap (Obs.finished? ch) = d :: s.trace.filterMap (Obs.called? ch)
  idle : (s.ch ch).fifo = [] → (s.ch ch).programmed = none ∧ (s.ch ch).valid = false ∧
    s.trace.filterMap (Obs.finished? ch) = s.trace.filterMap (Obs.called? ch)
  queued : s.trace.filterMap (Obs.queued? ch) = (s.ch ch).fifo.reverse ++ s.trace.filterMap (Obs.called? ch)
  inOrder : InOrder ch s.trace

theorem inOrder_cons {ch : Chan} {o : Obs} {tr : List Obs} (h : InOrder ch tr)
    (finished : ∀ d, o = .finished ch d →
      ∃ later, tr.filterMap (Obs.queued? ch) = later ++ d :: tr.filterMap (Obs.finished? ch))
    (called : ∀ d, o = .called ch d → tr.filterMap (Obs.finished? ch) = d :: tr.filterMap (Obs.called? ch)) :
    InOrder ch (o :: tr) := by
  intro d old
  constructor
  · intro suffix
    rcases List.suffix_cons_iff.mp suffix with here | later
    · cases here
      exact finished d rfl
    · exact (h d old).1 later
  · intro suffix
    rcases List.suffix_cons_iff.mp suffix with here | later
    · cases here
      exact called d rfl
    · exact (h d old).2 later

/-- A channel in any stage of the interrupt handler. -/
structure Tracked (k : Channel.Stage) (ch : Chan) (s : Fw) : Prop where
  phase : ∃ left, (s.ch ch).Phase k left ∧
    s.trace.filterMap (Obs.queued? ch) = left.reverse ++ s.trace.filterMap (Obs.finished? ch)
  queued : s.trace.filterMap (Obs.queued? ch) = (s.ch ch).fifo.reverse ++ s.trace.filterMap (Obs.called? ch)
  inOrder : InOrder ch s.trace

/-- What a step outside of the engine does to the channels. -/
inductive Beside (s t : Fw) : Prop where
  | same (ch : t.ch = s.ch) (trace : t.trace = s.trace)
  | note (o : Obs) (ch : t.ch = s.ch) (trace : t.trace = o :: s.trace) (silent : o.Silent)
  | put (at' : Chan) (d : Desc) (p : NvmeCmdPriv) (ch : t.ch = (s.put at' d).ch)
      (trace : t.trace = .queued at' d p :: s.trace)

theorem Effect.beside {c : Slot} {s t : Fw} (h : Effect c s t) : Beside s t := by
  cases h with
  | none ch trace => exact .same ch trace
  | note o ch trace plain =>
    refine .note o ch trace ?_
    cases o <;> first | exact plain.elim | exact ⟨fun _ => ⟨rfl, rfl, rfl⟩, rfl, rfl⟩
  | put at' d _ _ _ ch trace => exact .put at' d _ ch trace

theorem FetchAct.beside {P : Platform} {l : Access} {s t : Fw} (act : FetchAct P l s t) : Beside s t := by
  cases act with
  | look => exact .same rfl rfl
  | advance => exact .same rfl rfl
  | cmdAlloc => exact .note _ rfl rfl ⟨fun _ => ⟨rfl, rfl, rfl⟩, rfl, rfl⟩
  | skipped => exact .note _ rfl rfl ⟨fun _ => ⟨rfl, rfl, rfl⟩, rfl, rfl⟩
  | fill => exact .same rfl rfl
  | noDescriptor => exact .note _ rfl rfl ⟨fun _ => ⟨rfl, rfl, rfl⟩, rfl, rfl⟩
  | fetch => exact .put _ _ _ rfl rfl
  | lost => exact .note _ rfl rfl ⟨fun _ => ⟨rfl, rfl, rfl⟩, rfl, rfl⟩

namespace Tracked

variable {k : Channel.Stage} {ch : Chan} {s t : Fw}

theorem congr (h : Tracked k ch s) (same : t.ch ch = s.ch ch) (trace : t.trace = s.trace) : Tracked k ch t := by
  obtain ⟨phase, queued, inOrder⟩ := h
  refine ⟨?_, ?_, ?_⟩
  · rwa [same, trace]
  · rwa [same, trace]
  · rwa [trace]

theorem note (h : Tracked k ch s) {o : Obs} (same : t.ch ch = s.ch ch) (trace : t.trace = o :: s.trace)
    (silent : o.queued? ch = none ∧ o.finished? ch = none ∧ o.called? ch = none) : Tracked k ch t := by
  obtain ⟨left, phase, moved⟩ := h.phase
  obtain ⟨q, f, c⟩ := silent
  refine ⟨⟨left, ?_, ?_⟩, ?_, ?_⟩
  · rwa [same]
  · rwa [trace, List.filterMap_cons_none q, List.filterMap_cons_none f]
  · rw [same, trace, List.filterMap_cons_none q, List.filterMap_cons_none c]
    exact h.queued
  · rw [trace]
    refine inOrder_cons h.inOrder (fun d e => ?_) fun d e => ?_
    · rw [e] at f
      simp [Obs.finished?] at f
    · rw [e] at c
      simp [Obs.called?] at c

theorem put {d : Desc} {p : NvmeCmdPriv} (h : Tracked k ch s) (same : t.ch ch = (s.put ch d).ch ch)
    (trace : t.trace = .queued ch d p :: s.trace) : Tracked k ch t := by
  obtain ⟨left, phase, moved⟩ := h.phase
  have queued : (Obs.queued ch d p).queued? ch = some d := if_pos rfl
  refine ⟨⟨left ++ [d], ?_, ?_⟩, ?_, ?_⟩
  · rw [same, Fw.put_ch_self]
    exact phase.put d
  · rw [trace, List.filterMap_cons_some queued, List.filterMap_cons_none rfl, moved]
    simp
  · rw [same, trace, List.filterMap_cons_some queued, List.filterMap_cons_none rfl, Fw.put_ch_self, h.queued]
    simp
  · rw [trace]
    exact inOrder_cons h.inOrder (fun _ e => nomatch e) fun _ e => nomatch e

theorem beside (h : Tracked k ch s) (step : Beside s t) : Tracked k ch t := by
  cases step with
  | same same trace => exact h.congr (congrFun same ch) trace
  | note o same trace silent => exact h.note (congrFun same ch) trace (silent.1 ch)
  | put at' d p same trace =>
    by_cases here : at' = ch
    · subst here
      exact h.put (congrFun same _) trace
    · refine h.note ?_ trace ⟨if_neg here, rfl, rfl⟩
      rw [same]
      exact Fw.put_ch_of_ne s d (Ne.symm here)

/-- Between two steps the history says which descriptors the FIFO holds. -/
theorem dmaOk (h : Tracked .steady ch s) : DmaOk s ch := by
  obtain ⟨left, phase, moved⟩ := h.phase
  have queued := h.queued
  rw [moved] at queued
  generalize hc : s.ch ch = c at phase queued
  cases phase with
  | idle =>
    have same : s.trace.filterMap (Obs.finished? ch) = s.trace.filterMap (Obs.called? ch) := by simpa using queued
    refine ⟨?_, fun d rest e => ?_, fun _ => ?_, h.queued, h.inOrder⟩
    · simp [hc]
    · simp [hc] at e
    · simpa [hc] using same
  | busy d rest =>
    have same : s.trace.filterMap (Obs.finished? ch) = s.trace.filterMap (Obs.called? ch) := by simpa using queued
    refine ⟨?_, fun d' rest' e => .inl ?_, fun e => ?_, h.queued, h.inOrder⟩
    · simp [hc]
    · rw [hc] at e
      cases e
      simpa [hc] using same
    · simp [hc] at e
  | done d rest =>
    have ahead : s.trace.filterMap (Obs.finished? ch) = d :: s.trace.filterMap (Obs.called? ch) := by simpa using queued
    refine ⟨?_, fun d' rest' e => .inr ?_, fun e => ?_, h.queued, h.inOrder⟩
    · simp [hc]
    · rw [hc] at e
      cases e
      simpa [hc] using ahead
    · simp [hc] at e

theorem take (h : Tracked .steady ch s) : Tracked (s.stages ch) ch s.takeBoth := by
  obtain ⟨left, phase, moved⟩ := h.phase
  have same : s.takeBoth.ch ch = { s.ch ch with valid := false } := by cases ch <;> rfl
  have next := phase.take
  refine ⟨⟨left, ?_, moved⟩, ?_, h.inOrder⟩
  · rw [same, Fw.stages]
    split at next
    · rwa [if_pos ‹_›]
    · rwa [if_neg ‹_›]
  · rw [same]
    exact h.queued

theorem get {d : Desc} {rest : List Desc} (h : Tracked .taken ch s) (fifo : (s.ch ch).fifo = d :: rest) :
    Tracked .popped ch (s.get ch) := by
  obtain ⟨left, phase, moved⟩ := h.phase
  have state : s.get ch = (s.setCh ch fun c => { c with fifo := rest }).note (.called ch d) := by
    unfold Fw.get
    rw [fifo]
  have here : (s.get ch).ch ch = { s.ch ch with fifo := rest } := by
    rw [state]
    exact Function.update_self ..
  have trace : (s.get ch).trace = .called ch d :: s.trace := by
    rw [state]
    rfl
  obtain ⟨d', fifo', popped⟩ := phase.get
  obtain ⟨rfl, rfl⟩ := List.cons.inj (fifo.symm.trans fifo')
  have called : (Obs.called ch d).called? ch = some d := if_pos rfl
  have queued := h.queued
  rw [fifo, List.reverse_cons, List.append_assoc] at queued
  have ahead : s.trace.filterMap (Obs.finished? ch) = d :: s.trace.filterMap (Obs.called? ch) :=
    List.append_cancel_left (moved.symm.trans queued)
  refine ⟨⟨rest, ?_, ?_⟩, ?_, ?_⟩
  · rwa [here]
  · rwa [trace]
  · rw [here, trace, List.filterMap_cons_some called]
    exact queued
  · rw [trace]
    exact inOrder_cons h.inOrder (fun _ e => nomatch e) fun _ e => by cases e; exact ahead

theorem release (h : Tracked k ch s) (d : Desc) : Tracked k ch (s.release d) :=
  h.note rfl rfl ⟨rfl, rfl, rfl⟩

theorem restart (h : Tracked .popped ch s) : Tracked .steady ch (s.restart ch) := by
  obtain ⟨left, phase, moved⟩ := h.phase
  refine ⟨⟨left, ?_, moved⟩, ?_, h.inOrder⟩
  · simp only [Fw.restart, Fw.setCh, Function.update_self]
    exact phase.restart
  · rw [fifo_restart]
    exact h.queued

theorem finish {P : Platform} {ch' : Chan} (h : Tracked .steady ch s) (finish : s.finish P ch' = some t) :
    Tracked .steady ch t := by
  obtain ⟨d, done⟩ := Fw.finished_of_finish finish
  by_cases here : ch = ch'
  · subst here
    obtain ⟨left, phase, moved⟩ := h.phase
    obtain ⟨rest, rfl, fifo, next⟩ := phase.finish done.programmed
    have finished : (Obs.finished ch d).finished? ch = some d := if_pos rfl
    rw [List.reverse_cons, List.append_assoc] at moved
    refine ⟨⟨rest, ?_, ?_⟩, ?_, ?_⟩
    · rwa [done.ch_self]
    · rw [done.trace, List.filterMap_cons_some finished]
      exact moved
    · rw [done.trace, done.ch_self]
      exact h.queued
    · rw [done.trace]
      exact inOrder_cons h.inOrder (fun _ e => by cases e; exact ⟨_, moved⟩) fun _ e => nomatch e
  · exact h.note (done.ch_of_ne here) done.trace ⟨rfl, if_neg (Ne.symm here), rfl⟩

end Tracked

/-- Every callback that ran has given its descriptor back, but for those of `held`. -/
def Freed (held : List Desc) (s : Fw) : Prop :=
  (s.trace.filterMap Obs.ran?).map (·.desc) = held.map (·.desc) ++ s.trace.filterMap Obs.freed?

theorem Freed.beside {held : List Desc} {s t : Fw} (h : Freed held s) (step : Beside s t) : Freed held t := by
  unfold Freed
  cases step with
  | same _ trace =>
    rw [trace]
    exact h
  | note o _ trace silent =>
    rw [trace, List.filterMap_cons_none silent.2.1, List.filterMap_cons_none silent.2.2]
    exact h
  | put at' d p _ trace =>
    rw [trace, List.filterMap_cons_none rfl, List.filterMap_cons_none rfl]
    exact h

/-- The channels in the middle of the interrupt handler. -/
structure Engine (held : List Desc) (k : Chan → Channel.Stage) (s : Fw) : Prop where
  fitted : Fitted s
  tracked : ∀ ch, Tracked (k ch) ch s
  freed : Freed held s

section

variable {P : Platform}

theorem handled_beside (c : Slot) (s : Fw) : Beside s (s.handled c) :=
  .note _ rfl rfl ⟨fun _ => ⟨rfl, rfl, rfl⟩, rfl, rfl⟩

/-- The callback of a descriptor may queue transfers on either channel. -/
theorem Engine.called {held : List Desc} {k : Chan → Channel.Stage} {d : Desc} {s t : Fw} (h : Engine held k s)
    (run : (runCallback (callback P) d).run s = some ((), t)) : Engine held k t := by
  have keeps (u v : Fw) (step : Beside u v) (hu : (∀ ch, Tracked (k ch) ch u) ∧ Freed held u) :
      (∀ ch, Tracked (k ch) ch v) ∧ Freed held v :=
    ⟨fun ch => (hu.1 ch).beside step, hu.2.beside step⟩
  obtain ⟨⟨tracked, freed⟩, fitted⟩ := runCallback_keeps (fun c l u v act => keeps u v act.effect.beside)
    (fun c u => keeps u _ (handled_beside c u)) run h.fitted ⟨h.tracked, h.freed⟩
  exact ⟨fitted, tracked, freed⟩

theorem Engine.get {k : Chan → Channel.Stage} {ch : Chan} {s : Fw} {d : Desc} {rest : List Desc} (h : Engine [] k s)
    (taken : k ch = .taken) (fifo : (s.ch ch).fifo = d :: rest) :
    Engine [d] (Function.update k ch .popped) (s.get ch) := by
  have state : s.get ch = (s.setCh ch fun c => { c with fifo := rest }).note (.called ch d) := by
    unfold Fw.get
    rw [fifo]
  refine ⟨fun c => by rw [Fw.get_cmds]; exact h.fitted c, fun ch' => ?_, ?_⟩
  · by_cases here : ch' = ch
    · subst here
      rw [Function.update_self]
      have tracked := h.tracked ch'
      rw [taken] at tracked
      exact tracked.get fifo
    · rw [Function.update_of_ne here, state]
      exact (h.tracked ch').note (Function.update_of_ne here ..) rfl ⟨rfl, rfl, if_neg (Ne.symm here)⟩
  · have ran : (Obs.called ch d).ran? = some d := rfl
    unfold Freed
    rw [state, Fw.note, List.filterMap_cons_some ran, List.filterMap_cons_none rfl, List.map_cons]
    exact congrArg (d.desc :: ·) h.freed

theorem Engine.restart {k : Chan → Channel.Stage} {ch : Chan} {s : Fw} {d : Desc} (h : Engine [d] k s)
    (popped : k ch = .popped) : Engine [] (Function.update k ch .steady) ((s.release d).restart ch) := by
  refine ⟨h.fitted, fun ch' => ?_, ?_⟩
  · by_cases here : ch' = ch
    · subst here
      rw [Function.update_self]
      have tracked := h.tracked ch'
      rw [popped] at tracked
      exact (tracked.release d).restart
    · rw [Function.update_of_ne here]
      exact ((h.tracked ch').release d).congr (Function.update_of_ne here ..) rfl
  · have freed : (Obs.descFree d.desc).freed? = some d.desc := rfl
    change (((Obs.descFree d.desc) :: s.trace).filterMap Obs.ran?).map (·.desc) =
      ((Obs.descFree d.desc) :: s.trace).filterMap Obs.freed?
    rw [List.filterMap_cons_none rfl, List.filterMap_cons_some freed]
    exact h.freed

theorem engine_serves : Serves P (Engine []) where
  nonempty k ch s taken h := by
    obtain ⟨left, phase, -⟩ := (h.tracked ch).phase
    rw [taken] at phase
    obtain ⟨d, fifo, -⟩ := phase.get
    simp [fifo]
  served k ch s d rest u taken fifo h run := by
    have steady := ((h.get taken fifo).called run).restart (Function.update_self ..)
    rwa [Function.update_idem] at steady

theorem engine_holds : Holds P fun s => (∀ ch, Tracked .steady ch s) ∧ Freed [] s where
  fine c l s t act h := ⟨fun ch => (h.1 ch).beside act.effect.beside, h.2.beside act.effect.beside⟩
  tc l s t act h := by
    have step : Beside s t := .same act.effect.1 act.effect.2
    exact ⟨fun ch => (h.1 ch).beside step, h.2.beside step⟩
  fetch l s t act h := ⟨fun ch => (h.1 ch).beside act.beside, h.2.beside act.beside⟩
  outside s t act h := by
    cases act with
    | done finish =>
      obtain ⟨d, done⟩ := Fw.finished_of_finish finish
      refine ⟨fun ch => (h.1 ch).finish finish, ?_⟩
      unfold Freed
      rw [done.trace, List.filterMap_cons_none rfl, List.filterMap_cons_none rfl]
      exact h.2
    | _ => exact ⟨fun ch => (h.1 ch).congr rfl rfl, h.2⟩
  dma s t fit h run := by
    have start : Engine [] s.stages s.takeBoth :=
      ⟨fit, fun ch => (h.1 ch).take, h.2⟩
    have served := engine_serves.irq start run
    exact ⟨served.tracked, served.freed⟩

end

theorem Run.engine {P : Platform} {ok : Sys → Event → Prop} {host ram : Nat → UInt8} {S : Sys}
    (run : Run P ok (Sys.boot host ram) S) : Engine [] (fun _ => .steady) S.fw := by
  have start : (∀ ch, Tracked .steady ch (Sys.boot host ram).fw) ∧ Freed [] (Sys.boot host ram).fw := by
    refine ⟨fun ch => ⟨⟨[], .idle, rfl⟩, rfl, fun d old => ⟨fun h => ?_, fun h => ?_⟩⟩, rfl⟩
    · exact nomatch List.suffix_nil.mp h
    · exact nomatch List.suffix_nil.mp h
  obtain ⟨tracked, freed⟩ := run.holds engine_holds start
  exact ⟨run.sound.fitted, tracked, freed⟩

end AlkaliFw
