import AlkaliFw.Carry
import AlkaliFw.Engine

/-! The standing of every command over whole runs. A step of an interrupt handler carries the
command on whose descriptor it takes off the channel, a step of the thread that of its call;
all others stand where they stood. -/

namespace AlkaliFw
open Resumption

section Heads

variable {c : Slot} {v : View} {ch ch' : Chan} {d x : Desc} {rest : List Desc}

/-- The head of a channel is plain, or the one descriptor that is waited for. -/
theorem Waits.head (w : Waits v ch' x) (queue : v.queue ch = d :: rest) :
    d.callback = none ∧ Waits (v.pop ch) ch' x ∨ d = x ∧ ch = ch' ∧ rest = [] := by
  have tail : (v.pop ch).queue ch = rest := by
    simp only [View.pop, Function.update_self, queue, List.tail_cons]
  have other {e : Chan} (h : e ≠ ch) : (v.pop ch).queue e = v.queue e := Function.update_of_ne h ..
  by_cases here : ch = ch'
  · subst here
    obtain ⟨ds, whole, plain⟩ := w.last
    rw [queue] at whole
    cases ds with
    | nil =>
      obtain ⟨rfl, rfl⟩ := List.cons.inj whole
      exact .inr ⟨rfl, rfl, rfl⟩
    | cons e ds =>
      obtain ⟨rfl, rfl⟩ := List.cons.inj whole
      refine .inl ⟨(plain d List.mem_cons_self).1, ⟨ds, tail, fun y hy => plain y (List.mem_cons_of_mem _ hy)⟩, fun e he => ?_⟩
      rw [other he]
      exact w.plain e he
  · have plain := w.plain ch here
    rw [queue] at plain
    refine .inl ⟨(plain d List.mem_cons_self).1, ?_, fun e he => ?_⟩
    · rw [other (Ne.symm here)]
      exact w.last
    · by_cases same : e = ch
      · subst same
        rw [tail]
        exact fun y hy => plain y (List.mem_cons_of_mem _ hy)
      · rw [other same]
        exact w.plain e he

theorem Plain.tail {ds : List Desc} (h : Plain ds) : Plain ds.tail := fun d hd => h d (List.mem_of_mem_tail hd)

/-- Once the descriptor that is waited for is gone, only plain ones are left. -/
theorem Waits.popped (w : Waits v ch x) (queue : v.queue ch = [x]) : ∀ e, Plain ((v.pop ch).queue e) := by
  intro e
  by_cases same : e = ch
  · subst same
    simp only [View.pop, Function.update_self, queue, List.tail_cons]
    exact List.forall_mem_nil _
  · simp only [View.pop, Function.update_of_ne same]
    exact w.plain e same

theorem mem_pop {e : Chan} (h : x ∈ (v.pop ch).queue e) : x ∈ v.queue e := by
  by_cases same : e = ch
  · subst same
    simp only [View.pop, Function.update_self] at h
    exact List.mem_of_mem_tail h
  · simpa only [View.pop, Function.update_of_ne same] using h

theorem pop_nil {e : Chan} (h : v.queue e = []) : (v.pop ch).queue e = [] :=
  List.eq_nil_iff_forall_not_mem.mpr fun x hx => by simpa [h] using mem_pop hx

theorem Owing.pop {p : NvmeCmdPriv} {h : List Obs} {k : Chan → Prop} (w : Owing p h k v) (ch : Chan) : Owing p h k (v.pop ch) :=
  ⟨w.held, w.priv, w.past, w.live, w.requests, fun e d hd => w.plain e d (mem_pop hd), fun e empty => pop_nil (w.empty e empty)⟩

/-- What a callback starts from: the stage that it ends. -/
inductive Due (P : Platform) (c : Slot) (v : View) : Cb → Prop where
  | handler (w : Owing v.priv v.past (fun _ => True) v) (fit : v.priv.Fit) (xferCb : v.priv.xferCb = none)
      (parts : ∀ ch, parts ch v.past = []) (before : milestones v.past = [.taken])
      (block : v.priv.block = {} ∧ grants v.past = []) : Due P c v .nvmeCmdHandler
  | list (w : Owing v.priv v.past (· ≠ v.priv.dir.chan) v) (task : Task P c v.priv v.past) (left : 0 < v.priv.xferLen)
      (xferCb : v.priv.xferCb ≠ none) (moving : Moving c v.priv v.past) : Due P c v .prpCb
  | ending {f : Cb} (w : Owing v.priv v.past (fun _ => True) v) (task : Task P c v.priv v.past) (xferCb : v.priv.xferCb = some f)
      (moved : AllMoved c v.priv v.past) : Due P c v f
  | posted (d : Desc) (w : Owing v.priv v.past (· = .tx) v) (posted : milestones v.past = [.posted d, .taken]) : Due P c v .cqCb

theorem Standing.head (h : Standing P c v) (queue : v.queue ch = d :: rest) :
    d.callback = none ∧ Standing P c (v.pop ch) ∨ ∃ f, d.callback = some (f, c) ∧ Due P c (v.pop ch) f := by
  have last : (v.pop ch).queue ch = rest := by
    simp only [View.pop, Function.update_self, queue, List.tail_cons]
  cases h with
  | free held requests rx tx ended =>
    have here : ch = .rx := by
      cases ch with
      | rx => rfl
      | tx =>
        rw [tx] at queue
        cases queue
    subst here
    exact .inl ⟨(rx d (by simp [queue])).1, .free held requests (fun x hx => rx x (mem_pop hx)) (pop_nil tx) ended⟩
  | fetched x held requests waits tx cb loc fit xferCb parts before block =>
    rcases waits.head queue with ⟨plain, waits⟩ | ⟨rfl, rfl, rfl⟩
    · exact .inl ⟨plain, .fetched x held requests waits (pop_nil tx) cb loc fit xferCb parts before block⟩
    · refine .inr ⟨_, cb, .handler ⟨held, rfl, rfl, .inl before, requests, waits.popped queue, fun e _ => ?_⟩ fit xferCb parts before block⟩
      cases e with
      | rx => exact last
      | tx => exact pop_nil tx
  | listing x held requests waits cb loc beside task left xferCb moving =>
    rcases waits.head queue with ⟨plain, waits⟩ | ⟨rfl, rfl, rfl⟩
    · exact .inl ⟨plain, .listing x held requests waits cb loc (fun e other y hy => beside e other y (mem_pop hy)) task left
        xferCb moving⟩
    · refine .inr ⟨_, cb, .list ⟨held, rfl, rfl, .inl task.before, requests, waits.popped queue, fun e other => ?_⟩ task left xferCb moving⟩
      refine List.eq_nil_iff_forall_not_mem.mpr fun y hy => ?_
      have none := (waits.popped queue e y hy).1
      rw [beside e other y (mem_pop hy), cb] at none
      cases none
  | ending x f held requests waits cb loc beside task xferCb moved =>
    rcases waits.head queue with ⟨plain, waits⟩ | ⟨rfl, here, rfl⟩
    · exact .inl ⟨plain, .ending x f held requests waits cb loc (fun e other => pop_nil (beside e other)) task xferCb moved⟩
    · refine .inr ⟨_, cb, .ending ⟨held, rfl, rfl, .inl task.before, requests, (here ▸ waits).popped queue, fun e _ => ?_⟩ task xferCb moved⟩
      by_cases same : e = ch
      · subst same
        exact last
      · exact pop_nil (beside e fun same' => same (same'.trans here.symm))
  | away m held requests empty =>
    rw [empty] at queue
    cases queue
  | posted x held requests waits entered =>
    rcases waits.head queue with ⟨plain, waits⟩ | ⟨rfl, rfl, rfl⟩
    · refine .inl ⟨plain, .posted x held requests waits { entered with settled := entered.settled.imp fun empty => ?_ }⟩
      obtain ⟨tx, rx⟩ := empty
      cases ch with
      | rx =>
        rw [rx] at queue
        cases queue
      | tx =>
        rw [tx] at queue
        obtain ⟨rfl, -⟩ := List.cons.inj queue
        rw [entered.cb] at plain
        cases plain
    · refine .inr ⟨_, entered.cb, .posted d ⟨held, rfl, rfl, .inr ⟨d, entered.milestone⟩, requests, waits.popped queue, fun e tx => ?_⟩ entered.milestone⟩
      subst tx
      exact last
  | lost why held requests plain lost =>
    exact .inl ⟨(plain ch d (by simp [queue])).1, .lost why held requests (fun e x hx => plain e x (mem_pop hx)) lost⟩

theorem Plain.not_waiting {ds : List Desc} {d : Desc} {f : Cb} (h : Plain ds) (mem : d ∈ ds) (cb : d.callback = some (f, c)) : False := by
  have none := (h d mem).1
  rw [cb] at none
  cases none

theorem Waits.callback {v : View} {ch e : Chan} {d x : Desc} {f : Cb} (w : Waits v ch x) (mem : d ∈ v.queue e)
    (cb : d.callback = some (f, c)) : d = x := by
  by_cases here : e = ch
  · subst here
    obtain ⟨ds, queue, plain⟩ := w.last
    rw [queue] at mem
    rcases List.mem_append.mp mem with old | new
    · exact (plain.not_waiting old cb).elim
    · exact List.mem_singleton.mp new
  · exact ((w.plain e here).not_waiting mem cb).elim

/-- Only a command whose entry was submitted waits for `cq_cb`. -/
theorem Standing.entered {v : View} {d : Desc} {ch : Chan} (h : Standing P c v) (mem : d ∈ v.queue ch)
    (cb : d.callback = some (.cqCb, c)) : Entered P c d v.priv v.past (v.queue .tx = [d] ∧ v.queue .rx = []) := by
  have other {x : Desc} {f : Cb} (same : d = x) (cbx : x.callback = some (f, c)) (ne : f ≠ .cqCb) : False := by
    rw [← same, cb] at cbx
    exact ne (Prod.mk.inj (Option.some.inj cbx)).1.symm
  cases h with
  | free held requests rx tx =>
    cases ch with
    | rx => exact (rx.not_waiting mem cb).elim
    | tx =>
      rw [tx] at mem
      cases mem
  | fetched x held requests waits tx cbx => exact (other (waits.callback mem cb) cbx nofun).elim
  | listing x held requests waits cbx => exact (other (waits.callback mem cb) cbx nofun).elim
  | ending x f held requests waits cbx loc beside task xferCb =>
    refine (other (waits.callback mem cb) cbx ?_).elim
    rintro rfl
    exact task.fit.cb _ xferCb
  | away m held requests empty =>
    rw [empty] at mem
    cases mem
  | posted x held requests waits entered =>
    obtain rfl := waits.callback mem cb
    exact entered
  | lost why held requests plain => exact ((plain ch).not_waiting mem cb).elim

/-- A command waits for one callback at most. -/
theorem Standing.one {v : View} {d x : Desc} {ch ch' : Chan} {f g : Cb} (h : Standing P c v) (mem : d ∈ v.queue ch)
    (cb : d.callback = some (f, c)) (mem' : x ∈ v.queue ch') (cb' : x.callback = some (g, c)) : d = x := by
  cases h with
  | free held requests rx tx =>
    cases ch with
    | rx => exact (rx.not_waiting mem cb).elim
    | tx =>
      rw [tx] at mem
      cases mem
  | fetched y held requests waits => exact (waits.callback mem cb).trans (waits.callback mem' cb').symm
  | listing y held requests waits => exact (waits.callback mem cb).trans (waits.callback mem' cb').symm
  | ending y f held requests waits => exact (waits.callback mem cb).trans (waits.callback mem' cb').symm
  | away m held requests empty =>
    rw [empty] at mem
    cases mem
  | posted y held requests waits => exact (waits.callback mem cb).trans (waits.callback mem' cb').symm
  | lost why held requests plain => exact ((plain ch).not_waiting mem cb).elim

end Heads

section Callbacks

variable {P : Platform} {c : Slot} {F : Cb → Prop} {s t : Fw}

/-- Code that runs without interruption. -/
theorem returns {α : Type} {p : Code α} {Q : α → Fw → Prop} {a : α} (h : Carries P c F Q p s) (run : p.run s = some (a, t)) :
    Q a t := by
  have quiet : p.Safe Prog.Quiet (fun _ _ => True) Q s :=
    Prog.Safe.weaken h (fun _ s t e => e ▸ Leaves.refl c F s) fun _ _ _ => trivial
  exact (Prog.safe_quiet_iff p s).mp quiet a t run

/-- A callback leaves its command standing, and what was handed on stays handed on. -/
theorem Due.runs {f : Cb} {loc : Local} (due : Due P c (s.view c) f) (run : (callback P f c loc).run s = some ((), t)) :
    Standing P c (t.view c) ∧ (f = .cqCb ∨ f = .rpmsgCmdReturnCb → ∀ g, Gone P c g (s.view c).priv.xferLen (t.view c)) := by
  let all : Cb → Prop := fun _ => True
  cases due with
  | handler w fit xferCb parts before block =>
    refine ⟨?_, fun h => by simp at h⟩
    exact returns (F := all) (Q := fun _ t => Standing P c (t.view c))
      (carries_nvmeCmdHandler P (fun _ => trivial) w fit xferCb parts before block fun _ h => h) run
  | list w task left xferCb moving =>
    refine ⟨?_, fun h => by simp at h⟩
    obtain ⟨f, hf⟩ := Option.ne_none_iff_exists'.mp xferCb
    exact returns (F := all) (Q := fun _ t => Standing P c (t.view c)) (carries_prpCb P trivial w task left hf moving fun _ h => h) run
  | ending w task xferCb moved =>
    have ends := task.fit.cb f xferCb
    cases f with
    | nvmeCmdHandler => exact ends.elim
    | cqCb => exact ends.elim
    | prpCb => exact ends.elim
    | nvmeCmdReturnCb =>
      have gone := returns (F := all) (Q := fun _ t => ∀ g, Gone P c g (s.view c).priv.xferLen (t.view c))
        (carries_nvmeCmdReturn P w task (settled_moved P task xferCb moved nofun) fun _ h => h) run
      exact ⟨(gone .cqCb).standing, fun _ => gone⟩
    | vendorCb =>
      refine ⟨?_, fun h => by simp at h⟩
      exact returns (F := all) (Q := fun _ t => Standing P c (t.view c)) (carries_vendorCb P w task xferCb moved fun _ h => h) run
    | rpmsgCmdReturnCb =>
      have gone := returns (F := all) (Q := fun _ t => ∀ g, Gone P c g (s.view c).priv.xferLen (t.view c))
        (carries_rpmsgCmdReturnCb P w task xferCb moved fun _ h => h) run
      exact ⟨(gone .cqCb).standing, fun _ => gone⟩
  | posted d w posted =>
    have gone := returns (F := all) (Q := fun _ t => ∀ g, Gone P c g (s.view c).priv.xferLen (t.view c))
      (carries_cqCb P w posted fun _ h => h) run
    exact ⟨(gone .cqCb).standing, fun _ => gone⟩

/-- A callback for another command. -/
theorem callback_other {f : Cb} {e : Slot} {loc : Local} (h : c ≠ e) (fit : Fitted s)
    (run : (callback P f e loc).run s = some ((), t)) : t.view c = s.view c ∧ Fitted t := by
  have fitted := fitted_closed (P := P)
  have closed : ∀ l u v, FineAct P e l u v → u.view c = s.view c ∧ Fitted u → v.view c = s.view c ∧ Fitted v :=
    fun l u v act hu => ⟨(act.view_other h).trans hu.1, fitted.fine e l u v act hu.2⟩
  have guard : ∀ u : Fw, u.view c = s.view c ∧ Fitted u → Fitted u := fun _ hu => hu.2
  by_cases handler : f = .nvmeCmdHandler
  · rw [handler, callback, nvmeCmdHandler_eq, Prog.run_bind] at run
    refine (made_dispatch P e).acts.run guard closed ⟨?_, fitted.handled e s fit⟩ run
    exact (view_note_other (o := .handled e _ _) fun same => h (Option.some.inj same).symm).trans (view_setCmd_other h _)
  · exact (made_callback P e handler loc).acts.run guard closed ⟨rfl, fit⟩ run

theorem Leaves.of_view (same : t.view c = s.view c) : Leaves P c F s t :=
  ⟨fun _ _ _ w => same ▸ w, fun h => same ▸ h, fun _ _ _ g => same ▸ g⟩

theorem Leaves.between (h : Leaves P c F s t) : Between P c s → Between P c t
  | .inl ⟨p, e, k, w⟩ => .inl ⟨p, e, k, h.owing p e k w⟩
  | .inr standing => .inr (h.standing standing)

/-- What others keep of a command while its call waits: `F` holds of the callback that a reply
with data asks for, if at all. -/
def Mild (F : Cb → Prop) : Prop := ∀ f, F f → f = .rpmsgCmdReturnCb

/-- The head of a channel is taken off and its callback runs. -/
theorem leaves_served (mild : Mild F) {ch : Chan} {d : Desc} {rest : List Desc} {u : Fw} (fifo : (s.ch ch).fifo = d :: rest)
    (fit : Fitted s) (between : Between P d.owner s) (run : (runCallback (callback P) d).run (s.get ch) = some ((), u)) (c : Slot) :
    Leaves P c F s ((u.release d).restart ch) := by
  have same : ((u.release d).restart ch).view c = u.view c := (view_restart ch).trans (view_release d)
  have got : Fitted (s.get ch) := fun e => by
    rw [Fw.get_cmds]
    exact fit e
  have queue : (s.view d.owner).queue ch = d :: rest.filter (·.owner = d.owner) := by
    simp [Fw.view, fifo]
  -- a plain descriptor has no callback to run
  have plain (none : d.callback = none) : u = s.get ch := by
    simp only [runCallback, none] at run
    cases run
    rfl
  have token : d.callback = none ∨ ∃ f, d.callback = some (f, d.owner) ∧ (callback P f d.owner d.localAddr).run (s.get ch) = some ((), u) := by
    rcases between with ⟨p, h, k, w⟩ | standing
    · exact .inl (w.plain ch d (by rw [queue]; exact List.mem_cons_self)).1
    · rcases standing.head queue with ⟨none, -⟩ | ⟨f, cb, -⟩
      · exact .inl none
      · refine .inr ⟨f, cb, ?_⟩
        simpa only [runCallback, cb] using run
  by_cases here : d.owner = c
  · subst here
    have pop : (s.get ch).view d.owner = (s.view d.owner).pop ch := view_get_own fifo rfl
    refine ⟨fun p h k w => ?_, fun standing => ?_, fun f n hf gone => ?_⟩
    · rw [same, plain (w.plain ch d (by rw [queue]; exact List.mem_cons_self)).1, pop]
      exact w.pop ch
    · rw [same]
      rcases standing.head queue with ⟨none, popped⟩ | ⟨f, cb, due⟩
      · rwa [plain none, pop]
      · rw [← pop] at due
        have run' : (callback P f d.owner d.localAddr).run (s.get ch) = some ((), u) := by simpa only [runCallback, cb] using run
        exact (due.runs run').1
    · rw [same]
      rcases gone.standing.head queue with ⟨none, popped⟩ | ⟨g, cb, due⟩
      · rw [plain none, pop]
        exact ⟨popped, gone.requests, fun e x hx => gone.calm e x (mem_pop hx), gone.left⟩
      · rw [← pop] at due
        have calm := gone.calm ch d (by rw [queue]; exact List.mem_cons_self) g _ cb
        rw [mild f hf] at calm
        have run' : (callback P g d.owner d.localAddr).run (s.get ch) = some ((), u) := by simpa only [runCallback, cb] using run
        have kept := (due.runs run').2 calm.symm f
        rw [pop] at kept
        have left : ((s.view d.owner).pop ch).priv.xferLen = n := gone.left
        rwa [left] at kept
  · refine .of_view (same.trans ?_)
    rcases token with none | ⟨f, cb, run⟩
    · rw [plain none]
      exact view_get_other fifo here
    · rw [(callback_other (Ne.symm here) got run).1]
      exact view_get_other fifo here

end Callbacks

section Environment

variable {P : Platform} {F : Cb → Prop} {s t : Fw}

/-- The state inside the interrupt handler of the DMA engine. -/
structure Attending (P : Platform) (F : Cb → Prop) (start : Fw) (k : Chan → Channel.Stage) (s : Fw) : Prop where
  engine : Engine [] k s
  leaves : ∀ c, Leaves P c F start s

theorem attending_serves (mild : Mild F) {start : Fw} (between : ∀ c, Between P c start) : Serves P (Attending P F start) where
  nonempty k ch s taken h := (engine_serves (P := P)).nonempty k ch s taken h.engine
  served k ch s d rest u taken fifo h run := by
    refine ⟨engine_serves.served k ch s d rest u taken fifo h.engine run, fun c => (h.leaves c).trans ?_⟩
    exact leaves_served mild fifo h.engine.fitted ((h.leaves d.owner).between (between d.owner)) run c

theorem leaves_dmaIrq (mild : Mild F) (engine : Engine [] (fun _ => .steady) s) (between : ∀ c, Between P c s)
    (run : (nvmeDmaIrqHandler (callback P)).run s = some ((), t)) (c : Slot) : Leaves P c F s t := by
  have start : Attending P F s s.stages s.takeBoth :=
    ⟨⟨engine.fitted, fun ch => (engine.tracked ch).take, engine.freed⟩, fun c => .of_view view_takeBoth⟩
  exact ((attending_serves mild between).irq start run).leaves c

theorem Waits.mem {v : View} {ch e : Chan} {d x : Desc} (w : Waits v ch d) (h : x ∈ v.queue e) :
    x = d ∨ ∃ a, x.localAddr = .ram a := by
  by_cases here : e = ch
  · subst here
    obtain ⟨ds, queue, plain⟩ := w.last
    rw [queue] at h
    rcases List.mem_append.mp h with old | new
    · exact .inr (plain x old).2
    · exact .inl (List.mem_singleton.mp new)
  · exact .inr (w.plain e here x h).2

/-- An entry is copied into the record of the command that waits for it. -/
theorem Standing.copied {c e : Slot} {v : View} {ch : Chan} {d : Desc} (h : Standing P e v) (mem : d ∈ v.queue ch)
    (loc : d.localAddr = .sqBuf c) (b : SqBuf) : c = e ∧ Standing P e (v.setCmd fun p => { p with sqBuf := b }) ∧ v.priv.xferCb = none := by
  have other {x : Desc} {l : Local} (w : d = x ∨ ∃ a, d.localAddr = .ram a) (hl : x.localAddr = l) (ne : l ≠ .sqBuf c) : False := by
    rcases w with rfl | ⟨a, ram⟩
    · exact ne (hl.symm.trans loc)
    · rw [loc] at ram
      cases ram
  cases h with
  | free held requests rx tx =>
    have plain : Plain (v.queue ch) := by
      cases ch with
      | rx => exact rx
      | tx =>
        rw [tx]
        exact fun _ h => nomatch h
    obtain ⟨a, ram⟩ := (plain d mem).2
    rw [loc] at ram
    cases ram
  | fetched x held requests waits tx cb locx fit xferCb parts before block =>
    refine ⟨?_, .fetched x held requests ⟨waits.last, waits.plain⟩ tx cb locx ⟨fit.len, fit.cb⟩ xferCb parts before block, xferCb⟩
    by_contra ne
    exact other (waits.mem mem) locx fun same => ne (Local.sqBuf.inj same).symm
  | listing x held requests waits cb locx =>
    obtain ⟨b, locx⟩ := locx
    exact (other (waits.mem mem) locx nofun).elim
  | ending x f held requests waits cb locx =>
    obtain ⟨a, locx⟩ := locx
    exact (other (waits.mem mem) locx nofun).elim
  | away m held requests empty =>
    rw [empty] at mem
    cases mem
  | posted x held requests waits entered => exact (other (waits.mem mem) entered.loc nofun).elim
  | lost why held requests plain =>
    obtain ⟨a, ram⟩ := (plain ch d mem).2
    rw [loc] at ram
    cases ram

/-- A transfer finishes. At most an entry that was fetched changes. -/
theorem leaves_finish {ch : Chan} (engine : Engine [] (fun _ => .steady) s) (between : ∀ c, Between P c s)
    (finish : s.finish P ch = some t) (c : Slot) : Leaves P c F s t := by
  obtain ⟨d, done⟩ := Fw.finished_of_finish finish
  obtain ⟨left, phase, -⟩ := (engine.tracked ch).phase
  obtain ⟨rest, -, fifo, -⟩ := phase.finish done.programmed
  have queue (e : Chan) : (t.ch e).fifo = (s.ch e).fifo := by
    by_cases here : e = ch
    · subst here
      rw [done.ch_self]
    · rw [done.ch_of_ne here]
  obtain ⟨host, ram, prpMem, cmds, state⟩ := done.state
  have past' : past c t.trace = past c s.trace := by
    rw [done.trace]
    exact past_other (o := .finished ch d) nofun
  have slab : t.cmdSlab = s.cmdSlab := by rw [state]; rfl
  have apu : t.apu = s.apu := by rw [state]; rfl
  rcases done.cmds c with same | ⟨rfl, loc, cmd⟩
  · exact .of_view (view_congr (by rw [slab]) same (fun e => by rw [queue e]) (by rw [apu]) past')
  · have mem : d ∈ (s.view d.owner).queue .rx := by simp [Fw.view, fifo]
    have view : t.view c = (s.view c).setCmd fun p => { p with sqBuf := SqBuf.ofBytes s.host d.hostAddr } := by
      ext1
      · simp only [Fw.view, View.setCmd, slab]
      · exact cmd
      · funext e
        simp only [Fw.view, View.setCmd, queue e]
      · simp only [Fw.view, View.setCmd, apu]
      · exact past'
    rcases between d.owner with ⟨p, h, k, w⟩ | standing
    · obtain ⟨a, ram⟩ := (w.plain .rx d mem).2
      rw [loc] at ram
      cases ram
    · obtain ⟨rfl, copied, none⟩ := standing.copied mem loc (SqBuf.ofBytes s.host d.hostAddr)
      refine ⟨fun p h k w => ?_, fun _ => view ▸ copied, fun f n hf gone => ?_⟩
      · obtain ⟨a, ram⟩ := (w.plain .rx d mem).2
        rw [loc] at ram
        cases ram
      · rw [view]
        exact ⟨copied, gone.requests, gone.calm, gone.left⟩

/-- The state with slot `c` taken for an entry of queue `q`. -/
def taken (s : Fw) (q : QId) (c : Slot) (slab : Slab nvmeCmdSlabSize) : Fw :=
  (Fw.setCmd { (s.advanceSq q).2 with cmdSlab := slab } c fun _ => { qid := q }).note (.cmdAlloc c q)

theorem view_taken_other {q : QId} {c e : Slot} {slab : Slab nvmeCmdSlabSize} (used : slab.used = c :: s.cmdSlab.used)
    (h : e ≠ c) : (taken s q c slab).view e = s.view e := by
  refine view_congr ?_ (Function.update_of_ne h ..) (fun _ => rfl) rfl (past_other fun same => h (Option.some.inj same).symm)
  change e ∈ slab.used ↔ _
  rw [used, List.mem_cons]
  exact or_iff_right h

theorem view_taken_own {q : QId} {c : Slot} {slab : Slab nvmeCmdSlabSize} (used : slab.used = c :: s.cmdSlab.used) :
    (taken s q c slab).view c = { s.view c with held := true, priv := { qid := q }, past := [.cmdAlloc c q] } := by
  ext1
  · change decide (c ∈ slab.used) = true
    rw [used]
    exact decide_eq_true List.mem_cons_self
  · exact Function.update_self ..
  · rfl
  · rfl
  · exact past_opened (o := .cmdAlloc c q) rfl rfl

/-- A slot that is not in use is free. -/
theorem Between.free {c : Slot} (h : Between P c s) (unused : c ∉ s.cmdSlab.used) :
    (s.view c).requests = [] ∧ Plain ((s.view c).queue .rx) ∧ (s.view c).queue .tx = [] ∧ Ended (past c s.trace) := by
  have held : (s.view c).held ≠ true := fun used => unused (of_decide_eq_true used)
  rcases h with ⟨p, e, k, w⟩ | standing
  · exact absurd w.held held
  · cases standing with
    | free _ requests rx tx ended => exact ⟨requests, rx, tx, ended⟩
    | fetched _ h => exact absurd h held
    | listing _ h => exact absurd h held
    | ending _ _ h => exact absurd h held
    | away _ h => exact absurd h held
    | posted _ h => exact absurd h held
    | lost _ h => exact absurd h held

/-- Between two states no new command gets slot `c`. -/
def Unopened (c : Slot) (s t : Fw) : Prop := ∃ new, t.trace = new ++ s.trace ∧ ∀ o ∈ new, o.of = some c → o.opens = false

theorem Unopened.earlier {c : Slot} {u : Fw} (h : Unopened c s u) (first : s.trace <:+ t.trace) (later : t.trace <:+ u.trace) :
    Unopened c s t ∧ Unopened c t u := by
  obtain ⟨new, whole, closed⟩ := h
  obtain ⟨a, ha⟩ := first
  obtain ⟨b, hb⟩ := later
  have split : new = b ++ a := by
    rw [← ha, ← List.append_assoc] at hb
    exact List.append_cancel_right (whole.symm.trans hb.symm)
  subst split
  exact ⟨⟨a, ha.symm, fun o ho => closed o (List.mem_append_right _ ho)⟩, ⟨b, hb.symm, fun o ho => closed o (List.mem_append_left _ ho)⟩⟩

theorem not_unopened {c : Slot} {q : QId} {l : List Obs} (trace : t.trace = l ++ .cmdAlloc c q :: s.trace) : ¬Unopened c s t := by
  rintro ⟨new, whole, closed⟩
  have split : new = l ++ [.cmdAlloc c q] := by
    refine List.append_cancel_right (whole.symm.trans (trace.trans ?_))
    simp
  subst split
  have opens := closed (.cmdAlloc c q) (by simp) rfl
  cases opens

/-- A slot that was free is taken. -/
theorem leaves_fresh {c : Slot} (unused : c ∉ s.cmdSlab.used) (kept : ∀ f, ¬F f) (standing : Standing P c (t.view c)) :
    Leaves P c F s t :=
  ⟨fun _ _ _ w => absurd (of_decide_eq_true w.held) unused, fun _ => standing, fun f _ hf => absurd hf (kept f)⟩

theorem leaves_fetch {q : QId} (outcome : FetchOutcome P q s t) (between : ∀ c, Between P c s) (c : Slot)
    (kept : ∀ f, F f → Unopened c s t) : Leaves P c F s t := by
  cases outcome with
  | skipped => exact .of_view (view_note_other (o := .skipped q) nofun)
  | @fetched e d _ h =>
    obtain ⟨loc, cb, owner, -⟩ := h.desc
    obtain ⟨slab, slab', clock, used, -, rfl⟩ := h.state
    by_cases same : c = e
    · subst same
      obtain ⟨requests, rx, tx, -⟩ := (between c).free h.fresh
      refine leaves_fresh h.fresh (fun f hf => not_unopened (l := [_]) rfl (kept f hf)) ?_
      rw [view_put_own owner]
      have v : Fw.view { taken s q c slab with descSlab := slab', clock := clock } c =
          { s.view c with held := true, priv := { qid := q }, past := [.cmdAlloc c q] } := view_taken_own used
      change Standing P c ((Fw.view { taken s q c slab with descSlab := slab', clock := clock } c).put .rx d)
      rw [v]
      have dataless : (Obs.queued .rx d { qid := q }).Dataless := queued_dataless fun a e => by rw [loc] at e; cases e
      have entry : (Obs.queued .rx d { qid := q }).milestone? = none := Owing.queued_milestone fun e some' => by rw [cb] at some'; cases some'
      have opened : (Obs.cmdAlloc c q).milestone? = some .taken := rfl
      let w : View := { s.view c with held := true, priv := { qid := q }, past := [.cmdAlloc c q] }
      have first : (w.put .rx d).queue .rx = (s.view c).queue .rx ++ [d] := w.queue_put_self .rx d
      have second : (w.put .rx d).queue .tx = [] := tx
      have fit : NvmeCmdPriv.Fit { qid := q } := ⟨Nat.two_pow_pos _, fun _ e => nomatch e⟩
      refine .fetched d rfl requests ⟨⟨_, first, rx⟩, fun ch other => ?_⟩ second cb loc fit rfl
        (fun ch => parts_none (dataless ch)) ((milestones_none entry).trans ?_) ⟨rfl, rfl⟩
      · cases ch with
        | rx => exact absurd rfl other
        | tx =>
          rw [second]
          exact fun _ h => nomatch h
      · exact List.filterMap_cons_some opened
    · refine .of_view ((view_put_other (by rw [owner]; exact Ne.symm same)).trans ?_)
      exact view_taken_other used same
  | @lost e slab clock _ unused used =>
    by_cases same : c = e
    · subst same
      obtain ⟨requests, rx, tx, -⟩ := (between c).free unused
      refine leaves_fresh unused (fun f hf => not_unopened (l := [_, _]) rfl (kept f hf)) ?_
      rw [view_note_own rfl rfl, view_note_own rfl rfl]
      have v : Fw.view { taken s q c slab with clock := clock } c =
          { s.view c with held := true, priv := { qid := q }, past := [.cmdAlloc c q] } := view_taken_own used
      change Standing P c (((Fw.view { taken s q c slab with clock := clock } c).note _).note _)
      rw [v]
      refine .lost .descriptor rfl requests (fun ch => ?_) List.mem_cons_self
      cases ch with
      | rx => exact rx
      | tx =>
        change Plain ((s.view c).queue .tx)
        rw [tx]
        exact fun _ h => nomatch h
    · refine .of_view ((view_note_other (o := .lost e .descriptor) fun h => same (Option.some.inj h).symm).trans ?_)
      refine (view_note_other (o := .noDescriptor e) fun h => same (Option.some.inj h).symm).trans ?_
      exact view_taken_other used same

theorem FetchOutcome.history {q : QId} (outcome : FetchOutcome P q s t) : s.trace <:+ t.trace := by
  cases outcome with
  | skipped => exact List.suffix_cons ..
  | fetched f =>
    obtain ⟨slab, slab', clock, used, -, rfl⟩ := f.state
    exact (List.suffix_cons ..).trans (List.suffix_cons ..)
  | lost => exact (List.suffix_cons ..).trans ((List.suffix_cons ..).trans (List.suffix_cons ..))

theorem TcAct.view {c : Slot} {l : Access} (act : TcAct l s t) : t.view c = s.view c := by
  cases act with
  | cc =>
    unfold Fw.ccHandler
    dsimp only
    split
    · rfl
    · split <;> rfl
  | _ => rfl

/-- An invariant over the doorbell interrupt, fetch by fetch. -/
theorem tcIrq_induct {J : Fw → Prop} (tc : ∀ l u v, TcAct l u v → J u → J v)
    (fetch : ∀ q u v, FetchOutcome P q u v → (∀ e, Between P e u) → J u → J v) (fit : Fitted s) (between : ∀ e, Between P e s)
    (start : J s) (run : (nvmeTcIrqHandler P).run s = some ((), t)) : J t := by
  have fitted := fitted_closed (P := P)
  let I (u : Fw) : Prop := Fitted u ∧ (∀ e, Between P e u) ∧ J u
  have act : ∀ l u v, TcAct l u v → I u → I v := by
    rintro l u v act ⟨fit, between, hj⟩
    refine ⟨fitted.tc l u v act fit, fun e => ?_, tc l u v act hj⟩
    exact (Leaves.of_view (F := fun _ => False) act.view).between (between e)
  have served : ∀ p, (∃ q, p = nvmeTcFetch P q) → ∀ u v, p.run u = some ((), v) → I u → I v := by
    rintro _ ⟨q, rfl⟩ u v run ⟨fit, between, hj⟩
    have size : 0 < u.tc.sqSize q := by
      rcases Nat.eq_zero_or_pos (u.tc.sqSize q) with zero | pos
      · rw [run_nvmeTcFetch_stuck zero] at run
        cases run
      · exact pos
    obtain ⟨v', run', outcome⟩ := run_nvmeTcFetch (P := P) size
    rw [run] at run'
    cases run'
    refine ⟨(acts_nvmeTcFetch P q).run (fun _ h => h) fitted.fetch fit run, fun e => ?_, fetch q u v outcome between hj⟩
    exact (leaves_fetch (F := fun _ => False) outcome between e fun _ h => h.elim).between (between e)
  exact (Prog.Over.run (made_nvmeTcIrqHandler P) (fun _ h => h.1) act (fun p u v hp => served p hp u v) ⟨fit, between, start⟩ run).2.2

theorem TcAct.history {l : Access} (act : TcAct l s t) : s.trace <:+ t.trace := act.effect.2 ▸ List.suffix_rfl

/-- The doorbell interrupt, unless it hands the slot of a call in progress to a new command. -/
theorem leaves_tcIrq (fit : Fitted s) (between : ∀ c, Between P c s) (run : (nvmeTcIrqHandler P).run s = some ((), t)) (c : Slot)
    (kept : ∀ f, F f → Unopened c s t) : Leaves P c F s t := by
  let J (u : Fw) : Prop := s.trace <:+ u.trace ∧ ((∀ f, F f → Unopened c s u) → Leaves P c F s u)
  have all : J t := by
    refine tcIrq_induct (fun l u v act hu => ?_) (fun q u v outcome between hu => ?_) fit between ⟨List.suffix_rfl, fun _ => .refl c F s⟩ run
    · refine ⟨hu.1.trans act.history, fun unopened => (hu.2 fun f hf => ?_).trans (.of_view act.view)⟩
      exact ((unopened f hf).earlier hu.1 act.history).1
    · refine ⟨hu.1.trans outcome.history, fun unopened => (hu.2 fun f hf => ?_).trans (leaves_fetch outcome between c fun f hf => ?_)⟩
      · exact ((unopened f hf).earlier hu.1 outcome.history).1
      · exact ((unopened f hf).earlier hu.1 outcome.history).2
  exact all.2 kept

theorem leaves_env (mild : Mild F) {e : Event} (engine : Engine [] (fun _ => .steady) s) (between : ∀ c, Between P c s)
    (env : s.env P e = some t) (c : Slot) (kept : e = .tcIrq → ∀ f, F f → Unopened c s t) : Leaves P c F s t := by
  cases e with
  | hostWrite reg value =>
    cases env
    exact .of_view rfl
  | hostStore addr bytes =>
    cases env
    exact .of_view rfl
  | apuStore addr bytes =>
    cases env
    exact .of_view rfl
  | dmaDone ch => exact leaves_finish engine between env c
  | tcIrq =>
    obtain ⟨⟨⟨⟩, _⟩, run, rfl⟩ := Option.map_eq_some_iff.mp env
    exact leaves_tcIrq engine.fitted between run c (kept rfl)
  | dmaIrq =>
    obtain ⟨⟨⟨⟩, _⟩, run, rfl⟩ := Option.map_eq_some_iff.mp env
    exact leaves_dmaIrq mild engine between run c
  | reply i withData => cases env
  | poll => cases env

end Environment

section System

variable {P : Platform} {S T : Sys}

/-- The callback that the trailing actions of a call must not be overtaken by. -/
def Call.awaits (call : Call) (f : Cb) : Prop := f = .rpmsgCmdReturnCb ∧ call.withData = true

/-- Where every command stands, and what the unfinished call will still do. -/
structure Sys.Ledger (P : Platform) (S : Sys) : Prop where
  standing : ∀ c, Standing P c (S.fw.view c) ∨ ∃ call ∈ S.call, call.cmd = c ∧ ∃ p h k, Owing p h k (S.fw.view c)
  call : ∀ call ∈ S.call, Carries P call.cmd call.awaits (fun _ t => Standing P call.cmd (t.view call.cmd)) call.rest S.fw

/-- The step does not hand the slot of an unfinished call with data to a new command. -/
def SlotKept (P : Platform) (S : Sys) (e : Event) : Prop :=
  ∀ call ∈ S.call, call.withData = true → ∀ o ∈ S.news P e, o.of = some call.cmd → o.opens = false

theorem Sys.Ledger.between (h : S.Ledger P) (c : Slot) : Between P c S.fw := by
  rcases h.standing c with standing | ⟨call, -, -, owing⟩
  · exact .inr standing
  · exact .inl owing

/-- What the others do before the next action changes nothing for the call. -/
theorem Carries.before {c : Slot} {F : Cb → Prop} {p : Code Unit} {s t : Fw}
    (h : Carries P c F (fun _ t => Standing P c (t.view c)) p s) (leaves : Leaves P c F s t) :
    Carries P c F (fun _ t => Standing P c (t.view c)) p t := by
  cases p with
  | pure a => exact leaves.standing h
  | act l f k => exact Prog.Safe.before (fun _ _ _ => Leaves.trans) h leaves
  | stuck => trivial

theorem Sys.Ledger.env {e : Event} {fw : Fw} (h : S.Ledger P) (engine : Engine [] (fun _ => .steady) S.fw) (kept : SlotKept P S e)
    (trace : fw.trace = S.news P e ++ S.fw.trace) (env : S.fw.env P e = some fw) : Sys.Ledger P { S with fw } := by
  have others (c : Slot) : Leaves P c (fun _ => False) S.fw fw :=
    leaves_env (fun _ h => h.elim) engine h.between env c fun _ _ h => h.elim
  refine ⟨fun c => ?_, fun call here => ?_⟩
  · rcases h.standing c with standing | ⟨call, here, cmd, p, e, k, w⟩
    · exact .inl ((others c).standing standing)
    · exact .inr ⟨call, here, cmd, p, e, k, (others c).owing p e k w⟩
  · refine Carries.before (h.call call here) (leaves_env (fun f hf => hf.1) engine h.between env call.cmd fun _ f hf => ?_)
    exact ⟨_, trace, kept call here hf.2⟩

/-- A call goes on with the rest of its code until there is none. -/
theorem Call.next_rest {call : Call} {l : Access} {rest : Code Unit} {next : Option Call} (h : call.next l rest = some next) :
    next = none ∧ (∃ a, rest = .pure a) ∨
      ∃ call', next = some call' ∧ call'.cmd = call.cmd ∧ call'.withData = call.withData ∧ call'.rest = rest := by
  cases rest with
  | pure a =>
    cases h
    exact .inl ⟨rfl, a, rfl⟩
  | act m f k =>
    cases h
    exact .inr ⟨_, rfl, rfl, rfl, rfl⟩
  | stuck => cases h

/-- The code of a call that has begun or goes on carries its command. -/
theorem Sys.Ledger.goesOn {call : Call} {l : Access} {rest : Code Unit} (next : call.next l rest = some T.call)
    (others : ∀ c, c ≠ call.cmd → Standing P c (T.fw.view c))
    (carries : Carries P call.cmd call.awaits (fun _ t => Standing P call.cmd (t.view call.cmd)) rest T.fw) : T.Ledger P := by
  rcases Call.next_rest next with ⟨none, a, rfl⟩ | ⟨call', some', cmd, data, rfl⟩
  · refine ⟨fun c => .inl ?_, fun call' here => by rw [none] at here; cases here⟩
    by_cases same : c = call.cmd
    · subst same
      exact carries
    · exact others c same
  · have awaits : call'.awaits = call.awaits := by
      funext f
      rw [Call.awaits, Call.awaits, data]
    refine ⟨fun c => ?_, fun call'' here => ?_⟩
    · by_cases same : c = call.cmd
      · subst same
        have between : Between P call.cmd T.fw := by
          cases e : call'.rest with
          | pure a =>
            rw [e] at carries
            exact .inr carries
          | act m f k =>
            rw [e] at carries
            exact (Prog.Safe.here (R := fun _ => Leaves P call.cmd call.awaits) (Leaves.refl _ _ _) carries).1.between
          | stuck =>
            rw [e] at next
            cases next
        rcases between with owing | standing
        · exact .inr ⟨call', some', cmd, owing⟩
        · exact .inl standing
      · exact .inl (others c same)
    · rw [some'] at here
      cases here
      rw [cmd, awaits]
      exact carries

theorem Sys.Ledger.poll (h : S.Ledger P) (sound : S.Sound P) (poll : S.pollStep = some T) : T.Ledger P := by
  obtain ⟨call, l, f, k, here, rest, fw, next⟩ := Sys.pollStep_act poll
  have acts := sound.acts call here
  have carries := h.call call here
  rw [rest] at acts carries
  have later := (Prog.Safe.here (R := fun _ => Leaves P call.cmd call.awaits) (Leaves.refl _ _ _) carries).2
  have act := (acts S.fw sound.fitted).1
  rw [← fw] at later act
  refine .goesOn next (fun c other => ?_) later
  rw [act.view_other other]
  rcases h.standing c with standing | ⟨call', here', cmd, -⟩
  · exact standing
  · rw [here] at here'
    cases here'
    exact absurd cmd.symm other

section Erase

variable {α : Type} {l : List α} {i : Nat} {a : α} {p : α → Bool}

theorem filter_eraseIdx_other (h : l[i]? = some a) (other : p a = false) : (l.eraseIdx i).filter p = l.filter p := by
  induction l generalizing i with
  | nil => rfl
  | cons b l ih =>
    cases i with
    | zero =>
      obtain rfl : b = a := by simpa using h
      rw [List.eraseIdx_cons_zero, List.filter_cons_of_neg (by simp [other])]
    | succ i =>
      rw [List.eraseIdx_cons_succ, List.filter_cons, List.filter_cons, ih (by simpa using h)]

theorem filter_eraseIdx_only {b : α} (h : l[i]? = some a) (own : p a = true) (only : l.filter p = [b]) :
    (l.eraseIdx i).filter p = [] := by
  induction l generalizing i with
  | nil => cases only
  | cons x l ih =>
    cases i with
    | zero =>
      obtain rfl : x = a := by simpa using h
      rw [List.filter_cons_of_pos own] at only
      rw [List.eraseIdx_cons_zero]
      exact (List.cons.inj only).2
    | succ i =>
      rw [List.getElem?_cons_succ] at h
      rw [List.eraseIdx_cons_succ]
      rw [List.filter_cons] at only ⊢
      split at only
      · have none : l.filter p = [] := (List.cons.inj only).2
        have mem : a ∈ l.filter p := List.mem_filter.mpr ⟨List.mem_of_getElem? h, own⟩
        rw [none] at mem
        cases mem
      · rename_i no
        rw [if_neg no, ih h only]

end Erase

theorem Sys.Ledger.startCall {i : Nat} {withData : Bool} (h : S.Ledger P) (start : S.startCall P i withData = some T) : T.Ledger P := by
  unfold Sys.startCall at start
  split at start
  · rename_i m idle request
    obtain ⟨next, first, rfl⟩ := Option.map_eq_some_iff.mp start
    have standing (c : Slot) : Standing P c (S.fw.view c) := by
      rcases h.standing c with standing | ⟨call, here, -⟩
      · exact standing
      · rw [idle] at here
        cases here
    refine .goesOn first (fun c other => ?_) ?_
    · have same : Fw.view { S.fw with apu := S.fw.apu.eraseIdx i } c = S.fw.view c := by
        refine view_congr .rfl rfl (fun _ => rfl) ?_ rfl
        exact filter_eraseIdx_other request (decide_eq_false (Ne.symm other))
      rw [same]
      exact standing c
    · have mem : m ∈ (S.fw.view m.priv).requests :=
        List.mem_filter.mpr ⟨List.mem_of_getElem? request, decide_eq_true rfl⟩
      have requests : (S.fw.view m.priv).requests ≠ [] := List.ne_nil_of_mem mem
      cases standing m.priv with
      | away m' held only queue task moved tx vendor sent earlier =>
        have same : m' = m := by
          rw [only] at mem
          exact (List.mem_singleton.mp mem).symm
        have w : Owing (S.fw.cmds m.priv) (past m.priv S.fw.trace) (fun _ => True)
            (Fw.view { S.fw with apu := S.fw.apu.eraseIdx i } m.priv) := by
          refine ⟨held, rfl, rfl, .inl task.before, filter_eraseIdx_only request (decide_eq_true rfl) only, fun ch d hd => ?_, fun ch _ => queue ch⟩
          have none := queue ch
          change d ∈ (S.fw.view m.priv).queue ch at hd
          rw [none] at hd
          cases hd
        refine carries_rpmsgEndpointCb P (fun data => ?_) rfl w task moved tx vendor ⟨m', sent, by rw [same], by rw [same]⟩ earlier fun _ h => h
        cases withData with
        | true => exact ⟨rfl, rfl⟩
        | false => cases data
      | free _ none => exact absurd none requests
      | fetched _ _ none => exact absurd none requests
      | listing _ _ none => exact absurd none requests
      | ending _ _ _ none => exact absurd none requests
      | posted _ _ none => exact absurd none requests
      | lost _ _ none => exact absurd none requests
  · cases start

theorem Sys.Ledger.step {e : Event} (h : S.Ledger P) (engine : Engine [] (fun _ => .steady) S.fw) (sound : S.Sound P)
    (kept : SlotKept P S e) (step : S.step P e = some T) : T.Ledger P := by
  have trace := Sys.trace_eq step sound
  rcases Sys.step_cases step with ⟨fw, env, rfl⟩ | ⟨i, withData, -, start⟩ | ⟨-, poll⟩
  · exact h.env engine kept trace env
  · exact h.startCall start
  · exact h.poll sound poll

theorem ledger_boot (host ram : Nat → UInt8) : (Sys.boot host ram).Ledger P :=
  ⟨fun _ => .inl (.free rfl rfl (fun _ h => nomatch h) rfl (.inl rfl)), fun _ h => nomatch h⟩

/-- In every run in which slots are kept, every command stands somewhere. -/
theorem Run.ledger {ok : Sys → Event → Prop} {host ram : Nat → UInt8} (run : Run P ok (Sys.boot host ram) S)
    (kept : ∀ S e, ok S e → SlotKept P S e) : S.Ledger P := by
  induction run with
  | refl => exact ledger_boot host ram
  | step e before met next ih => exact ih.step before.engine before.sound (kept _ _ met) next

end System
end AlkaliFw
