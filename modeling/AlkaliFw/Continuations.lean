import AlkaliFw.Success

/-! What carries a command on, counted over the whole controller, and the terms of its slot:
taken for an entry, one completion entry, given back. Every branch of the firmware that gives
up on a command without handing it on breaks this. -/

namespace AlkaliFw

/-- The command that the callback of a descriptor is called with. -/
def Desc.cbArg (d : Desc) : Option Slot := d.callback.map (·.2)

/-- Descriptors whose callback is called with `c`, and requests about `c` that the APU has not answered. -/
def Fw.continuations (s : Fw) (c : Slot) : Nat :=
  (s.ch .rx).fifo.countP (fun d => d.cbArg = some c) + (s.ch .tx).fifo.countP (fun d => d.cbArg = some c) +
    s.apu.countP fun m => m.priv = c

/-- One thing carries a command on, be it the call of the polling thread that handles its answer;
nothing is left of a command whose slot is free. -/
structure Sys.Carried (S : Sys) (c : Slot) : Prop where
  held : c ∈ S.fw.cmdSlab.used → S.fw.continuations c = 1 ∨ S.fw.continuations c = 0 ∧ ∃ call ∈ S.call, call.cmd = c
  free : c ∉ S.fw.cmdSlab.used → S.fw.continuations c = 0

/-- What happened to slot `c`, over all the commands that it was taken for; newest first. -/
def story (c : Slot) (tr : List Obs) : List Milestone := milestones (tr.filter (·.of = some c))

/-- The slot was taken, one entry was submitted and the slot was given back, any number of times. -/
inductive Terms : List Milestone → Prop where
  | start : Terms []
  | again {h : List Milestone} (d : Desc) (earlier : Terms h) : Terms (.freed :: .posted d :: .taken :: h)

/-- The slot is between two terms, or in the middle of one. -/
structure CompletedOnce (c : Slot) (s : Fw) : Prop where
  free : c ∉ s.cmdSlab.used → Terms (story c s.trace)
  held : c ∈ s.cmdSlab.used → ∃ h, Terms h ∧ (story c s.trace = .taken :: h ∨ ∃ d, story c s.trace = .posted d :: .taken :: h)

def Obs.loses : Obs → Bool
  | .lost _ _ => true
  | _ => false

/-- No command is given up in the step, and the slot of a call with data stays its own. -/
def Onward (P : Platform) (S : Sys) (e : Event) : Prop := SlotKept P S e ∧ ∀ o ∈ S.news P e, o.loses = false

instance (P : Platform) (S : Sys) (e : Event) : Decidable (Onward P S e) := by
  unfold Onward
  infer_instance

section Counts

variable {P : Platform} {c e : Slot} {v : View} {ch ch' : Chan} {d x : Desc} {f : Cb}

theorem Plain.count {ds : List Desc} (h : Plain ds) : ds.countP (·.callback.isSome) = 0 := by
  refine List.countP_eq_zero.mpr fun d mem some' => ?_
  rw [(h d mem).1] at some'
  cases some'

theorem Waits.count (w : Waits v ch d) (cb : d.callback = some (f, c)) : (v.queue ch).countP (·.callback.isSome) = 1 := by
  obtain ⟨ds, queue, plain⟩ := w.last
  rw [queue, List.countP_append, plain.count, List.countP_singleton, cb]
  rfl

/-- The callbacks waited for and the requests, for both channels together. -/
def View.tokens (v : View) : Nat :=
  (v.queue .rx).countP (·.callback.isSome) + (v.queue .tx).countP (·.callback.isSome) + v.requests.length

theorem Waits.tokens (w : Waits v ch d) (cb : d.callback = some (f, c)) (requests : v.requests = []) : v.tokens = 1 := by
  have here := w.count cb
  have other (ch' : Chan) (ne : ch' ≠ ch) := (w.plain ch' ne).count
  rw [View.tokens, requests, List.length_nil]
  cases ch with
  | rx => rw [here, other .tx (by decide)]
  | tx => rw [here, other .rx (by decide)]

theorem tokens_of_plain (plain : ∀ ch, Plain (v.queue ch)) : v.tokens = v.requests.length := by
  rw [View.tokens, (plain .rx).count, (plain .tx).count, Nat.zero_add]

/-- A command that was not lost has one token while its slot is taken. -/
theorem Standing.tokens (h : Standing P c v) : v.held = false ∧ v.tokens = 0 ∨ v.held = true ∧ (v.tokens = 1 ∨ ∃ why, .lost c why ∈ v.past) := by
  cases h with
  | free held requests rx tx =>
    refine .inl ⟨held, ?_⟩
    rw [View.tokens, rx.count, tx, requests]
    rfl
  | fetched d held requests waits tx cb => exact .inr ⟨held, .inl (waits.tokens cb requests)⟩
  | listing d held requests waits cb => exact .inr ⟨held, .inl (waits.tokens cb requests)⟩
  | ending d f held requests waits cb => exact .inr ⟨held, .inl (waits.tokens cb requests)⟩
  | away m held requests queue =>
    refine .inr ⟨held, .inl ?_⟩
    rw [View.tokens, queue, queue, requests]
    rfl
  | posted d held requests waits entered => exact .inr ⟨held, .inl (waits.tokens entered.cb requests)⟩
  | lost why held requests plain lost => exact .inr ⟨held, .inr ⟨why, lost⟩⟩

/-- The callbacks in the queue of a command have this command as their argument. -/
theorem Standing.argument (h : Standing P c v) (mem : d ∈ v.queue ch) (cb : d.callback = some (f, e)) : e = c := by
  have same {x : Desc} {g : Cb} (eq : d = x) (cbx : x.callback = some (g, c)) : e = c := by
    rw [← eq, cb] at cbx
    exact (Prod.mk.inj (Option.some.inj cbx)).2
  cases h with
  | free held requests rx tx =>
    cases ch with
    | rx => exact (rx.not_waiting mem cb).elim
    | tx =>
      rw [tx] at mem
      cases mem
  | fetched x held requests waits tx cbx => exact same (waits.callback mem cb) cbx
  | listing x held requests waits cbx => exact same (waits.callback mem cb) cbx
  | ending x g held requests waits cbx => exact same (waits.callback mem cb) cbx
  | away m held requests empty =>
    rw [empty] at mem
    cases mem
  | posted x held requests waits entered => exact same (waits.callback mem cb) entered.cb
  | lost why held requests plain => exact ((plain ch).not_waiting mem cb).elim

end Counts

section Tokens

variable {P : Platform} {c : Slot} {S : Sys}

theorem Sys.Ledger.argument (h : S.Ledger P) {ch : Chan} {d : Desc} {e : Slot} (mem : d ∈ (S.fw.ch ch).fifo)
    (arg : d.cbArg = some e) : e = d.owner := by
  obtain ⟨⟨f, a⟩, cb, rfl⟩ := Option.map_eq_some_iff.mp arg
  have queue : d ∈ (S.fw.view d.owner).queue ch := List.mem_filter.mpr ⟨mem, decide_eq_true rfl⟩
  rcases h.standing d.owner with standing | ⟨call, -, -, p, k, g, w⟩
  · exact standing.argument queue cb
  · exact ((w.plain ch).not_waiting queue cb).elim

/-- The continuations of a command are the tokens in its view. -/
theorem Sys.Ledger.continuations (h : S.Ledger P) (c : Slot) : S.fw.continuations c = (S.fw.view c).tokens := by
  have channel (ch : Chan) : (S.fw.ch ch).fifo.countP (fun d => d.cbArg = some c) =
      ((S.fw.view c).queue ch).countP (·.callback.isSome) := by
    rw [Fw.view, List.countP_filter]
    refine List.countP_congr fun d mem => ?_
    simp only [decide_eq_true_eq, Bool.and_eq_true]
    constructor
    · intro arg
      refine ⟨?_, (h.argument mem arg).symm⟩
      obtain ⟨a, cb, -⟩ := Option.map_eq_some_iff.mp arg
      rw [cb]
      rfl
    · rintro ⟨some', owner⟩
      obtain ⟨⟨f, e⟩, cb⟩ := Option.isSome_iff_exists.mp some'
      have arg : d.cbArg = some e := by rw [Desc.cbArg, cb]; rfl
      rw [arg, h.argument mem arg, owner]
  have requests : S.fw.apu.countP (fun m => m.priv = c) = (S.fw.view c).requests.length := List.countP_eq_length_filter
  rw [Fw.continuations, channel, channel, requests, View.tokens]

/-- As long as the command was not lost. -/
theorem Sys.Ledger.carried (h : S.Ledger P) (kept : ∀ why, .lost c why ∉ past c S.fw.trace) : S.Carried c := by
  have count := h.continuations c
  have in' : (S.fw.view c).held = true ↔ c ∈ S.fw.cmdSlab.used := decide_eq_true_iff
  rcases h.standing c with standing | ⟨call, here, cmd, p, k, g, w⟩
  · rcases standing.tokens with ⟨free, zero⟩ | ⟨held, one | ⟨why, lost⟩⟩
    · refine ⟨fun used => ?_, fun _ => count.trans zero⟩
      rw [in'.mpr used] at free
      cases free
    · exact ⟨fun _ => .inl (count.trans one), fun unused => absurd (in'.mp held) unused⟩
    · exact absurd lost (kept why)
  · refine ⟨fun _ => .inr ⟨?_, call, here, cmd⟩, fun unused => absurd (in'.mp w.held) unused⟩
    rw [count, tokens_of_plain w.plain, w.requests]
    rfl

end Tokens

section Stories

variable {P : Platform} {c : Slot} {l : Access} {s t : Fw} {S T : Sys} {o : Obs} {tr : List Obs}

/-- The history before the slot was taken last. -/
def older (c : Slot) : List Obs → List Obs
  | [] => []
  | o :: tr => if o.of = some c ∧ o.opens = true then tr else older c tr

theorem older_later (h : o.of = some c → o.opens = false) : older c (o :: tr) = older c tr := by
  rw [older, if_neg]
  rintro ⟨own, opens⟩
  rw [h own] at opens
  cases opens

theorem story_own (h : o.of = some c) : story c (o :: tr) = o.milestone?.toList ++ story c tr := by
  rw [story, List.filter_cons_of_pos (by simpa using h), milestones, List.filterMap_cons]
  cases o.milestone? <;> rfl

theorem story_other (h : o.of ≠ some c) : story c (o :: tr) = story c tr := by
  rw [story, List.filter_cons_of_neg (by simpa using h)]
  rfl

theorem story_eq (c : Slot) (tr : List Obs) : story c tr = milestones (past c tr) ++ story c (older c tr) := by
  induction tr with
  | nil => rfl
  | cons o tr ih =>
    by_cases own : o.of = some c
    · rw [story_own own]
      cases opens : o.opens with
      | true =>
        rw [past_opened own opens, older, if_pos ⟨own, opens⟩]
        unfold milestones
        cases m : o.milestone? <;> simp [m]
      | false =>
        rw [past_own own opens, older_later fun _ => opens, ih]
        unfold milestones
        cases m : o.milestone? <;> simp [m]
    · rw [story_other own, past_other own, older_later fun same => absurd same own, ih]

theorem Ended.terms {h : List Obs} {ms : List Milestone} (ended : Ended h) (earlier : Terms ms) : Terms (milestones h ++ ms) := by
  rcases ended with none | ⟨d, all⟩
  · rw [none]
    exact earlier
  · rw [all]
    exact .again d earlier

/-- What happened before the slot was taken last consists of whole terms. -/
def Turned (c : Slot) (s : Fw) : Prop := Terms (story c (older c s.trace))

theorem Turned.same (h : Turned c s) (same : older c t.trace = older c s.trace) : Turned c t := by
  rw [Turned, same]
  exact h

theorem Effect.older {e : Slot} (effect : Effect e s t) : older c t.trace = older c s.trace := by
  cases effect with
  | none _ trace => rw [trace]
  | note o _ trace plain =>
    rw [trace]
    refine older_later fun _ => ?_
    cases o <;> first | rfl | exact plain.elim
  | put at' d _ _ _ _ trace =>
    rw [trace]
    exact older_later fun _ => rfl

theorem DmaAct.older (act : DmaAct P l s t) : older c t.trace = older c s.trace := by
  cases act with
  | get ch =>
    unfold Fw.get
    split
    · rfl
    · exact older_later fun _ => rfl
  | descFree => exact older_later fun _ => rfl
  | handled => exact older_later fun _ => rfl
  | cmd act => exact act.effect.older
  | _ => rfl

theorem Outside.older (act : Outside P s t) : AlkaliFw.older c t.trace = AlkaliFw.older c s.trace := by
  cases act with
  | done finish =>
    obtain ⟨d, done⟩ := Fw.finished_of_finish finish
    rw [done.trace]
    exact older_later fun _ => rfl
  | _ => rfl

/-- A slot that is taken was free before, so its last round is whole. -/
theorem Turned.fetch {q : QId} (h : Turned c s) (outcome : FetchOutcome P q s t) (between : Between P c s) : Turned c t := by
  have fresh (unused : c ∉ s.cmdSlab.used) : Terms (story c s.trace) := by
    obtain ⟨-, -, -, ended⟩ := between.free unused
    rw [story_eq]
    exact ended.terms h
  have first {e : Slot} (unused : e ∉ s.cmdSlab.used) : Terms (story c (older c (.cmdAlloc e q :: s.trace))) := by
    by_cases same : e = c
    · subst same
      rw [older, if_pos ⟨rfl, rfl⟩]
      exact fresh unused
    · rw [older_later (o := .cmdAlloc e q) fun own => absurd (Option.some.inj own) same]
      exact h
  cases outcome with
  | skipped => exact h.same (older_later nofun)
  | @fetched e d _ f =>
    obtain ⟨slab, slab', clock, -, -, rfl⟩ := f.state
    change Terms (story c (older c (.queued .rx d _ :: .cmdAlloc e q :: s.trace)))
    rw [older_later fun _ => rfl]
    exact first f.fresh
  | @lost e slab clock _ unused =>
    change Terms (story c (older c (.lost e .descriptor :: .noDescriptor e :: .cmdAlloc e q :: s.trace)))
    rw [older_later fun _ => rfl, older_later fun _ => rfl]
    exact first unused

theorem Turned.step {e : Event} (h : Turned c S.fw) (ledger : S.Ledger P) (sound : S.Sound P) (step : S.step P e = some T) :
    Turned c T.fw := by
  by_cases irq : e = .tcIrq
  · subst irq
    obtain ⟨fw, env, rfl⟩ := Option.map_eq_some_iff.mp step
    obtain ⟨⟨⟨⟩, t⟩, run, rfl⟩ := Option.map_eq_some_iff.mp env
    exact tcIrq_induct (J := Turned c) (fun l u v act hu => hu.same (by rw [act.effect.2]))
      (fun q u v outcome between hu => hu.fetch outcome (between c)) sound.fitted ledger.between h run
  · exact Sys.step_aside (fun l u v act hu => hu.same act.older) (fun u v act hu => hu.same act.older) irq step sound h

theorem Run.turned {ok : Sys → Event → Prop} {host ram : Nat → UInt8} (run : Run P ok (Sys.boot host ram) S)
    (kept : ∀ S e, ok S e → SlotKept P S e) : Turned c S.fw := by
  induction run with
  | refl => exact .start
  | step e before _ next ih => exact ih.step (before.ledger kept) before.sound next

/-- A command that was not lost is in the middle of its term. -/
theorem Between.term (h : Between P c s) (turned : Turned c s) (kept : ∀ why, .lost c why ∉ past c s.trace) : CompletedOnce c s := by
  have whole := story_eq c s.trace
  have in' : (s.view c).held = true ↔ c ∈ s.cmdSlab.used := decide_eq_true_iff
  have open' (held : (s.view c).held = true) (live : Open (past c s.trace)) : CompletedOnce c s := by
    refine ⟨fun unused => absurd (in'.mp held) unused, fun _ => ⟨_, turned, ?_⟩⟩
    rw [whole]
    rcases live with taken | ⟨d, posted⟩
    · exact .inl (by rw [taken]; rfl)
    · exact .inr ⟨d, by rw [posted]; rfl⟩
  rcases h with ⟨p, k, g, w⟩ | standing
  · exact open' w.held (by rw [show past c s.trace = k from w.past]; exact w.live)
  · cases standing with
    | free held _ _ _ ended =>
      refine ⟨fun _ => ?_, fun used => ?_⟩
      · rw [whole]
        exact ended.terms turned
      · rw [in'.mpr used] at held
        cases held
    | fetched _ held _ _ _ _ _ _ _ _ before => exact open' held (.inl before)
    | listing _ held _ _ _ _ _ task => exact open' held (.inl task.before)
    | ending _ _ held _ _ _ _ _ task => exact open' held (.inl task.before)
    | away _ held _ _ task => exact open' held (.inl task.before)
    | posted d held _ _ entered => exact open' held (.inr ⟨d, entered.milestone⟩)
    | lost why _ _ _ lost => exact absurd lost (kept why)

end Stories

/-- In a run without a branch that gives a command up, every command is carried on by one thing at a time, and
completed once. -/
theorem carried_of_onward (P : Platform) (host ram : Nat → UInt8) (S : Sys) (run : Run P (Onward P) (Sys.boot host ram) S) (c : Slot) :
    S.Carried c ∧ CompletedOnce c S.fw := by
  have ledger := run.ledger fun _ _ met => met.1
  have events := run.events fun _ _ met => met.2
  have kept (why : Loss) : .lost c why ∉ past c S.fw.trace := fun lost => by
    have none := events _ (mem_past lost)
    cases none
  exact ⟨ledger.carried kept, (ledger.between c).term (run.turned fun _ _ met => met.1) kept⟩

/-- An identify command, from its doorbell until its completion entry waits to be written. -/
theorem identify_carried : ∃ S, Run (board (2 ^ 12)) (Onward (board (2 ^ 12))) (Sys.boot (fun a => if a = 0x10000 then 6 else 0) fun _ => 0) S ∧
    0 ∈ S.fw.cmdSlab.used ∧ S.Carried 0 ∧ CompletedOnce 0 S.fw := by
  have runs : ((Sys.boot (fun a => if a = 0x10000 then 6 else 0) fun _ => 0).execOk (board (2 ^ 12))
      (fun S e => decide (Onward (board (2 ^ 12)) S e))
      (setUp ++ [.hostWrite (doorbellTail 0 / 4) 1, .tcIrq, .dmaDone .rx, .dmaIrq, .dmaDone .tx, .dmaIrq])).map (fun S =>
      decide (0 ∈ S.fw.cmdSlab.used)) = some true := by decide +kernel
  obtain ⟨S, exec, used⟩ := Option.map_eq_some_iff.mp runs
  have run : Run (board (2 ^ 12)) (Onward (board (2 ^ 12))) _ S := (Run.refl _).execOk (fun S e h => of_decide_eq_true h) exec
  exact ⟨S, run, of_decide_eq_true used, carried_of_onward _ _ _ S run 0⟩

/-- A vendor command brings four bytes and has PSDT 1: its slot stays taken and nothing carries it on. -/
theorem psdt_dropped : ¬∀ (P : Platform) (host ram : Nat → UInt8) (S : Sys), Run P (fun _ _ => True) (Sys.boot host ram) S →
    ∀ c, S.Carried c ∧ CompletedOnce c S.fw := by
  intro claim
  have runs : ((Sys.boot (fun a => if a = 0x10000 then 0xC1 else if a = 0x10001 then 0x40 else if a = 0x10028 then 1 else 0)
      fun _ => 0).exec (board (2 ^ 12)) (setUp ++ [.hostWrite (doorbellTail 0 / 4) 1, .tcIrq, .dmaDone .rx, .dmaIrq])).map (fun S =>
      decide (0 ∈ S.fw.cmdSlab.used ∧ S.fw.continuations 0 = 0 ∧ S.call.isNone)) = some true := by decide +kernel
  obtain ⟨S, exec, all⟩ := Option.map_eq_some_iff.mp runs
  obtain ⟨used, none, idle⟩ := of_decide_eq_true all
  rcases (claim _ _ _ S ((Run.refl _).exec exec) 0).1.held used with one | ⟨-, call, here, -⟩
  · rw [none] at one
    cases one
  · rw [Option.isNone_iff_eq_none.mp idle] at here
    cases here

end AlkaliFw
