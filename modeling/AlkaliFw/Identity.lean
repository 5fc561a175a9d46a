import AlkaliFw.Atomic
import AlkaliFw.Return

/-! What a completion entry says of its command. `fill_cq_resp` copies the CID and the head of
the submission queue; `sq_id` is never assigned, and command specific data is only ever
cleared. The slot in between is reused for other commands of either queue. -/

namespace AlkaliFw
open Resumption

/-- The entry that a step copies into slot `c`, with the queue that it was fetched from. -/
def Fw.copies (s : Fw) (e : Event) (c : Slot) : Option (QId × SqBuf) :=
  match e, (s.ch .rx).programmed with
  | .dmaDone .rx, some d => if d.localAddr = .sqBuf c then some (d.queue, SqBuf.ofBytes s.host d.hostAddr) else none
  | _, _ => none

/-- The command in slot `c` as the host submitted it. -/
def fetchedInto (past : History) (c : Slot) : Option (QId × SqBuf) := past.findSome? fun x => x.1.copies x.2 c

/-- The firmware passed through the state `r`. -/
def Visited (P : Platform) (past : History) (r : Fw) : Prop := ∃ x ∈ past, r ∈ x.1.passes P x.2

/-- The slot of completion queue `q` that is to be filled next. -/
def NvmeTcPriv.cqNext (tc : NvmeTcPriv) (q : QId) : Nat := (tc.cqBase q + tc.cqTail q * nvmeTcCqEntrySize) % 2 ^ 64

/-- The entry `e`, which descriptor `d` takes to the host, is that of the command `b` of queue `q`.
No handler writes command specific data other than 0. -/
structure Identifies (P : Platform) (past : History) (d : Desc) (e : NvmeCqEntry) (q : QId) (b : SqBuf) : Prop where
  cid : e.cid = b.cid
  sqId : e.sqId = q.val
  ring : ∃ r, Visited P past r ∧ d.hostAddr = r.tc.cqNext q
  cdw0 : e.cdw0 = 0

section Matching

variable {P : Platform} {f : Slot → Option (QId × SqBuf)} {k : Channel.Stage} {c : Slot} {s t : Fw}

/-- The record holds the command that the host submitted. -/
def Own (f : Slot → Option (QId × SqBuf)) (c : Slot) (s : Fw) : Prop :=
  ∃ b, f c = some ((s.cmds c).qid, b) ∧ (s.cmds c).sqBuf.cid = b.cid

def Filled (p : NvmeCmdPriv) : Prop := p.cqBuf.cid = p.sqBuf.cid ∧ p.cqBuf.sqId = 0 ∧ p.cqBuf.cdw0 = 0

def Desc.fetches (d : Desc) (c : Slot) : Prop := d.callback = some (.nvmeCmdHandler, c)

/-- Slots against what was copied into them, with the receiving channel in stage `k`. -/
structure Matches (f : Slot → Option (QId × SqBuf)) (k : Channel.Stage) (s : Fw) : Prop where
  loc : ∀ d ∈ (s.ch .rx).fifo, ∀ c, d.localAddr = .sqBuf c ↔ d.fetches c
  queue : ∀ d ∈ (s.ch .rx).fifo, ∀ c, d.fetches c → d.owner = c ∧ d.queue = (s.cmds c).qid
  tx : ∀ d ∈ (s.ch .tx).fifo, ∀ c, ¬d.fetches c
  running : k ≠ .popped → (s.ch .rx).running = true → (s.ch .rx).fifo ≠ []
  copied : k ≠ .popped → (s.ch .rx).programmed = none → ∀ d rest c, (s.ch .rx).fifo = d :: rest → d.fetches c → Own f c s
  held : ∀ c, (∃ d ∈ (s.ch .rx).fifo, d.fetches c) ∨ (∀ q n, .handled c q n ∉ past c s.trace) ∨ Own f c s ∧ Filled (s.cmds c)

/-- The identifiers in a record stay, and command specific data is at most cleared. -/
structure SameId (p p' : NvmeCmdPriv) : Prop where
  qid : p'.qid = p.qid
  cid : p'.sqBuf.cid = p.sqBuf.cid
  entry : p'.cqBuf.cid = p.cqBuf.cid ∧ p'.cqBuf.sqId = p.cqBuf.sqId
  cdw0 : p'.cqBuf.cdw0 = p.cqBuf.cdw0 ∨ p'.cqBuf.cdw0 = 0

theorem SameId.refl (p : NvmeCmdPriv) : SameId p p := ⟨rfl, rfl, ⟨rfl, rfl⟩, .inl rfl⟩

theorem SameId.own (h : SameId (s.cmds c) (t.cmds c)) (own : Own f c s) : Own f c t := by
  obtain ⟨b, submitted, cid⟩ := own
  exact ⟨b, by rw [h.qid, submitted], h.cid.trans cid⟩

theorem SameId.filled {p p' : NvmeCmdPriv} (h : SameId p p') (filled : Filled p) : Filled p' := by
  obtain ⟨cid, sqId, cdw0⟩ := filled
  refine ⟨h.entry.1.trans (cid.trans h.cid.symm), h.entry.2.trans sqId, ?_⟩
  rcases h.cdw0 with same | zero
  · exact same.trans cdw0
  · exact zero

theorem SameId.update {p : NvmeCmdPriv} (h : SameId (s.cmds c) p) (e : Slot) :
    SameId (s.cmds e) (Function.update s.cmds c p e) := by
  by_cases here : e = c
  · subst here
    rwa [Function.update_self]
  · rw [Function.update_of_ne here]
    exact .refl _

theorem FineAct.sameId {e : Slot} {l : Access} (act : FineAct P e l s t) (c : Slot) : SameId (s.cmds c) (t.cmds c) := by
  cases act with
  | own act =>
    cases act with
    | cmd s assigns =>
      obtain ⟨cid, sqId, cdw0⟩ := assigns.entry (s.cmds e)
      exact SameId.update ⟨assigns.qid _, assigns.cid _, ⟨cid, sqId⟩, .inl cdw0⟩ c
    | queues s =>
      have cleared : SameId (s.cmds e) { s.cmds e with cqBuf := { (s.cmds e).cqBuf with cdw0 := 0 } } :=
        ⟨rfl, rfl, ⟨rfl, rfl⟩, .inr rfl⟩
      exact cleared.update c
    | @buffer b size s =>
      have named : SameId (s.cmds e) { s.cmds e with block := b.block } := ⟨rfl, rfl, ⟨rfl, rfl⟩, .inl rfl⟩
      exact named.update c
    | queue update => cases update <;> exact .refl _
    | _ => exact .refl _
  | _ => exact .refl _

theorem mem_past_cons {o x : Obs} {tr : List Obs} (mem : x ∈ past c (o :: tr)) : x = o ∨ x ∈ past c tr := by
  rw [past] at mem
  split at mem
  · split at mem
    · exact .inl (List.mem_singleton.mp mem)
    · exact List.mem_cons.mp mem
  · exact .inr mem

/-- No new entry is prepared. -/
def NoneHandled (s t : Fw) : Prop := ∀ c q n, .handled c q n ∈ past c t.trace → .handled c q n ∈ past c s.trace

theorem noneHandled_cons {o : Obs} (trace : t.trace = o :: s.trace) (other : ∀ c q n, o ≠ .handled c q n) : NoneHandled s t := by
  intro c q n mem
  rw [trace] at mem
  exact (mem_past_cons mem).resolve_left fun same => other c q n same.symm

theorem FineAct.noneHandled {e : Slot} {l : Access} (act : FineAct P e l s t) : NoneHandled s t := by
  cases act.effect with
  | none _ same => exact fun c q n mem => same ▸ mem
  | note o _ trace plain =>
    refine noneHandled_cons trace fun c q n same => ?_
    rw [same] at plain
    exact plain
  | put _ _ _ _ _ _ trace => exact noneHandled_cons trace fun c q n => nofun

/-- A fetched entry is what the host had at its address. -/
theorem Fw.copied_of_finish {d : Desc} (programmed : (s.ch .rx).programmed = some d) (loc : d.localAddr = .sqBuf c)
    (finish : s.finish P .rx = some t) : (t.cmds c).sqBuf = SqBuf.ofBytes s.host d.hostAddr := by
  simp only [Fw.finish, programmed, Fw.move, loc, Option.map_some, Option.some.injEq] at finish
  rw [← finish]
  simp only [Fw.note, Fw.setCh, Fw.setCmd, Function.update_self]

namespace Matches

/-- The receiving channel stays, and so do the identifiers. -/
theorem frame (h : Matches f k s) (records : ∀ c, SameId (s.cmds c) (t.cmds c)) (ch : t.ch .rx = s.ch .rx)
    (tx : ∀ d ∈ (t.ch .tx).fifo, ∀ c, ¬d.fetches c) (none : NoneHandled s t) : Matches f k t where
  loc := by rw [ch]; exact h.loc
  queue := by
    rw [ch]
    intro d mem c fetches
    obtain ⟨owner, queue⟩ := h.queue d mem c fetches
    exact ⟨owner, queue.trans (records c).qid.symm⟩
  tx := tx
  running := by rw [ch]; exact h.running
  copied := by
    rw [ch]
    exact fun stage idle d rest c fifo fetches => (records c).own (h.copied stage idle d rest c fifo fetches)
  held c := by
    rw [ch]
    rcases h.held c with waits | unanswered | ⟨own, filled⟩
    · exact .inl waits
    · exact .inr (.inl fun q n mem => unanswered q n (none c q n mem))
    · exact .inr (.inr ⟨(records c).own own, (records c).filled filled⟩)

theorem congr (h : Matches f k s) (cmds : t.cmds = s.cmds) (ch : t.ch = s.ch) (trace : t.trace = s.trace) : Matches f k t :=
  h.frame (fun c => by rw [cmds]; exact .refl _) (by rw [ch]) (by rw [ch]; exact h.tx) fun c q n mem => by rwa [trace] at mem

/-- A transfer is queued; a fetch goes to the slot that it is made for. -/
theorem put (h : Matches f k s) {d : Desc} (loc : ∀ c, d.localAddr = .sqBuf c ↔ d.fetches c)
    (queue : ∀ c, d.fetches c → d.owner = c ∧ d.queue = (t.cmds c).qid) (records : ∀ c, SameId (s.cmds c) (t.cmds c))
    (ch : t.ch .rx = (s.put .rx d).ch .rx) (tx : ∀ d ∈ (t.ch .tx).fifo, ∀ c, ¬d.fetches c) (none : NoneHandled s t) :
    Matches f k t := by
  rw [Fw.put_ch_self] at ch
  have mem {x : Desc} (hx : x ∈ (t.ch .rx).fifo) : x ∈ (s.ch .rx).fifo ∨ x = d := by
    rw [ch] at hx
    rcases List.mem_append.mp hx with old | new
    · exact .inl old
    · exact .inr (List.mem_singleton.mp new)
  refine ⟨fun x hx c => ?_, fun x hx c fetches => ?_, tx, fun _ _ => ?_, fun stage idle x rest c head fetches => ?_, fun c => ?_⟩
  · rcases mem hx with old | rfl
    · exact h.loc x old c
    · exact loc c
  · rcases mem hx with old | rfl
    · obtain ⟨owner, queue⟩ := h.queue x old c fetches
      exact ⟨owner, queue.trans (records c).qid.symm⟩
    · exact queue c fetches
  · rw [ch]
    simp
  · rw [ch] at idle head
    dsimp only at idle head
    cases old : (s.ch .rx).fifo with
    | nil =>
      split at idle
      · exact absurd old (h.running stage ‹_›)
      · cases idle
    | cons y ys =>
      rw [old] at head
      obtain ⟨rfl, -⟩ := List.cons.inj head
      split at idle
      · exact (records c).own (h.copied stage idle y ys c old fetches)
      · cases idle
  · rcases h.held c with ⟨x, hx, fetches⟩ | unanswered | ⟨own, filled⟩
    · exact .inl ⟨x, by rw [ch]; exact List.mem_append_left _ hx, fetches⟩
    · exact .inr (.inl fun q n hm => unanswered q n (none c q n hm))
    · exact .inr (.inr ⟨(records c).own own, (records c).filled filled⟩)

theorem fine (h : Matches f k s) {e : Slot} {l : Access} (act : FineAct P e l s t) : Matches f k t := by
  cases act.effect with
  | none ch => exact h.frame act.sameId (by rw [ch]) (by rw [ch]; exact h.tx) act.noneHandled
  | note _ ch => exact h.frame act.sameId (by rw [ch]) (by rw [ch]; exact h.tx) act.noneHandled
  | put at' d _ loc cb ch =>
    have other (c : Slot) : ¬d.fetches c := cb c
    have fifo : (t.ch .tx).fifo = ((s.put at' d).ch .tx).fifo := by rw [ch]
    have tx : ∀ x ∈ (t.ch .tx).fifo, ∀ c, ¬x.fetches c := by
      rw [fifo, fifo_put]
      intro x hx
      split at hx
      · rcases List.mem_append.mp hx with old | new
        · exact h.tx x old
        · exact List.mem_singleton.mp new ▸ other
      · exact h.tx x hx
    cases at' with
    | rx =>
      exact h.put (fun c => iff_of_false (loc c) (other c)) (fun c fetches => absurd fetches (other c)) act.sameId (by rw [ch])
        tx act.noneHandled
    | tx =>
      have rx : (s.put .tx d).ch .rx = s.ch .rx := Fw.put_ch_of_ne s d (by decide)
      exact h.frame act.sameId (by rw [ch, rx]) tx act.noneHandled

/-- The head of the receiving channel is taken off; if it is a fetch, its entry is prepared with that. -/
theorem get {d : Desc} {rest : List Desc} (h : Matches f k s) (other : ∀ c, ¬d.fetches c) (fifo : (s.ch .rx).fifo = d :: rest) :
    Matches f .popped (s.get .rx) := by
  have after : ((s.get .rx).ch .rx).fifo = rest := by rw [fifo_get fifo, if_pos rfl]
  have cmds : (s.get .rx).cmds = s.cmds := Fw.get_cmds ..
  have trace : (s.get .rx).trace = .called .rx d :: s.trace := by rw [get_eq fifo]; rfl
  have mem {x : Desc} (hx : x ∈ ((s.get .rx).ch .rx).fifo) : x ∈ (s.ch .rx).fifo := by
    rw [after] at hx
    rw [fifo]
    exact List.mem_cons_of_mem _ hx
  have tx : ((s.get .rx).ch .tx).fifo = (s.ch .tx).fifo := by rw [fifo_get fifo, if_neg (by decide)]
  refine ⟨fun x hx => h.loc x (mem hx), fun x hx => cmds ▸ h.queue x (mem hx), by rw [tx]; exact h.tx,
    fun stage => absurd rfl stage, fun stage => absurd rfl stage, fun c => ?_⟩
  rcases h.held c with ⟨x, hx, fetches⟩ | unanswered | matched
  · rw [fifo] at hx
    rcases List.mem_cons.mp hx with rfl | later
    · exact absurd fetches (other c)
    · exact .inl ⟨x, by rwa [after], fetches⟩
  · exact .inr (.inl fun q n hm => unanswered q n (noneHandled_cons trace (by simp) c q n hm))
  · rw [Own, cmds]
    exact .inr (.inr matched)

theorem getHandled {d : Desc} {rest : List Desc} {c : Slot} (h : Matches f k s) (stage : k ≠ .popped)
    (idle : (s.ch .rx).programmed = none) (fetches : d.fetches c) (fifo : (s.ch .rx).fifo = d :: rest) :
    Matches f .popped ((s.get .rx).handled c) := by
  have after : (((s.get .rx).handled c).ch .rx).fifo = rest := by
    change ((s.get .rx).ch .rx).fifo = rest
    rw [fifo_get fifo, if_pos rfl]
  have cmds : (s.get .rx).cmds = s.cmds := Fw.get_cmds ..
  have here : ((s.get .rx).handled c).cmds c =
      { s.cmds c with cqBuf := { sqHead := (s.get .rx).tc.sqHead (s.cmds c).qid, cid := (s.cmds c).sqBuf.cid } } := by
    simp only [Fw.handled, Fw.note, Fw.setCmd, Function.update_self, cmds]
  have elsewhere {e : Slot} (ne : e ≠ c) : ((s.get .rx).handled c).cmds e = s.cmds e := by
    simp only [Fw.handled, Fw.note, Fw.setCmd, Function.update_of_ne ne, cmds]
  have qid (e : Slot) : (((s.get .rx).handled c).cmds e).qid = (s.cmds e).qid := by
    by_cases same : e = c
    · rw [same, here]
    · rw [elsewhere same]
  have mem {x : Desc} (hx : x ∈ (((s.get .rx).handled c).ch .rx).fifo) : x ∈ (s.ch .rx).fifo := by
    rw [after] at hx
    rw [fifo]
    exact List.mem_cons_of_mem _ hx
  have tx : (((s.get .rx).handled c).ch .tx).fifo = (s.ch .tx).fifo := by
    change ((s.get .rx).ch .tx).fifo = (s.ch .tx).fifo
    rw [fifo_get fifo, if_neg (by decide)]
  refine ⟨fun x hx => h.loc x (mem hx), fun x hx e fetches => ?_, by rw [tx]; exact h.tx, fun stage => absurd rfl stage,
    fun stage => absurd rfl stage, fun e => ?_⟩
  · rw [qid]
    exact h.queue x (mem hx) e fetches
  · by_cases same : e = c
    · subst same
      have own := h.copied stage idle d rest e fifo fetches
      rw [Own, here]
      exact .inr (.inr ⟨own, rfl, rfl, rfl⟩)
    · rcases h.held e with ⟨x, hx, waits⟩ | unanswered | matched
      · rw [fifo] at hx
        rcases List.mem_cons.mp hx with rfl | later
        · exact absurd (Prod.mk.inj (Option.some.inj (waits.symm.trans fetches))).2 same
        · exact .inl ⟨x, by rwa [after], waits⟩
      · refine .inr (.inl fun q n hm => unanswered q n ?_)
        have trace : (s.get .rx).trace = .called .rx d :: s.trace := by rw [get_eq fifo]; rfl
        rcases mem_past_cons hm with event | old
        · exact absurd (Obs.handled.inj event).1 same
        · exact noneHandled_cons trace (by simp) e q n old
      · rw [Own, elsewhere same]
        exact .inr (.inr matched)

/-- The next transfer is started, or the channel is idle. -/
theorem restart (h : Matches f k s) : Matches f .steady (s.restart .rx) := by
  have fifo (ch : Chan) := fifo_restart s .rx ch
  refine ⟨by rw [fifo]; exact h.loc, by rw [fifo]; exact h.queue, by rw [fifo]; exact h.tx, fun _ running empty => ?_,
    fun _ idle d rest c queue => ?_, by rw [fifo]; exact h.held⟩
  · rw [fifo] at empty
    simp only [Fw.restart, Fw.setCh, Function.update_self, empty] at running
    cases running
  · rw [fifo] at queue
    simp only [Fw.restart, Fw.setCh, Function.update_self, queue] at idle
    cases idle

/-- A transfer finishes, possibly the copy of an entry. -/
theorem finish {ch : Chan} {left : List Desc} (h : Matches f .steady s) (phase : (s.ch .rx).Phase .steady left)
    (finish : s.finish P ch = some t) : Matches (fun c => (s.copies (.dmaDone ch) c).or (f c)) .steady t := by
  obtain ⟨d, done⟩ := Fw.finished_of_finish finish
  have none : NoneHandled s t := noneHandled_cons done.trace (by simp)
  cases ch with
  | tx =>
    have records (c : Slot) : SameId (s.cmds c) (t.cmds c) := by
      rcases done.cmds c with same | ⟨rx, -⟩
      · rw [same]
        exact .refl _
      · cases rx
    have fifo : (t.ch .tx).fifo = (s.ch .tx).fifo := by rw [done.ch_self]
    exact h.frame records (done.ch_of_ne (by decide)) (by rw [fifo]; exact h.tx) none
  | rx =>
    obtain ⟨rest, -, fifo, -⟩ := phase.finish done.programmed
    have channel := done.ch_self
    have copies (c : Slot) : s.copies (.dmaDone .rx) c =
        if d.localAddr = .sqBuf c then some (d.queue, SqBuf.ofBytes s.host d.hostAddr) else .none := by
      simp only [Fw.copies, done.programmed]
    have records (c : Slot) : (t.cmds c).qid = (s.cmds c).qid := by
      rcases done.cmds c with same | ⟨-, -, same⟩ <;> rw [same]
    have mem : d ∈ (s.ch .rx).fifo := by
      rw [fifo]
      exact List.mem_cons_self
    have queue : (t.ch .rx).fifo = (s.ch .rx).fifo := by rw [channel]
    have tx : t.ch .tx = s.ch .tx := done.ch_of_ne (by decide)
    refine ⟨by rw [queue]; exact h.loc, fun x hx c fetches => ?_, by rw [tx]; exact h.tx, by rw [channel]; exact h.running,
      fun _ _ x xs c head fetches => ?_, fun c => ?_⟩
    · rw [queue] at hx
      rw [records]
      exact h.queue x hx c fetches
    · rw [queue, fifo] at head
      obtain ⟨rfl, -⟩ := List.cons.inj head
      have loc := (h.loc d mem c).mpr fetches
      refine ⟨SqBuf.ofBytes s.host d.hostAddr, ?_, ?_⟩
      · dsimp only
        rw [copies, if_pos loc, records, (h.queue d mem c fetches).2]
        rfl
      · rw [Fw.copied_of_finish done.programmed loc finish]
    · by_cases loc : d.localAddr = .sqBuf c
      · exact .inl ⟨d, queue ▸ mem, (h.loc d mem c).mp loc⟩
      · rcases h.held c with ⟨x, hx, fetches⟩ | unanswered | ⟨own, filled⟩
        · exact .inl ⟨x, queue ▸ hx, fetches⟩
        · exact .inr (.inl fun q n hm => unanswered q n (none c q n hm))
        · have same : t.cmds c = s.cmds c := (done.cmds c).resolve_right fun other => loc other.2.1
          rw [Own, copies, if_neg loc, same]
          exact .inr (.inr ⟨own, filled⟩)

/-- A slot that nothing is queued for is taken. -/
theorem taken (h : Matches f k s) (free : ∀ d ∈ (s.ch .rx).fifo, ¬d.fetches c) (others : ∀ e, e ≠ c → t.cmds e = s.cmds e)
    (ch : t.ch = s.ch) (unanswered : ∀ q n, .handled c q n ∉ past c t.trace) (none : NoneHandled s t) : Matches f k t := by
  refine ⟨by rw [ch]; exact h.loc, fun d hd e fetches => ?_, by rw [ch]; exact h.tx, by rw [ch]; exact h.running,
    fun stage idle d rest e fifo fetches => ?_, fun e => ?_⟩
  · rw [ch] at hd
    have ne : e ≠ c := fun same => free d hd (same ▸ fetches)
    rw [others e ne]
    exact h.queue d hd e fetches
  · rw [ch] at idle fifo
    have mem : d ∈ (s.ch .rx).fifo := by
      rw [fifo]
      exact List.mem_cons_self
    have ne : e ≠ c := fun same => free d mem (same ▸ fetches)
    rw [Own, others e ne]
    exact h.copied stage idle d rest e fifo fetches
  · by_cases same : e = c
    · exact .inr (.inl (same ▸ unanswered))
    · rcases h.held e with waits | old | matched
      · exact .inl (by rwa [ch])
      · exact .inr (.inl fun q n hm => old q n (none e q n hm))
      · rw [Own, others e same]
        exact .inr (.inr matched)

/-- An announced entry gets a slot that is not in use. -/
theorem fetch {q : QId} (h : Matches f .steady s) (outcome : FetchOutcome P q s t) (between : ∀ c, Between P c s) :
    Matches f .steady t := by
  have free {c : Slot} (fresh : c ∉ s.cmdSlab.used) : ∀ d ∈ (s.ch .rx).fifo, ¬d.fetches c := by
    intro d mem fetches
    obtain ⟨-, plain, -⟩ := (between c).free fresh
    have none := (plain d (List.mem_filter.mpr ⟨mem, decide_eq_true (h.queue d mem c fetches).1⟩)).1
    rw [fetches] at none
    cases none
  have opened (c : Slot) (q' : QId) (n : Nat) : .handled c q' n ∉ past c (.cmdAlloc c q :: s.trace) := by
    rw [past_opened rfl rfl]
    simp
  cases outcome with
  | skipped => exact h.frame (fun _ => .refl _) rfl h.tx (noneHandled_cons rfl (by simp))
  | @lost c slab clock _ fresh used =>
    refine h.taken (free fresh) (fun e ne => Function.update_of_ne ne ..) rfl (fun q' n mem => ?_) fun c' q' n mem => ?_
    · refine opened c q' n ?_
      exact (mem_past_cons ((mem_past_cons mem).resolve_left nofun)).resolve_left nofun
    · exact (mem_past_cons ((mem_past_cons ((mem_past_cons mem).resolve_left nofun)).resolve_left nofun)).resolve_left nofun
  | @fetched c d t fetched =>
    obtain ⟨loc, cb, owner, queue, -⟩ := fetched.desc
    obtain ⟨slab, slab', clock, used, -, rfl⟩ := fetched.state
    have taken : Matches f .steady { AlkaliFw.taken s q c slab with descSlab := slab', clock := clock } :=
      h.taken (free fetched.fresh) (fun e ne => Function.update_of_ne ne ..) rfl (opened c)
        (noneHandled_cons rfl (by simp))
    refine taken.put (fun e => ?_) (fun e fetches => ?_) (fun _ => .refl _) rfl ?_ (noneHandled_cons rfl (by simp))
    · rw [loc, Desc.fetches, cb]
      simp
    · obtain rfl : c = e := (Prod.mk.inj (Option.some.inj (cb.symm.trans fetches))).2
      have cmd : (AlkaliFw.taken s q c slab).cmds c = { qid := q } := Function.update_self ..
      exact ⟨owner, queue.trans (congrArg NvmeCmdPriv.qid cmd).symm⟩
    · rw [Fw.put_ch_of_ne _ _ (by decide)]
      exact taken.tx

/-- Code made of actions for a command. -/
theorem acts {p : Code Unit} {e : Slot} (h : Matches f k s) (acts : p.Acts Fitted (FineAct P e)) (fit : Fitted s)
    (run : p.run s = some ((), t)) : Matches f k t := by
  have closed : ∀ l u v, FineAct P e l u v → Matches f k u ∧ Fitted u → Matches f k v ∧ Fitted v :=
    fun l u v act hu => ⟨hu.1.fine act, fitted_closed.fine e l u v act hu.2⟩
  have guard : ∀ u : Fw, Matches f k u ∧ Fitted u → Fitted u := fun _ hu => hu.2
  exact (acts.run guard closed ⟨h, fit⟩ run).1

end Matches

/-- The DMA engine and the slots inside of the interrupt handler. -/
def Matching (f : Slot → Option (QId × SqBuf)) (k : Chan → Channel.Stage) (s : Fw) : Prop :=
  Engine [] k s ∧ Matches f (k .rx) s

/-- A callback other than the handler of a fetched entry. -/
theorem Matches.called {d : Desc} (h : Matches f k s) (other : ∀ c, ¬d.fetches c) (fit : Fitted s)
    (run : (runCallback (callback P) d).run s = some ((), t)) : Matches f k t := by
  unfold runCallback at run
  split at run
  · rename_i cb c e
    refine h.acts (made_callback P c ?_ d.localAddr).acts fit run
    rintro rfl
    exact other c e
  · cases run
    exact h

theorem matching_serves : Serves P (Matching f) where
  nonempty k ch s taken h := (engine_serves (P := P)).nonempty k ch s taken h.1
  served k ch s d rest u taken fifo h run := by
    obtain ⟨engine, h⟩ := h
    refine ⟨engine_serves.served k ch s d rest u taken fifo engine run, ?_⟩
    have fit : Fitted (s.get ch) := fun c => by
      rw [Fw.get_cmds]
      exact engine.fitted c
    have release {k : Channel.Stage} (hu : Matches f k u) : Matches f k (u.release d) :=
      hu.frame (fun _ => .refl _) rfl hu.tx (noneHandled_cons rfl (by simp))
    have mem : d ∈ (s.ch ch).fifo := by
      rw [fifo]
      exact List.mem_cons_self
    cases ch with
    | tx =>
      have rx : Chan.rx ≠ .tx := by decide
      have got : Matches f (k .rx) (s.get .tx) := by
        refine h.frame (fun c => by rw [Fw.get_cmds]; exact .refl _) ?_ (fun x hx => ?_) ?_
        · rw [get_eq fifo]
          simp only [Fw.note, Fw.setCh, Function.update_of_ne rx]
        · rw [fifo_get fifo, if_pos rfl] at hx
          exact h.tx x (by rw [fifo]; exact List.mem_cons_of_mem _ hx)
        · exact noneHandled_cons (o := .called .tx d) (by rw [get_eq fifo]; rfl) (by simp)
      have done := release (got.called (h.tx d mem) fit run)
      rw [Function.update_of_ne rx]
      refine done.frame (fun _ => .refl _) ?_ ?_ fun _ _ _ => id
      · simp only [Fw.restart, Fw.setCh, Function.update_of_ne rx]
      · rw [fifo_restart]
        exact done.tx
    | rx =>
      rw [Function.update_self]
      by_cases fetch : ∃ c, d.fetches c
      · obtain ⟨c, fetches⟩ := fetch
        have idle : (s.ch .rx).programmed = none := by
          obtain ⟨left, phase, -⟩ := (engine.tracked .rx).phase
          rw [taken] at phase
          generalize s.ch .rx = channel at phase
          cases phase
          rfl
        have handled := h.getHandled (by rw [taken]; decide) idle fetches fifo
        rw [runCallback, show d.callback = some (.nvmeCmdHandler, c) from fetches] at run
        change (callback P .nvmeCmdHandler c d.localAddr).run _ = _ at run
        rw [callback, nvmeCmdHandler_eq, Prog.run_bind] at run
        exact (release (handled.acts (made_dispatch P c).acts (fitted_closed.handled (P := P) c _ fit) run)).restart
      · have other (c : Slot) : ¬d.fetches c := fun fetches => fetch ⟨c, fetches⟩
        exact (release ((h.get other fifo).called other fit run)).restart

theorem fetchedInto_other {past : History} {e : Event} (none : ∀ c, s.copies e c = none) :
    fetchedInto ((s, e) :: past) = fetchedInto past := by
  funext c
  rw [fetchedInto, List.findSome?_cons, none c]
  rfl

theorem AtomicRun.matches {host ram : Nat → UInt8} {past : History} (run : AtomicRun P (Sys.boot host ram).fw past s) :
    Matches (fetchedInto past) .steady s := by
  induction run with
  | start => exact ⟨nofun, nofun, nofun, nofun, nofun, fun c => .inr (.inl fun q n => nofun)⟩
  | @step past s t e run next ih =>
    have engine := run.engine
    have between (c : Slot) : Between P c s := .inr (run.standing c)
    rcases Fw.whole_cases next with env | ⟨i, withData, m, rfl, -, answer⟩
    · cases e with
      | hostWrite reg value =>
        cases env
        rw [fetchedInto_other fun _ => rfl]
        exact ih.congr rfl rfl rfl
      | hostStore addr bytes =>
        cases env
        rw [fetchedInto_other fun _ => rfl]
        exact ih.congr rfl rfl rfl
      | apuStore addr bytes =>
        cases env
        rw [fetchedInto_other fun _ => rfl]
        exact ih.congr rfl rfl rfl
      | dmaDone ch =>
        obtain ⟨left, phase, -⟩ := (engine.tracked .rx).phase
        have copied := ih.finish phase env
        have history : fetchedInto ((s, .dmaDone ch) :: past) = fun c => (s.copies (.dmaDone ch) c).or (fetchedInto past c) := by
          funext c
          rw [fetchedInto, List.findSome?_cons]
          cases s.copies (.dmaDone ch) c <;> rfl
        rwa [history]
      | tcIrq =>
        obtain ⟨⟨⟨⟩, _⟩, irq, rfl⟩ := Option.map_eq_some_iff.mp env
        rw [fetchedInto_other fun _ => rfl]
        refine tcIrq_induct (fun l u v act hu => ?_) (fun q u v outcome between hu => hu.fetch outcome between) engine.fitted between ih irq
        have view (c : Slot) := act.view (c := c)
        have records (c : Slot) : v.cmds c = u.cmds c := congrArg View.priv (view c)
        refine hu.frame (fun c => records c ▸ .refl _) (by rw [act.effect.1]) (by rw [act.effect.1]; exact hu.tx) fun c q n mem => ?_
        rwa [← act.effect.2]
      | dmaIrq =>
        obtain ⟨⟨⟨⟩, _⟩, irq, rfl⟩ := Option.map_eq_some_iff.mp env
        rw [fetchedInto_other fun _ => rfl]
        have start : Matching (fetchedInto past) s.stages s.takeBoth := by
          refine ⟨⟨engine.fitted, fun ch => (engine.tracked ch).take, engine.freed⟩, ?_⟩
          exact ⟨ih.loc, ih.queue, ih.tx, fun _ => ih.running (by decide), fun _ => ih.copied (by decide), ih.held⟩
        exact (matching_serves.irq start irq).2
      | reply i withData => cases env
      | poll => cases env
    · rw [fetchedInto_other fun _ => rfl]
      have taken : Matches (fetchedInto past) .steady { s with apu := s.apu.eraseIdx i } := ih.congr rfl rfl rfl
      exact taken.acts (made_rpmsgEndpointCb P _).acts engine.fitted answer

end Matching
section Rings

variable {P : Platform} {V : Fw → Prop} {c : Slot} {s t : Fw}

/-- An action inside the interrupt handler of the DMA engine, `nvme_cmd_return` apart. -/
inductive EngineAct (P : Platform) : Access → Fw → Fw → Prop where
  | status (ch : Chan) (s : Fw) : EngineAct P .other s (s.setCh ch fun c => { c with valid := false })
  | get (ch : Chan) (s : Fw) : EngineAct P .other s (s.get ch)
  | descFree (b : Nat) (s : Fw) :
      EngineAct P .other s (Fw.note { s with descSlab := s.descSlab.free b } (.descFree b))
  | restart (ch : Chan) (s : Fw) : EngineAct P .other s (s.restart ch)
  | handled (c : Slot) (s : Fw) : EngineAct P (.cmd c) s (s.handled c)
  | cmd {c : Slot} {l : Access} {s t : Fw} (act : CmdAct P c l s t) : EngineAct P l s t

/-- Code in which `nvme_cmd_return` counts as one step, for any command. -/
def Returning (P : Platform) {α : Type} (p : Code α) : Prop :=
  p.Over Fitted (EngineAct P) fun q => ∃ c, q = nvmeCmdReturn P c

theorem MadeOf.returning {α : Type} {p : Code α} (h : Made P c p) : Returning P p :=
  Prog.Over.imp h (fun _ _ _ => .cmd) fun _ same => ⟨c, same⟩

theorem returning_callback (cb : Cb) (c : Slot) (loc : Local) : Returning P (callback P cb c loc) := by
  by_cases handler : cb = .nvmeCmdHandler
  · rw [handler]
    exact Prog.over_bind (Prog.over_change fun s => .handled c s) fun _ => (made_dispatch P c).returning
  · exact (made_callback P c handler loc).returning

/-- The handler of the DMA engine is made of what its callbacks are made of. -/
theorem over_nvmeDmaIrqHandler {R : Access → Fw → Fw → Prop} {call : Code Unit → Prop}
    (status : ∀ ch s, R .other s (s.setCh ch fun c => { c with valid := false })) (get : ∀ ch s, R .other s (s.get ch))
    (descFree : ∀ b s, R .other s (Fw.note { s with descSlab := s.descSlab.free b } (.descFree b))) (restart : ∀ ch s, R .other s (s.restart ch))
    (code : ∀ cb c loc, (callback P cb c loc).Over Fitted R call) : (nvmeDmaIrqHandler (callback P)).Over Fitted R call := by
  have complete (ch : Chan) : (nvmeDmaComplete (callback P) ch).Over Fitted R call := by
    refine Prog.over_swap_bind (get ch) fun s => Prog.over_bind ?_ fun _ => Prog.over_change (restart ch)
    cases (s.ch ch).fifo.head? with
    | none => exact Prog.over_pure _
    | some d =>
      refine Prog.over_bind ?_ fun _ => Prog.over_change (descFree d.desc)
      unfold runCallback
      split
      · exact code _ _ _
      · exact Prog.over_pure _
  refine Prog.over_swap_bind (status .rx) fun _ => Prog.over_swap_bind (status .tx) fun _ => ?_
  refine Prog.over_bind (Prog.over_when fun _ => complete .rx) fun _ => ?_
  exact Prog.over_when fun _ => complete .tx

theorem returning_nvmeDmaIrqHandler : Returning P (nvmeDmaIrqHandler (callback P)) :=
  over_nvmeDmaIrqHandler .status .get .descFree .restart returning_callback

theorem qid_update {p : NvmeCmdPriv} (h : p.qid = (s.cmds c).qid) (e : Slot) :
    (Function.update s.cmds c p e).qid = (s.cmds e).qid := by
  by_cases same : e = c
  · rw [same, Function.update_self, h]
  · rw [Function.update_of_ne same]

/-- A return posts an entry in the next slot of the command's own queue, or none at all. -/
theorem entry_of_return (run : (nvmeCmdReturn P c).run s = some ((), t)) :
    (∀ e, (t.cmds e).qid = (s.cmds e).qid) ∧
      ((t.ch .tx).fifo = (s.ch .tx).fifo ∨ ∃ d, d.callback = some (.cqCb, c) ∧ d.owner = c ∧
        d.hostAddr = s.tc.cqNext (s.cmds c).qid ∧ (t.ch .tx).fifo = (s.ch .tx).fifo ++ [d]) := by
  rcases Nat.eq_zero_or_pos (s.tc.cqSize (s.cmds c).qid) with zero | ring
  · simp [nvmeCmdReturn, nvmeTcGetCqAddr, Prog.run_bind, ofCmd, zero] at run
  · have addr := run_nvmeTcGetCqAddr ring
    simp only [nvmeCmdReturn, lose, loseUnless, nvmeDmaXferMemToHost, Prog.run_bind, ofCmd, setCmd, Prog.run_look,
      Option.bind_some, addr] at run
    split at run
    · simp only [if_true, Prog.run_change] at run
      cases run
      exact ⟨fun _ => rfl, .inl rfl⟩
    · dsimp only at run
      split at run
      · cases run
        exact ⟨fun _ => rfl, .inl rfl⟩
      · simp only [Prog.run_bind, Prog.run_look, Prog.run_change, Option.bind_some] at run
        generalize hu : (s.setTc _).setCmd c _ = u at run
        have qid (e : Slot) : (u.cmds e).qid = (s.cmds e).qid := by
          rw [← hu]
          refine qid_update (s := s) ?_ e
          rfl
        have fifo : (u.ch .tx).fifo = (s.ch .tx).fifo := by
          rw [← hu]
          rfl
        rcases run_nvmeDmaXfer P .tx 0x55 (s.tc.cqNext (s.cmds c).qid) (.cqBuf c) nvmeTcCqEntrySize (some (.cqCb, c)) c u with
          ⟨block, slab, put, -⟩ | ⟨none, -⟩
        · rw [NvmeTcPriv.cqNext] at put
          rw [put] at run
          cases run
          refine ⟨qid, .inr ⟨⟨some (.cqCb, c), s.tc.cqNext (s.cmds c).qid, .cqBuf c, nvmeTcCqEntrySize, 0x55, block, c,
            (u.cmds c).qid⟩, rfl, rfl, rfl, ?_⟩⟩
          rw [Fw.put_ch_self]
          exact congrArg (· ++ [_]) fifo
        · rw [NvmeTcPriv.cqNext] at none
          rw [none] at run
          cases run
          exact ⟨qid, .inl fifo⟩

/-- Entries under way go to the ring of their own queue, as it was in a state where `V` holds. -/
def Destined (V : Fw → Prop) (s : Fw) : Prop :=
  ∀ d ∈ (s.ch .tx).fifo, ∀ c, d.callback = some (.cqCb, c) → d.owner = c ∧ ∃ r, V r ∧ d.hostAddr = r.tc.cqNext (s.cmds c).qid

theorem Destined.frame (h : Destined V s) (fifo : ∀ d ∈ (t.ch .tx).fifo, ∀ c, d.callback = some (.cqCb, c) → d ∈ (s.ch .tx).fifo)
    (qid : ∀ c, (t.cmds c).qid = (s.cmds c).qid) : Destined V t := by
  intro d mem c cb
  rw [qid]
  exact h d (fifo d mem c cb) c cb

theorem CmdAct.destined {e : Slot} {l : Access} (act : CmdAct P e l s t) (h : Destined V s) : Destined V t := by
  have qid (c : Slot) := ((FineAct.own act).sameId c).qid
  cases act with
  | @put ch d s shape =>
    refine h.frame (fun x hx c cb => ?_) qid
    rw [fifo_put] at hx
    split at hx
    · refine (List.mem_append.mp hx).resolve_right fun new => ?_
      obtain rfl := List.mem_singleton.mp new
      cases shape with
      | list _ list =>
        rw [list] at cb
        cases cb
      | data _ data =>
        rcases data with none | ⟨f, ends, some'⟩
        · rw [none] at cb
          cases cb
        · rw [some'] at cb
          cases cb
          exact ends
    · exact hx
  | queue update => cases update <;> exact h.frame (fun _ mem _ _ => mem) qid
  | _ => exact h.frame (fun _ mem _ _ => mem) qid

theorem EngineAct.destined {l : Access} (act : EngineAct P l s t) (h : Destined V s) : Destined V t := by
  cases act with
  | status ch s =>
    refine h.frame (fun d mem _ _ => ?_) fun _ => rfl
    cases ch <;> exact mem
  | get ch s =>
    refine h.frame (fun d mem _ _ => ?_) fun c => by rw [Fw.get_cmds]
    cases fifo : (s.ch ch).fifo with
    | nil =>
      rw [Fw.get, fifo] at mem
      exact mem
    | cons x rest =>
      rw [fifo_get fifo] at mem
      split at mem
      · rename_i same
        rw [same, fifo]
        exact List.mem_cons_of_mem _ mem
      · exact mem
  | descFree b s => exact h
  | restart ch s => exact h.frame (fun d mem _ _ => by rwa [fifo_restart] at mem) fun _ => rfl
  | handled c s =>
    refine h.frame (fun _ mem _ _ => mem) fun e => qid_update (s := s) ?_ e
    rfl
  | cmd act => exact act.destined h

theorem EngineAct.dma {l : Access} (act : EngineAct P l s t) : DmaAct P l s t := by
  cases act with
  | status ch => exact .status ch s
  | get ch => exact .get ch s
  | descFree b => exact .descFree b s
  | restart ch => exact .restart ch s
  | handled c => exact .handled c s
  | cmd act => exact .cmd (.own act)

/-- Code posts in the rings of states that it passes through. -/
theorem Returning.destined {p : Code Unit} (h : Returning P p) (visits : ∀ u ∈ p.states s, V u) (fit : Fitted s)
    (hs : Destined V s) (run : p.run s = some ((), t)) : Destined V t := by
  have act : ∀ l u v, EngineAct P l u v → Destined V u ∧ Fitted u → Destined V v ∧ Fitted v :=
    fun l u v act hu => ⟨act.destined hu.1, fitted_closed.dma act.dma hu.2⟩
  have whole : ∀ q u v, (∃ c, q = nvmeCmdReturn P c) → q.run u = some ((), v) → V u → Destined V u ∧ Fitted u →
      Destined V v ∧ Fitted v := by
    rintro _ u v ⟨c, rfl⟩ ret here ⟨hu, fit⟩
    refine ⟨?_, (acts_nvmeCmdReturn P c).run (fun _ h => h) (fitted_closed.fine c) fit ret⟩
    obtain ⟨qid, same | ⟨d, cb, owner, host, fifo⟩⟩ := entry_of_return ret
    · exact hu.frame (fun _ mem _ _ => same ▸ mem) qid
    · intro x mem e cbx
      rw [fifo] at mem
      rcases List.mem_append.mp mem with old | new
      · rw [qid]
        exact hu x old e cbx
      · obtain rfl := List.mem_singleton.mp new
        obtain rfl : c = e := (Prod.mk.inj (Option.some.inj (cb.symm.trans cbx))).2
        rw [qid]
        exact ⟨owner, u, here, host⟩
  exact (Prog.Over.run_states h (fun _ h => h.2) act whole visits ⟨hs, fit⟩ run).1

theorem Destined.fetch {q : QId} (h : Destined V s) (outcome : FetchOutcome P q s t) (between : ∀ c, Between P c s) : Destined V t := by
  -- no entry is under way for a slot that is not in use
  have used {c e : Slot} (fresh : c ∉ s.cmdSlab.used) {d : Desc} (mem : d ∈ (s.ch .tx).fifo) (cb : d.callback = some (.cqCb, e)) :
      e ≠ c := by
    rintro rfl
    obtain ⟨-, -, none, -⟩ := (between e).free fresh
    have here : d ∈ (s.view e).queue .tx := List.mem_filter.mpr ⟨mem, decide_eq_true (h d mem e cb).1⟩
    rw [none] at here
    cases here
  have taken {c : Slot} (fresh : c ∉ s.cmdSlab.used) {u : Fw} (cmds : ∀ e, e ≠ c → u.cmds e = s.cmds e)
      (fifo : (u.ch .tx).fifo = (s.ch .tx).fifo) : Destined V u := by
    intro d mem e cb
    rw [fifo] at mem
    rw [cmds e (used fresh mem cb)]
    exact h d mem e cb
  cases outcome with
  | skipped => exact h
  | lost _ fresh _ => exact taken fresh (fun e ne => Function.update_of_ne ne ..) rfl
  | fetched fetched =>
    obtain ⟨slab, slab', clock, -, -, rfl⟩ := fetched.state
    refine taken fetched.fresh (fun e ne => Function.update_of_ne ne ..) ?_
    rw [Fw.put_ch_of_ne _ _ (by decide)]
    rfl

theorem AtomicRun.destined {host ram : Nat → UInt8} {past : History} (run : AtomicRun P (Sys.boot host ram).fw past s) :
    Destined (Visited P past) s := by
  induction run with
  | start => exact nofun
  | @step past s t e run next ih =>
    have engine := run.engine
    have between (c : Slot) : Between P c s := .inr (run.standing c)
    have more : Destined (Visited P ((s, e) :: past)) s := by
      intro d mem c cb
      obtain ⟨owner, r, ⟨x, hx, passed⟩, host⟩ := ih d mem c cb
      exact ⟨owner, r, ⟨x, List.mem_cons_of_mem _ hx, passed⟩, host⟩
    have visits {p : Code Unit} {u : Fw} (code : s.code P e = some (p, u)) : ∀ r ∈ p.states u, Visited P ((s, e) :: past) r := by
      intro r mem
      refine ⟨(s, e), List.mem_cons_self, ?_⟩
      rw [Fw.passes, code]
      exact mem
    rcases Fw.whole_cases next with env | ⟨i, withData, m, rfl, request, answer⟩
    · cases e with
      | hostWrite reg value =>
        cases env
        exact more
      | hostStore addr bytes =>
        cases env
        exact more
      | apuStore addr bytes =>
        cases env
        exact more
      | dmaDone ch =>
        obtain ⟨d, done⟩ := Fw.finished_of_finish env
        refine more.frame (fun x mem _ _ => ?_) fun c => ?_
        · by_cases here : Chan.tx = ch
          · subst here
            rwa [done.ch_self] at mem
          · rwa [done.ch_of_ne here] at mem
        · rcases done.cmds c with same | ⟨-, -, same⟩ <;> rw [same]
      | tcIrq =>
        obtain ⟨⟨⟨⟩, _⟩, irq, rfl⟩ := Option.map_eq_some_iff.mp env
        refine tcIrq_induct (fun l u v act hu => ?_) (fun q u v outcome between hu => hu.fetch outcome between) engine.fitted between more irq
        refine hu.frame (fun d mem _ _ => by rwa [act.effect.1] at mem) fun c => ?_
        exact congrArg (fun v : View => v.priv.qid) (act.view (c := c))
      | dmaIrq =>
        obtain ⟨⟨⟨⟩, _⟩, irq, rfl⟩ := Option.map_eq_some_iff.mp env
        exact returning_nvmeDmaIrqHandler.destined (visits rfl) engine.fitted more irq
      | reply i withData => cases env
      | poll => cases env
    · refine (made_rpmsgEndpointCb P _).returning.destined (visits ?_) engine.fitted (s := { s with apu := s.apu.eraseIdx i }) more answer
      simp only [Fw.code, request, Option.map_some]

end Rings
/-- Host memory with commands that create completion and submission queue 1, and a flush in the latter. -/
def createThenFlush : Nat → UInt8 := fun a =>
  if a = 0x10000 then 5 else if a = 0x1001A then 3 else if a = 0x10028 then 1 else if a = 0x1002A then 15
  else if a = 0x10040 then 1 else if a = 0x1005A then 4 else if a = 0x10068 then 1 else if a = 0x1006A then 15
  else if a = 0x40002 then 7 else 0

def flushed : List Event :=
  setUp ++ [.hostWrite (doorbellTail 0 / 4) 2, .tcIrq, .dmaDone .rx, .dmaIrq, .dmaDone .rx, .dmaIrq, .dmaDone .tx, .dmaIrq,
    .dmaDone .tx, .dmaIrq, .hostWrite (doorbellTail 1 / 4) 1, .tcIrq, .dmaDone .rx, .dmaIrq]

end AlkaliFw
