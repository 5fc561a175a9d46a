import AlkaliFw.Standing

/-! The code of a command hands it on. Each function is followed action by action, with the
other contexts in between: in an interrupt handler nothing happens there, in the polling
thread whatever leaves the command's standing as it is. -/

namespace AlkaliFw
open Resumption

section Rules

variable {P : Platform} {c : Slot} {f : Cb} {F : Cb → Prop} {p : NvmeCmdPriv} {h : List Obs} {k : Chan → Prop} {n : Nat} {s : Fw}

theorem stable_owing (l : Access) (own : ∀ q, l = .ring q → p.qid = q) :
    Prog.Stable (fun _ => Leaves P c F) (Turn P c) l (fun s : Fw => Owing p h k (s.view c)) :=
  ⟨fun _ _ o leaves => leaves.owing p h k o, fun _ o => ⟨.inl ⟨p, h, k, o⟩, fun q ring => ⟨p, h, k, o, own q ring⟩⟩⟩

theorem stable_gone (hf : F f) (l : Access) (apart : ∀ q, l ≠ .ring q) :
    Prog.Stable (fun _ => Leaves P c F) (Turn P c) l (fun s : Fw => Gone P c f n (s.view c)) :=
  ⟨fun _ _ o leaves => leaves.gone f n hf o, fun _ o => ⟨.inr o.standing, fun q ring => absurd ring (apart q)⟩⟩

theorem stable_standing (l : Access) (apart : ∀ q, l ≠ .ring q) :
    Prog.Stable (fun _ => Leaves P c F) (Turn P c) l (fun s : Fw => Standing P c (s.view c)) :=
  ⟨fun _ _ o leaves => leaves.standing o, fun _ o => ⟨.inr o, fun q ring => absurd ring (apart q)⟩⟩

namespace Owing

variable {v : View}

theorem look {α : Type} {l : Access} {g : Fw → α} {Q : α → Fw → Prop} (o : Owing p h k (s.view c))
    (next : ∀ t, Owing p h k (t.view c) → Q (g t) t) (own : ∀ q, l = .ring q → p.qid = q := by simp) :
    Carries P c F Q (.look l g) s :=
  Prog.safe_look (stable_owing l own) o next

theorem ofCmd {α : Type} {g : NvmeCmdPriv → α} {Q : α → Fw → Prop} (o : Owing p h k (s.view c))
    (next : ∀ t, Owing p h k (t.view c) → Q (g p) t) : Carries P c F Q (AlkaliFw.ofCmd c g) s := by
  refine o.look fun t o => ?_
  have cmd : t.cmds c = p := o.priv
  rw [cmd]
  exact next t o

theorem change {l : Access} {g : Fw → Fw} {Q : Unit → Fw → Prop} (o : Owing p h k (s.view c))
    (next : ∀ t, Owing p h k (t.view c) → Q () (g t)) (own : ∀ q, l = .ring q → p.qid = q := by simp) :
    Carries P c F Q (.change l g) s :=
  Prog.safe_change (stable_owing l own) o next

theorem swap {α : Type} {l : Access} {g : Fw → α × Fw} {Q : α → Fw → Prop} (o : Owing p h k (s.view c))
    (next : ∀ t, Owing p h k (t.view c) → Q (g t).1 (g t).2) (own : ∀ q, l = .ring q → p.qid = q := by simp) :
    Carries P c F Q (.swap l g) s :=
  Prog.safe_swap (stable_owing l own) o next

theorem note {o : Obs} (w : Owing p h k v) (live : o.milestone? = none) : Owing p (o :: h) k (v.note o) :=
  ⟨w.held, w.priv, congrArg _ w.past, (open_none live).mpr w.live, w.requests, w.plain, w.empty⟩

theorem noted {o : Obs} (w : Owing p h k (s.view c)) (own : o.of = some c) (later : o.opens = false)
    (live : o.milestone? = none) : Owing p (o :: h) k ((s.note o).view c) := by
  rw [view_note_own own later]
  exact w.note live

theorem assigned (g : NvmeCmdPriv → NvmeCmdPriv) (w : Owing p h k (s.view c)) :
    Owing (g p) h k ((s.setCmd c g).view c) := by
  rw [view_setCmd_own]
  exact ⟨w.held, congrArg g w.priv, w.past, w.live, w.requests, w.plain, w.empty⟩

theorem setCmd {g : NvmeCmdPriv → NvmeCmdPriv} {Q : Unit → Fw → Prop} (o : Owing p h k (s.view c))
    (next : ∀ t, Owing (g p) h k (t.view c) → Q () t) : Carries P c F Q (AlkaliFw.setCmd c g) s :=
  o.change fun _ o => next _ (o.assigned g)

theorem queued_milestone {ch : Chan} {d : Desc} (other : ∀ e, d.callback ≠ some (.cqCb, e)) :
    (Obs.queued ch d p).milestone? = none := by
  refine if_neg fun some' => ?_
  obtain ⟨⟨f, e⟩, cb, rfl⟩ := Option.map_eq_some_iff.mp some'
  exact other e cb

/-- A plain transfer joins its channel. -/
theorem put {ch : Chan} {d : Desc} (w : Owing p h k (s.view c)) (owner : d.owner = c) (cb : d.callback = none)
    (loc : ∃ a, d.localAddr = .ram a) (open' : ¬k ch) : Owing p (.queued ch d p :: h) k ((s.put ch d).view c) := by
  rw [view_put_own owner]
  refine ⟨w.held, w.priv, ?_, (open_none (queued_milestone fun e some' => ?_)).mpr w.live, w.requests, fun ch' => ?_, fun ch' empty => ?_⟩
  · simp only [View.put, w.past, w.priv]
  · rw [cb] at some'
    cases some'
  · by_cases here : ch' = ch
    · subst here
      simp only [View.put, Function.update_self]
      intro x hx
      rcases List.mem_append.mp hx with old | new
      · exact w.plain _ x old
      · rw [List.mem_singleton.mp new]
        exact ⟨cb, loc⟩
    · simp only [View.put, Function.update_of_ne here]
      exact w.plain ch'
  · have other : ch' ≠ ch := fun same => open' (same ▸ empty)
    simp only [View.put, Function.update_of_ne other]
    exact w.empty ch' empty

/-- A descriptor that is waited for joins its channel. -/
theorem waits {e : Chan} {d : Desc} (w : Owing p h k (s.view c)) (owner : d.owner = c) :
    Waits ((s.put e d).view c) e d := by
  rw [view_put_own owner]
  refine ⟨⟨_, Function.update_self .., w.plain e⟩, fun ch' other => ?_⟩
  simp only [View.put, Function.update_of_ne other]
  exact w.plain ch'

theorem queue_other {ch ch' : Chan} {d : Desc} (w : Owing p h k (s.view c)) (owner : d.owner = c) (other : ch' ≠ ch)
    (empty : k ch') : ((s.put ch d).view c).queue ch' = [] := by
  rw [view_put_own owner]
  simp only [View.put, Function.update_of_ne other]
  exact w.empty ch' empty

theorem queue_self {ch : Chan} {d : Desc} (w : Owing p h k (s.view c)) (owner : d.owner = c) (empty : k ch) :
    ((s.put ch d).view c).queue ch = [d] := by
  rw [view_put_own owner]
  simp only [View.put, Function.update_self, w.empty ch empty, List.nil_append]

theorem past_put {e : Chan} {d : Desc} (w : Owing p h k (s.view c)) (owner : d.owner = c) :
    ((s.put e d).view c).past = .queued e d p :: h := by
  rw [view_put_own owner]
  simp only [View.put, w.past, w.priv]

theorem priv_put {e : Chan} {d : Desc} (w : Owing p h k (s.view c)) (owner : d.owner = c) :
    ((s.put e d).view c).priv = p := by
  rw [view_put_own owner]
  exact w.priv

theorem held_put {ch : Chan} {d : Desc} (w : Owing p h k (s.view c)) (owner : d.owner = c) :
    ((s.put ch d).view c).held = true := by
  rw [view_put_own owner]
  exact w.held

theorem requests_put {ch : Chan} {d : Desc} (w : Owing p h k (s.view c)) (owner : d.owner = c) :
    ((s.put ch d).view c).requests = [] := by
  rw [view_put_own owner]
  exact w.requests

theorem lost (w : Owing p h k (s.view c)) (why : Loss) : Standing P c ((s.note (.lost c why)).view c) := by
  have n := w.noted (o := .lost c why) rfl rfl rfl
  exact .lost why n.held n.requests n.plain (by rw [n.past]; exact List.mem_cons_self)

theorem lose {why : Loss} {Q : Unit → Fw → Prop} (w : Owing p h k (s.view c))
    (next : ∀ t : Fw, Owing p h k (t.view c) → Q () (t.note (.lost c why))) : Carries P c F Q (AlkaliFw.lose c why) s :=
  w.change next

theorem clock {s : Fw} (w : Owing p h k (s.view c)) : Owing p h k (Fw.view { s with clock := s.clock + 1 } c) := w

end Owing

/-- A submission for `c` fails, or the descriptor joins its channel. -/
theorem carries_nvmeDmaXfer {ch : Chan} {tag host : Nat} {loc : Local} {len : Nat}
    {callback : Option (Cb × Slot)} {Q : Bool → Fw → Prop} (o : Owing p h k (s.view c))
    (failed : ∀ t : Fw, Owing p (.noDescriptor c :: h) k (t.view c) → Q false t)
    (done : ∀ (t : Fw) block, Owing p h k (t.view c) → Q true (t.put ch ⟨callback, host, loc, len, tag, block, c, p.qid⟩)) :
    Carries P c F Q (nvmeDmaXfer P ch tag host loc len callback c) s := by
  refine Prog.safe_bind (o.swap fun t o => ?_)
  dsimp only
  cases (P.descSlabAlloc t.descSlab t.clock).1 with
  | none => exact Prog.safe_pure (failed _ (o.noted rfl rfl rfl))
  | some block =>
    have qid : (t.cmds c).qid = p.qid := congrArg NvmeCmdPriv.qid o.priv
    dsimp only
    rw [qid]
    refine Prog.safe_bind (Prog.safe_change (stable_owing (p := p) (h := h) (k := k) _ (by simp)) o fun u o => ?_)
    exact Prog.safe_pure (done u block o)

/-- Assignments that a command on its way does not mind. -/
structure Tidies (g : NvmeCmdPriv → NvmeCmdPriv) : Prop where
  rest : ∀ p, g p = { p with xferLen := (g p).xferLen, xferBuf := (g p).xferBuf }
  word : ∀ p, p.Fit → (g p).xferLen < 2 ^ 32

namespace Tidies

variable {g : NvmeCmdPriv → NvmeCmdPriv}

theorem task (t : Tidies g) (h' : Task P c p h) : Task P c (g p) h := by
  have word := t.word p h'.fit
  rw [t.rest p]
  exact ⟨⟨word, h'.fit.cb⟩, h'.answered, h'.status, h'.before, h'.names, h'.asked⟩

theorem entered {d : Desc} {empty : Prop} (t : Tidies g) (e : Entered P c d p h empty) : Entered P c d (g p) h empty := by
  rw [t.rest p]
  exact ⟨e.cb, e.loc, e.record, e.answered, e.status, e.milestone, e.names, ⟨e.settled.moved, e.settled.performed, e.settled.logged⟩⟩

theorem moved (t : Tidies g) (h' : AllMoved c p h) : AllMoved c (g p) h := by
  rw [t.rest p]
  exact h'

/-- Once the command is handed on, its length and its buffer are of no importance. -/
theorem gone {v : View} (t : Tidies g) (ends : f.Ends) (w : Gone P c f n v) : Gone P c f (g v.priv).xferLen (v.setCmd g) := by
  have dir : (g v.priv).dir = v.priv.dir := by rw [t.rest v.priv]
  refine ⟨?_, w.requests, w.calm, rfl⟩
  have foreign {d : Desc} {ch : Chan} {cb : Cb} (waits : Waits v ch d) (e : d.callback = some (cb, c))
      (h : cb ≠ f ∧ cb ≠ .cqCb) : False := by
    obtain ⟨ds, queue, -⟩ := waits.last
    rcases w.calm ch d (by rw [queue]; simp) cb c e with same | same
    · exact h.1 same
    · exact h.2 same
  cases w.standing with
  | free held requests rx tx ended => exact .free held requests rx tx ended
  | fetched d held requests waits tx cb =>
    refine (foreign waits cb ⟨?_, nofun⟩).elim
    rintro rfl
    exact ends
  | listing d held requests waits cb =>
    refine (foreign waits cb ⟨?_, nofun⟩).elim
    rintro rfl
    exact ends
  | ending d f' held requests waits cb loc beside task xferCb moved =>
    refine .ending d f' held requests ?_ cb loc ?_ (t.task task) ?_ (t.moved moved)
    · rw [View.setCmd, dir]
      exact ⟨waits.last, waits.plain⟩
    · rw [View.setCmd, dir]
      exact beside
    · rw [View.setCmd, t.rest v.priv]
      exact xferCb
  | away m held requests =>
    have none := w.requests
    rw [requests] at none
    cases none
  | posted d held requests waits entered => exact .posted d held requests ⟨waits.last, waits.plain⟩ (t.entered entered)
  | lost why held requests plain lost => exact .lost why held requests plain lost

theorem setCmd {Q : Unit → Fw → Prop} (hf : F f) (t : Tidies g) (ends : f.Ends) (w : Gone P c f n (s.view c))
    (next : ∀ u p, p.xferLen = n → Gone P c f (g p).xferLen (u.view c) → Q () u) : Carries P c F Q (setCmd c g) s := by
  refine Prog.safe_change (stable_gone hf _ (by simp)) w fun u w => ?_
  refine next _ (u.cmds c) w.left ?_
  rw [view_setCmd_own]
  exact t.gone ends w

end Tidies
end Rules

theorem loseUnless_true (c : Slot) (why : Loss) : loseUnless true c why = pure () := rfl

theorem loseUnless_false (c : Slot) (why : Loss) : loseUnless false c why = lose c why := rfl

section Submissions

variable {P : Platform} {c : Slot} {f : Cb} {p : NvmeCmdPriv} {h : List Obs} {k : Chan → Prop} {o : Obs} {len : Nat}

theorem queued_dataless {ch : Chan} {d : Desc} (other : ∀ a, d.localAddr ≠ .ram a) : (Obs.queued ch d p).Dataless := by
  intro ch'
  obtain ⟨callback, host, loc, len, tag, block, owner, q⟩ := d
  cases loc with
  | ram a => exact absurd rfl (other a)
  | _ => rfl

theorem not_served (h : List Obs) : ¬Served c (.noDescriptor c :: h) := fun served => served.1 List.mem_cons_self

/-- The next `len` bytes of the transfer are submitted. -/
structure Portion (c : Slot) (p : NvmeCmdPriv) (len : Nat) (o : Obs) : Prop where
  here : ∃ x, o.piece? p.dir.chan = some x ∧ x.off = p.xferSize - p.xferLen ∧ x.len = len ∧ x.size = p.xferSize ∧ x.addr = p.xferBuf
  other : ∀ ch, ch ≠ p.dir.chan → o.piece? ch = none
  milestone : o.milestone? = none
  block : o.block? = none

theorem chunk_queued {cb : Option (Cb × Slot)} {host tag block : Nat} {q : QId}
    (hcb : cb = none ∨ cb = some (f, c)) (ends : f.Ends) :
    Portion c p len (.queued p.dir.chan ⟨cb, host, .ram p.xferBuf, len, tag, block, c, q⟩ p) where
  here := ⟨⟨p.xferSize - p.xferLen, len, p.xferSize, p.xferBuf⟩, if_pos rfl, rfl, rfl, rfl, rfl⟩
  other ch other := if_neg other.symm
  milestone := by
    refine Owing.queued_milestone fun e some' => ?_
    rcases hcb with rfl | rfl
    · cases some'
    · cases some'
      exact ends
  block := rfl

namespace Portion

theorem task (x : Portion c p len o) (t : Task P c p h) : Task P c p (o :: h) := t.cons x.other x.milestone x.block

theorem covers (x : Portion c p len o) (m : Moving c p h) (served : Served c (o :: h)) :
    Covers p.dir.chan (o :: h) p.xferBase p.xferSize (p.xferSize - p.xferLen + len) ∧
      ∀ ch, ch ≠ p.dir.chan → Whole ch (o :: h) := by
  obtain ⟨⟨sizes, laid⟩, whole⟩ := m.pieces (served_tail served)
  obtain ⟨y, here, off, rfl, size, addr⟩ := x.here
  refine ⟨⟨fun z hz => ?_, ?_⟩, fun ch other => (whole_none (x.other ch other)).mpr (whole ch other)⟩
  · rw [parts_some here] at hz
    rcases List.mem_append.mp hz with old | new
    · exact sizes z old
    · rw [List.mem_singleton.mp new, addr, off]
      exact ⟨size, m.buf⟩
  · rw [parts_some here]
    rw [← off] at laid ⊢
    exact laid_append laid rfl

theorem moving (x : Portion c p len o) (m : Moving c p h) (le : len ≤ p.xferLen) :
    Moving c { p with xferLen := p.xferLen - len, xferBuf := (p.xferBuf + len) % 2 ^ 32 } (o :: h) := by
  have size := m.len
  refine ⟨(Nat.sub_le ..).trans size, ?_, fun served => ?_⟩
  · have buf := m.buf
    dsimp only
    omega
  · have all := x.covers m served
    rw [show p.xferSize - p.xferLen + len = p.xferSize - (p.xferLen - len) by omega] at all
    exact all

theorem moved (x : Portion c p len o) (m : Moving c p h) (last : p.xferLen = len) : AllMoved c p (o :: h) := by
  intro served
  have all := x.covers m served
  have size := m.len
  rw [show p.xferSize - p.xferLen + len = p.xferSize by omega] at all
  refine ⟨fun ch => ?_, fun _ => all.1⟩
  by_cases here : ch = p.dir.chan
  · rw [here]
    exact .inr ⟨_, _, all.1⟩
  · exact all.2 ch here

end Portion

/-- A chunk finds no descriptor. -/
theorem Moving.passed (m : Moving c p h) (le : len ≤ p.xferLen) :
    Moving c { p with xferLen := p.xferLen - len, xferBuf := (p.xferBuf + len) % 2 ^ 32 } (.noDescriptor c :: h) := by
  have size := m.len
  refine ⟨(Nat.sub_le ..).trans size, ?_, fun served => absurd served (not_served h)⟩
  have buf := m.buf
  dsimp only
  omega

theorem Task.failed (t : Task P c p h) : Task P c p (.noDescriptor c :: h) := t.cons (fun _ _ => rfl) rfl rfl

/-- The callback waits for the last chunk. -/
theorem Owing.ending {s : Fw} {d : Desc} (w : Owing p h (· ≠ p.dir.chan) (s.view c)) (owner : d.owner = c)
    (cb : d.callback = some (f, c)) (loc : ∃ a, d.localAddr = .ram a) (xferCb : p.xferCb = some f)
    (task : Task P c p (.queued p.dir.chan d p :: h)) (moved : AllMoved c p (.queued p.dir.chan d p :: h)) :
    Gone P c f p.xferLen ((s.put p.dir.chan d).view c) := by
  have priv := w.priv_put (e := p.dir.chan) owner
  have past := w.past_put (e := p.dir.chan) owner
  have waits := w.waits (e := p.dir.chan) owner
  have beside : ∀ ch, ch ≠ p.dir.chan → ((s.put p.dir.chan d).view c).queue ch = [] :=
    fun ch other => w.queue_other owner other other
  refine ⟨.ending d f (w.held_put owner) (w.requests_put owner) ?_ cb loc ?_ ?_ ?_ ?_, w.requests_put owner, ?_, ?_⟩
  · rw [priv]
    exact waits
  · rw [priv]
    exact beside
  · rw [priv, past]
    exact task
  · rw [priv]
    exact xferCb
  · rw [priv, past]
    exact moved
  · intro ch x hx cb' e hcb
    by_cases here : ch = p.dir.chan
    · subst here
      obtain ⟨ds, queue, plain⟩ := waits.last
      rw [queue] at hx
      rcases List.mem_append.mp hx with old | new
      · rw [(plain x old).1] at hcb
        cases hcb
      · rw [List.mem_singleton.mp new, cb] at hcb
        cases hcb
        exact .inl rfl
    · rw [beside ch here] at hx
      cases hx
  · rw [priv]

theorem Owing.gone_lost {s : Fw} {k : Chan → Prop} (w : Owing p h k (s.view c)) (why : Loss) :
    Gone P c f p.xferLen ((s.note (.lost c why)).view c) := by
  have noted := w.noted (o := .lost c why) rfl rfl rfl
  refine ⟨w.lost why, noted.requests, fun ch d hd cb e hcb => ?_, by rw [noted.priv]⟩
  rw [(noted.plain ch d hd).1] at hcb
  cases hcb

end Submissions

section Functions

variable (P : Platform) {c : Slot} {f : Cb} {F : Cb → Prop} {p : NvmeCmdPriv} {h : List Obs} {k : Chan → Prop} {s : Fw}

/-- A chunk moves the transfer on; the last one hands the command on, or loses it. -/
theorem carries_transferChunk (hf : F f) {host len : Nat} {Q : Unit → Fw → Prop} (w : Owing p h (· ≠ p.dir.chan) (s.view c))
    (xferCb : p.xferCb = some f) (task : Task P c p h) (moving : Moving c p h) (le : len ≤ p.xferLen)
    (more : p.xferLen ≠ len → ∀ t h', let p' := { p with xferLen := p.xferLen - len, xferBuf := (p.xferBuf + len) % 2 ^ 32 }
      Owing p' h' (· ≠ p.dir.chan) (t.view c) → Task P c p' h' → Moving c p' h' → Q () t)
    (last : p.xferLen = len → ∀ t, Gone P c f 0 (t.view c) → Q () t) :
    Carries P c F Q (transferChunk P c host p.xferBuf len) s := by
  have ends : f.Ends := task.fit.cb f xferCb
  have word : p.xferLen < 2 ^ 32 := task.fit.len
  have wrap : (p.xferLen + 2 ^ 32 - len) % 2 ^ 32 = p.xferLen - len := by omega
  have shorter : Tidies fun p => { p with xferLen := (p.xferLen + 2 ^ 32 - len) % 2 ^ 32 } :=
    ⟨fun _ => rfl, fun _ _ => Nat.mod_lt _ (by decide)⟩
  have further : Tidies fun p => { p with xferBuf := (p.xferBuf + len) % 2 ^ 32 } := ⟨fun _ => rfl, fun _ fit => fit.len⟩
  refine Prog.safe_bind (w.ofCmd fun t w => Prog.safe_bind (w.ofCmd fun t w => ?_))
  rw [xferDir_eq]
  generalize (if p.dir = .toHost then 0x55 else 0xAA) = tag
  refine Prog.safe_bind ?_
  by_cases whole : p.xferLen = len
  · -- the last chunk carries the callback
    rw [if_pos whole, xferCb, Option.map_some]
    have rest {u : Fw} (g : Gone P c f p.xferLen (u.view c)) : Carries P c F Q (do
        setCmd c fun p => { p with xferLen := (p.xferLen + 2 ^ 32 - len) % 2 ^ 32 }
        setCmd c fun p => { p with xferBuf := (p.xferBuf + len) % 2 ^ 32 }) u := by
      refine Prog.safe_bind (shorter.setCmd hf ends g fun u p' left g => ?_)
      have none : (p'.xferLen + 2 ^ 32 - len) % 2 ^ 32 = 0 := by omega
      dsimp only at g
      rw [none] at g
      refine further.setCmd hf ends g fun u p' left g => last whole u ?_
      dsimp only at g
      rwa [left] at g
    refine carries_nvmeDmaXfer w (fun u w => ?_) fun u block w => ?_
    · refine Prog.safe_bind (Prog.safe_when (fun _ => ?_) fun no => absurd rfl no)
      rw [loseUnless_false]
      exact w.lose fun u w => rest (w.gone_lost _)
    · refine Prog.safe_bind (Prog.safe_when (fun _ => Prog.safe_pure ?_) fun _ => ?_)
      all_goals
        have x : Portion c p len (.queued p.dir.chan ⟨some (f, c), host, .ram p.xferBuf, len, tag, block, c, p.qid⟩ p) :=
          chunk_queued (.inr rfl) ends
        exact rest (w.ending rfl rfl ⟨_, rfl⟩ xferCb (x.task task) (x.moved moving whole))
  · rw [if_neg whole]
    have rest {u : Fw} {h' : List Obs} (w : Owing p h' (· ≠ p.dir.chan) (u.view c)) (task : Task P c p h')
        (moving : Moving c { p with xferLen := p.xferLen - len, xferBuf := (p.xferBuf + len) % 2 ^ 32 } h') : Carries P c F Q (do
        setCmd c fun p => { p with xferLen := (p.xferLen + 2 ^ 32 - len) % 2 ^ 32 }
        setCmd c fun p => { p with xferBuf := (p.xferBuf + len) % 2 ^ 32 }) u := by
      refine Prog.safe_bind (w.setCmd fun u w => ?_)
      rw [wrap] at w
      refine w.setCmd fun u w => more whole u h' w ?_ moving
      exact ⟨⟨(Nat.sub_le ..).trans_lt word, task.fit.cb⟩, task.answered, task.status, task.before, task.names, task.asked⟩
    refine carries_nvmeDmaXfer w (fun u w => ?_) fun u block w => ?_
    · exact rest w task.failed (moving.passed le)
    · have x : Portion c p len (.queued p.dir.chan ⟨none, host, .ram p.xferBuf, len, tag, block, c, p.qid⟩ p) :=
        chunk_queued (.inl rfl) ends
      exact rest (w.put rfl rfl ⟨_, rfl⟩ fun other => other rfl) (x.task task) (x.moving moving le)

/-- The request for a list. -/
theorem Owing.listing {d : Desc} {b : Nat} (w : Owing p h (· ≠ p.dir.chan) (s.view c)) (owner : d.owner = c)
    (cb : d.callback = some (.prpCb, c)) (loc : d.localAddr = .prp b) (task : Task P c p h) (left : 0 < p.xferLen)
    (xferCb : p.xferCb ≠ none) (moving : Moving c p h) : Standing P c ((s.put .rx d).view c) := by
  have priv := w.priv_put (e := .rx) owner
  have past := w.past_put (e := .rx) owner
  have dataless : (Obs.queued .rx d p).Dataless := queued_dataless fun a e => by rw [loc] at e; cases e
  refine .listing d (w.held_put owner) (w.requests_put owner) (w.waits owner) cb ⟨b, loc⟩ ?_ ?_ ?_ ?_ ?_
  · rw [priv]
    intro ch other x hx
    by_cases rx : ch = .rx
    · subst rx
      rw [w.queue_self owner other] at hx
      exact List.mem_singleton.mp hx
    · rw [w.queue_other owner rx other] at hx
      cases hx
  · rw [priv, past]
    exact task.cons (fun ch _ => dataless ch) (queued_milestone fun e some' => by rw [cb] at some'; cases some') rfl
  · rw [priv]
    exact left
  · rw [priv]
    exact xferCb
  · rw [priv, past]
    exact moving.note dataless

theorem carries_prpFetch {b host mps : Nat} {Q : Unit → Fw → Prop} (w : Owing p h (· ≠ p.dir.chan) (s.view c))
    (task : Task P c p h) (left : 0 < p.xferLen) (xferCb : p.xferCb ≠ none) (moving : Moving c p h)
    (next : ∀ t, Standing P c (t.view c) → Q () t) : Carries P c F Q (prpFetch P c b host mps) s := by
  refine Prog.safe_bind (w.setCmd fun t w => Prog.safe_bind (w.ofCmd fun t w => Prog.safe_bind ?_))
  refine carries_nvmeDmaXfer w (fun u w => ?_) fun u block w => ?_
  · rw [loseUnless_false]
    exact w.lose fun u w => next _ (w.lost _)
  · refine Prog.safe_pure (next _ ?_)
    refine w.listing P rfl rfl rfl ?_ left xferCb ⟨moving.len, moving.buf, moving.pieces⟩
    exact ⟨⟨task.fit.len, task.fit.cb⟩, task.answered, task.status, task.before, task.names, task.asked⟩

theorem carries_nvmeTcGetCqAddr {q : QId} {Q : Nat → Fw → Prop} (w : Owing p h k (s.view c)) (own : p.qid = q)
    (next : ∀ t a, Owing p h k (t.view c) → Q a t) : Carries P c F Q (nvmeTcGetCqAddr q) s := by
  have mine : ∀ q', Access.ring q = .ring q' → p.qid = q' := fun q' same => own.trans (Access.ring.inj same)
  have look {α : Type} {g : Fw → α} {Q : α → Fw → Prop} {t : Fw} (w : Owing p h k (t.view c))
      (next : ∀ t, Owing p h k (t.view c) → Q (g t) t) : Carries P c F Q (.look (.ring q) g) t := w.look next mine
  have last {tail size : Nat} {t : Fw} (w : Owing p h k (t.view c)) : Carries P c F Q (do
      let base ← .look (.ring q) fun s => s.tc.cqBase q
      let index ← .look (.ring q) fun s => s.tc.cqTail q
      .change (.ring q) (·.setTc fun tc => { tc with cqTail := Function.update tc.cqTail q ((tail + 1) % size % 2 ^ 16) })
      pure ((base + index * nvmeTcCqEntrySize) % 2 ^ 64)) t :=
    Prog.safe_bind (look w fun t w => Prog.safe_bind (look w fun t w => Prog.safe_bind (w.change (fun t w => Prog.safe_pure (next _ _ w)) mine)))
  refine Prog.safe_bind (w.look fun t w => Prog.safe_bind (look w fun t w => Prog.safe_ite (fun _ => Prog.safe_stuck) fun _ => ?_))
  refine Prog.safe_bind (look w fun t w => Prog.safe_ite (fun _ => ?_) fun _ => Prog.safe_pure (next _ _ w))
  refine Prog.safe_bind (look w fun t w => Prog.safe_bind (Prog.safe_when (fun _ => ?_) fun _ => last w))
  exact Prog.safe_bind (look w fun t w => w.change (fun t w => last w) mine)

/-- The completion entry is submitted. -/
theorem Owing.posted {d : Desc} (w : Owing p h k (s.view c)) (owner : d.owner = c) (cb : d.callback = some (.cqCb, c))
    (loc : d.localAddr = .cqBuf c) (task : Task P c p h) (settled : Settled P c p h (∀ ch, k ch)) :
    Gone P c f p.xferLen ((s.put .tx d).view c) := by
  have priv := w.priv_put (e := .tx) owner
  have past := w.past_put (e := .tx) owner
  have waits := w.waits (e := .tx) owner
  have dataless : (Obs.queued .tx d p).Dataless := queued_dataless fun a e => by rw [loc] at e; cases e
  have milestone : (Obs.queued .tx d p).milestone? = some (.posted d) := if_pos (by rw [cb]; rfl)
  refine ⟨.posted d (w.held_put owner) (w.requests_put owner) waits ?_, w.requests_put owner, fun ch x hx cb' e hcb => ?_,
    by rw [priv]⟩
  · rw [priv, past]
    refine ⟨cb, loc, ⟨p, List.mem_cons_self, rfl, rfl, rfl, rfl⟩, List.mem_cons_of_mem _ task.answered, task.status, ?_,
      (names_none rfl).mpr task.names, (settled.note dataless).imp fun empty => ?_⟩
    · rw [milestones, List.filterMap_cons_some milestone, ← milestones, task.before]
    · exact ⟨w.queue_self owner (empty .tx), w.queue_other owner nofun (empty .rx)⟩
  · by_cases here : ch = .tx
    · subst here
      obtain ⟨ds, queue, plain⟩ := waits.last
      rw [queue] at hx
      rcases List.mem_append.mp hx with old | new
      · rw [(plain x old).1] at hcb
        cases hcb
      · rw [List.mem_singleton.mp new, cb] at hcb
        cases hcb
        exact .inr rfl
    · rw [(waits.plain ch here x hx).1] at hcb
      cases hcb

/-- The entry is submitted, or the command is lost. -/
theorem carries_nvmeCmdReturn {Q : Unit → Fw → Prop} (w : Owing p h k (s.view c)) (task : Task P c p h)
    (settled : Settled P c p h (∀ ch, k ch)) (next : ∀ t, (∀ f, Gone P c f p.xferLen (t.view c)) → Q () t) :
    Carries P c F Q (nvmeCmdReturn P c) s := by
  refine Prog.safe_bind (w.ofCmd fun t w => Prog.safe_bind (carries_nvmeTcGetCqAddr P w rfl fun t a w => ?_))
  refine Prog.safe_ite (fun _ => w.lose fun t w => next _ fun _ => w.gone_lost _) fun _ => ?_
  refine Prog.safe_bind (w.look (fun t w => Prog.safe_bind (w.setCmd fun u w => Prog.safe_bind ?_)) fun q same => Access.ring.inj same)
  refine carries_nvmeDmaXfer w (fun u w => ?_) fun u block w => ?_
  · rw [loseUnless_false]
    exact w.lose fun u w => next _ fun _ => w.gone_lost _
  · refine Prog.safe_pure (next _ fun _ => w.posted P rfl rfl rfl ?_ ⟨settled.moved, settled.performed, settled.logged⟩)
    exact ⟨⟨task.fit.len, task.fit.cb⟩, task.answered, task.status, task.before, task.names, task.asked⟩

theorem carries_prpEntry {b i : Nat} {Q : Nat → Fw → Prop} (w : Owing p h k (s.view c))
    (next : ∀ t a, Owing p h k (t.view c) → Q a t) : Carries P c F Q (prpEntry P b i) s :=
  Prog.safe_ite (fun _ => w.look fun t w => next t _ w) fun _ => Prog.safe_stuck

/-- The loop of `prp_cb`. Either the transfer goes on, or its last chunk is submitted. -/
theorem carries_prpLoop (hf : F f) {b mps prpSize fuel i : Nat} {Q : Unit → Fw → Prop}
    (state : (∃ p h, Owing p h (· ≠ p.dir.chan) (s.view c) ∧ Task P c p h ∧ 0 < p.xferLen ∧ p.xferCb = some f ∧ Moving c p h) ∨
      Gone P c f 0 (s.view c))
    (next : ∀ t, Standing P c (t.view c) → Q () t) : Carries P c F Q (prpLoop P c b mps prpSize fuel i) s := by
  induction fuel generalizing i s with
  | zero => exact Prog.safe_stuck
  | succ fuel ih =>
    rcases state with ⟨p, h, w, task, left, xferCb, moving⟩ | g
    · have some' : p.xferCb ≠ none := by rw [xferCb]; exact nofun
      refine Prog.safe_bind (w.ofCmd fun t w => Prog.safe_ite (fun _ => ?_) fun no => absurd left no)
      refine Prog.safe_ite (fun _ => ?_) fun _ => ?_
      · exact Prog.safe_bind (carries_prpEntry P w fun t a w => carries_prpFetch P w task left some' moving next)
      · refine Prog.safe_bind (carries_prpEntry P w fun t a w => Prog.safe_bind (w.ofCmd fun t w => Prog.safe_bind ?_))
        refine carries_transferChunk P hf w xferCb task moving (by split <;> omega) (fun short t h' w task moving => ?_)
          fun _ t g => ih (.inr g)
        refine ih (.inl ⟨_, h', w, task, ?_, xferCb, moving⟩)
        have : (if mps > p.xferLen then p.xferLen else mps) ≤ p.xferLen := by split <;> omega
        exact Nat.sub_pos_of_lt (lt_of_le_of_ne this fun same => short same.symm)
    · refine Prog.safe_bind (Prog.safe_look (stable_gone hf _ (by simp)) g fun t g => ?_)
      have left : (t.cmds c).xferLen = 0 := g.left
      simp only [left, gt_iff_lt, Nat.lt_irrefl, if_false]
      refine Prog.safe_change (stable_gone hf _ (by simp)) g fun t g => next _ ?_
      rw [view_note_own rfl rfl]
      exact g.standing.note trivial

theorem carries_prpCb (hf : F f) {loc : Local} {Q : Unit → Fw → Prop} (w : Owing p h (· ≠ p.dir.chan) (s.view c)) (task : Task P c p h)
    (left : 0 < p.xferLen) (xferCb : p.xferCb = some f) (moving : Moving c p h)
    (next : ∀ t, Standing P c (t.view c) → Q () t) : Carries P c F Q (prpCb P c loc) s := by
  cases loc with
  | prp b =>
    refine Prog.safe_bind (w.look fun t w => Prog.safe_bind (w.ofCmd fun t w => Prog.safe_bind (w.ofCmd fun t w => ?_)))
    exact Prog.safe_ite (fun _ => Prog.safe_stuck) fun _ =>
      carries_prpLoop P hf (.inl ⟨p, h, w, task, left, xferCb, moving⟩) next
  | _ => exact Prog.safe_stuck

theorem carries_prpAlloc {Q : Option Nat → Fw → Prop} (w : Owing p h k (s.view c))
    (got : ∀ t b, Owing p (.prpAlloc c b :: h) k (t.view c) → Q (some b) t)
    (failed : ∀ t, Owing p (.noPrpBuffer c :: h) k (t.view c) → Q none t) : Carries P c F Q (prpAlloc P c) s := by
  refine w.swap fun t w => ?_
  dsimp only
  cases (P.kMemSlabAlloc t.prpSlab t.clock).1 with
  | none => exact failed _ (w.noted rfl rfl rfl)
  | some b => exact got _ b (w.noted rfl rfl rfl)

theorem carries_transferDataWithPrps (hf : F f) {Q : Unit → Fw → Prop} (w : Owing p h (· ≠ p.dir.chan) (s.view c)) (task : Task P c p h)
    (xferCb : p.xferCb = some f) (moving : Moving c p h) (next : ∀ t, Standing P c (t.view c) → Q () t) :
    Carries P c F Q (transferDataWithPrps P c) s := by
  refine Prog.safe_bind (w.ofCmd fun t w => Prog.safe_bind (w.look fun t w => Prog.safe_ite (fun _ => Prog.safe_stuck) fun _ => ?_))
  refine Prog.safe_bind (w.ofCmd fun t w => Prog.safe_bind (w.ofCmd fun t w => Prog.safe_bind ?_))
  refine carries_transferChunk P hf w xferCb task moving (by split <;> omega) (fun short t h' w task moving => ?_) fun _ t g => ?_
  · -- more is left after the first page
    refine Prog.safe_bind (w.ofCmd fun t w => Prog.safe_ite (fun none => ?_) fun some' => Prog.safe_ite (fun _ => ?_) fun _ => ?_)
    · refine absurd none ?_
      dsimp only
      split at short <;> rename_i room <;> simp only [room, if_true, if_false] <;> omega
    · refine Prog.safe_bind (carries_prpAlloc P w (fun t b w => ?_) fun t w => ?_)
      · refine Prog.safe_bind (w.ofCmd fun t w => Prog.safe_bind ?_)
        refine carries_prpFetch P w (task.note trivial) (Nat.pos_of_ne_zero some') ?_ (moving.note fun _ => rfl) fun t g => ?_
        · rw [xferCb]
          exact nofun
        · exact Prog.safe_bind (Prog.safe_look (stable_standing _ (by simp)) g fun t g => Prog.safe_pure (next t g))
      · have failed (served : Served c (.noPrpBuffer c :: h')) : False := served.2 List.mem_cons_self
        refine carries_nvmeCmdReturn P w (task.cons (fun _ _ => rfl) rfl rfl) ?_ fun t g => next t (g .cqCb).standing
        exact ⟨fun served => (failed served).elim, fun served => (failed served).elim, fun served => (failed served).elim⟩
    · refine Prog.safe_bind (w.ofCmd fun t w => Prog.safe_bind (w.ofCmd fun t w => Prog.safe_bind (w.ofCmd fun t w => ?_)))
      exact carries_transferChunk P hf w xferCb task moving le_rfl (fun short => absurd rfl short) fun _ t g => next t g.standing
  · refine Prog.safe_bind (Prog.safe_look (stable_gone hf _ (by simp)) g fun t g => ?_)
    have left : (t.cmds c).xferLen = 0 := g.left
    exact Prog.safe_ite (fun _ => Prog.safe_pure (next t g.standing)) fun no => absurd left no

/-- A transfer that is set up: nothing of it is submitted, and nothing else is pending. -/
structure Begun (c : Slot) (p : NvmeCmdPriv) (h : List Obs) : Prop where
  len : p.xferLen = p.xferSize
  buf : p.xferBuf = p.xferBase
  none : parts p.dir.chan h = []
  whole : Served c h → ∀ ch, Whole ch h

theorem Begun.moving (b : Begun c p h) : Moving c p h := by
  refine ⟨b.len.le, ?_, fun served => ⟨⟨?_, ?_⟩, fun ch _ => b.whole served ch⟩⟩
  · rw [b.buf, b.len, Nat.sub_self, Nat.add_zero]
  · rw [b.none]
    exact fun _ h => nomatch h
  · rw [b.none, b.len]
    exact (Nat.sub_self _).symm

theorem Owing.weaken {k' : Chan → Prop} {v : View} (w : Owing p h k v) (fewer : ∀ ch, k' ch → k ch) : Owing p h k' v :=
  ⟨w.held, w.priv, w.past, w.live, w.requests, w.plain, fun ch empty => w.empty ch (fewer ch empty)⟩

theorem carries_nvmeCmdTransferData (hf : F f) {Q : Bool → Fw → Prop} (w : Owing p h (fun _ => True) (s.view c)) (task : Task P c p h)
    (xferCb : p.xferCb = some f) (begun : Begun c p h)
    (rejected : p.sqBuf.psdt ≠ 0 → ∀ t, Owing p h (fun _ => True) (t.view c) → Q true t)
    (next : ∀ t, Standing P c (t.view c) → Q false t) : Carries P c F Q (nvmeCmdTransferData P c) s := by
  refine Prog.safe_bind (w.ofCmd fun t w => Prog.safe_ite (fun psdt => Prog.safe_pure (rejected psdt t w)) fun _ => ?_)
  refine Prog.safe_bind (carries_transferDataWithPrps P hf (w.weaken fun _ _ => trivial) task xferCb begun.moving fun t g => ?_)
  exact Prog.safe_pure (next t g)

/-- An entry for a command that is to be refused, or that moves nothing. -/
theorem settled_refused (refused : p.Refused P) (psdt : p.xferCb ≠ none ∧ p.sqBuf.psdt ≠ 0) : Settled P c p h (∀ ch, k ch) :=
  ⟨fun _ zero => absurd (zero psdt.1) psdt.2, fun _ meant => absurd refused meant, fun _ _ zero => absurd zero psdt.2⟩

/-- What `nvme_cmd_get_data`, `nvme_cmd_return_data` and the identify and log commands come to. -/
theorem carries_transfer (hf : F f) {buf len : Nat} {dir : Dir} {Q : Unit → Fw → Prop}
    (w : Owing p h (fun _ => True) (s.view c))
    (task : Task P c { p with xferBase := buf, xferBuf := buf, xferSize := len, xferLen := len, dir := dir, xferCb := some f } h)
    (fresh : parts dir.chan h = []) (whole : Served c h → ∀ ch, Whole ch h) (next : ∀ t, Standing P c (t.view c) → Q () t) :
    Carries P c F Q (do
      setXfer c buf len dir f
      let rejected ← nvmeCmdTransferData P c
      .when rejected (nvmeCmdReturn P c)) s := by
  refine Prog.safe_bind (w.setCmd fun t w => Prog.safe_bind ?_)
  refine carries_nvmeCmdTransferData P hf w task rfl ⟨rfl, rfl, fresh, whole⟩ (fun psdt t w => ?_) fun t g => ?_
  · refine Prog.safe_when (fun _ => ?_) fun no => absurd rfl no
    exact carries_nvmeCmdReturn P w task (settled_refused P (.inr ⟨nofun, psdt⟩) ⟨nofun, psdt⟩) fun t g => next t (g .cqCb).standing
  · exact Prog.safe_when (fun h => nomatch h) fun _ => next t g

/-- A request that goes out says what the record says. -/
theorem Owing.away {m : RpmsgPayload} {clock : Nat} (w : Owing p h (fun _ => True) (s.view c)) (task : Task P c p h)
    (moved : AllMoved c p h) (tx : parts .tx h = []) (vendor : p.demand P = .vendor)
    (sent : Sent c p.sqBuf p.block (.sent m :: h) m) (earlier : p.xferCb ≠ some .rpmsgCmdReturnCb) :
    Standing P c ((Fw.note { s with clock := clock, apu := s.apu ++ [m] } (.sent m)).view c) := by
  have priv : m.priv = c := sent.entry.1
  have requests : s.apu.filter (·.priv = c) = [] := w.requests
  have n : Owing p (.sent m :: h) (fun _ => True) ((s.note (.sent m)).view c) := w.noted (congrArg some priv) rfl rfl
  have view : (Fw.note { s with clock := clock, apu := s.apu ++ [m] } (.sent m)).view c =
      { (s.note (.sent m)).view c with requests := [m] } := by
    ext1
    · rfl
    · rfl
    · rfl
    · change (s.apu ++ [m]).filter (·.priv = c) = [m]
      rw [List.filter_append, requests]
      simp [priv]
    · rfl
  have neutral : (Obs.sent m).Neutral := trivial
  rw [view]
  refine .away m n.held rfl (fun ch => n.empty ch trivial) ?_ ?_ ?_ ?_ ?_ ?_ <;> simp only [n.priv, n.past]
  · exact task.note neutral
  · exact moved.note neutral.dataless
  · exact (parts_none (neutral.dataless .tx)).trans tx
  · exact vendor
  · exact sent
  · exact earlier

theorem carries_sendCmd {Q : Unit → Fw → Prop} (w : Owing p h (fun _ => True) (s.view c)) (task : Task P c p h)
    (moved : AllMoved c p h) (tx : parts .tx h = []) (vendor : p.demand P = .vendor)
    (data : Served c h → p.sqBuf.brings = true → Covers .rx h p.block.data (bufferSize p.sqBuf.ndt) (bufferSize p.sqBuf.ndt))
    (earlier : p.xferCb ≠ some .rpmsgCmdReturnCb) (next : ∀ t, Standing P c (t.view c) → Q () t) :
    Carries P c F Q (sendCmd P c) s := by
  refine Prog.safe_bind (w.ofCmd fun t w => Prog.safe_bind (w.swap fun t w => ?_))
  refine Prog.safe_ite (fun _ => Owing.lose w fun t w => next _ (w.lost _)) fun _ => ?_
  refine Prog.safe_bind (Owing.swap w fun t w => ?_)
  dsimp only
  split
  · rw [loseUnless_true]
    refine Prog.safe_pure (next _ (w.away P task moved tx vendor ⟨List.mem_cons_self, ⟨rfl, rfl⟩, ⟨rfl, rfl⟩, ?_⟩ earlier))
    exact fun served brings => (covers_none rfl).mpr (data (served_tail served) brings)
  · rw [loseUnless_false]
    exact Owing.lose w fun t w => next _ (w.lost _)

/-- The message after the data that the command brings. -/
theorem carries_vendorCb {Q : Unit → Fw → Prop} (w : Owing p h (fun _ => True) (s.view c)) (task : Task P c p h)
    (xferCb : p.xferCb = some .vendorCb) (moved : AllMoved c p h) (next : ∀ t, Standing P c (t.view c) → Q () t) :
    Carries P c F Q (vendorCb P c) s := by
  have asked := task.asked
  rw [Asked, xferCb] at asked
  obtain ⟨vendor, dir, tx, base, size⟩ := asked
  refine carries_sendCmd P w task moved tx vendor (fun served _ => ?_) (by rw [xferCb]; exact nofun) next
  have covers := (moved served).2 (by rw [xferCb]; exact nofun)
  rwa [dir, base, size] at covers

/-- The handler has prepared the entry and done nothing else. -/
structure Unserved (P : Platform) (c : Slot) (p : NvmeCmdPriv) (h : List Obs) : Prop where
  task : Task P c p h
  none : p.xferCb = none
  parts : ∀ ch, parts ch h = []

namespace Unserved

variable {P}

theorem whole (x : Unserved P c p h) (ch : Chan) : Whole ch h := .inl (x.parts ch)

theorem moved (x : Unserved P c p h) : AllMoved c p h := fun _ => ⟨x.whole, fun some' => absurd x.none some'⟩

/-- The record of a transfer that the command calls for. -/
theorem transfer (x : Unserved P c p h) {a n : Nat} {r : Dir} {f : Cb} (word : n < 2 ^ 32) (ends : f.Ends)
    (asked : Asked P c { p with xferBase := a, xferBuf := a, xferSize := n, xferLen := n, dir := r, xferCb := some f } h) :
    Task P c { p with xferBase := a, xferBuf := a, xferSize := n, xferLen := n, dir := r, xferCb := some f } h :=
  ⟨⟨word, fun _ e => Option.some.inj e ▸ ends⟩, x.task.answered, x.task.status, x.task.before, x.task.names, asked⟩

end Unserved

theorem carries_return {Q : Unit → Fw → Prop} (w : Owing p h (fun _ => True) (s.view c)) (x : Unserved P c p h)
    (hd : p.demand P = .refused ∨ p.demand P = .manage) (other : ¬p.Logs) (next : ∀ t, Standing P c (t.view c) → Q () t) :
    Carries P c F Q (nvmeCmdReturn P c) s := by
  refine carries_nvmeCmdReturn P w x.task ⟨fun _ _ => ⟨fun _ => trivial, x.moved⟩, fun _ meant => ?_, fun _ logs => absurd logs other⟩
    fun t g => next t (g .cqCb).standing
  rcases hd with refused | manage
  · exact absurd (.inl refused) meant
  · rw [Performed, manage]
    trivial

theorem carries_answer (all : F .nvmeCmdReturnCb) {buf len : Nat} {dir : Dir} {Q : Unit → Fw → Prop} (w : Owing p h (fun _ => True) (s.view c))
    (x : Unserved P c p h) (word : len < 2 ^ 32) (hd : p.demand P = .refused ∨ p.demand P = .data dir buf len)
    (logs : p.Logs → dir = .toHost ∧ buf = P.respBuf .smart ∧ len = p.sqBuf.logLen)
    (next : ∀ t, Standing P c (t.view c) → Q () t) : Carries P c F Q (do
      setXfer c buf len dir .nvmeCmdReturnCb
      let rejected ← nvmeCmdTransferData P c
      .when rejected (nvmeCmdReturn P c)) s :=
  carries_transfer P all w (x.transfer word trivial ⟨hd, logs⟩) (x.parts _) (fun _ => x.whole) next

section Handlers

variable {Q : Unit → Fw → Prop} (w : Owing p h (fun _ => True) (s.view c)) (x : Unserved P c p h)
  (next : ∀ t, Standing P c (t.view c) → Q () t)
include w x next

theorem carries_identifyWith (all : F .nvmeCmdReturnCb) (b : RespBuf)
    (hd : p.demand P = .data .toHost (P.respBuf b) nvmeCmdIdentifyRespSize) (other : ¬p.Logs) : Carries P c F Q (identifyWith P b c) s :=
  Prog.safe_bind (w.change fun _ w => carries_answer P all w x (by decide) (.inr hd) (fun logs => absurd logs other) next)

theorem carries_nvmeCmdAdmIdentify (all : F .nvmeCmdReturnCb) (hd : p.demand P = identifyDemand P (p.sqBuf.cdw10 % 2 ^ 8))
    (other : ¬p.Logs) : Carries P c F Q (nvmeCmdAdmIdentify P c) s := by
  refine Prog.safe_bind (w.ofCmd fun t w => ?_)
  split <;> rename_i cns
  · exact carries_identifyWith P w x next all _ (hd.trans (by rw [cns]; rfl)) other
  · exact carries_identifyWith P w x next all _ (hd.trans (by rw [cns]; rfl)) other
  · exact carries_identifyWith P w x next all _ (hd.trans (by rw [cns]; rfl)) other
  · exact carries_identifyWith P w x next all _ (hd.trans (by rw [cns]; rfl)) other
  · refine carries_return P w x (.inl (hd.trans ?_)) other next
    unfold identifyDemand identifyBuf
    split
    · rename_i some'
      split at some' <;> contradiction
    · rfl

theorem carries_nvmeCmdAdmGetLog (all : F .nvmeCmdReturnCb) (hd : p.demand P = logDemand P p.sqBuf) :
    Carries P c F Q (nvmeCmdAdmGetLog P c) s := by
  refine Prog.safe_bind (w.ofCmd fun t w => Prog.safe_bind (w.ofCmd fun t w => ?_))
  have demand := logDemand_eq P p.sqBuf
  rw [← hd] at demand
  split
  · refine Prog.safe_bind (w.change fun _ w => carries_answer P all w x ?_ (demand.imp_right fun both => both.2) (fun _ => ⟨rfl, rfl, rfl⟩) next)
    have : smartRespSize = 512 := rfl
    split <;> omega
  · exact carries_return P w x (.inl (demand.resolve_right fun both => absurd both.1 ‹_›)) (fun logs => absurd logs.2.2 ‹_›) next

theorem carries_nvmeCmdAdmSetFeatures (hd : p.demand P = .refused ∨ p.demand P = .manage) (other : ¬p.Logs) :
    Carries P c F Q (nvmeCmdAdmSetFeatures P c) s := by
  refine Prog.safe_bind (w.ofCmd fun t w => Prog.safe_bind (Prog.safe_when (fun _ => ?_) fun _ => carries_return P w x hd other next))
  refine w.change fun t w => carries_return P (w.assigned (s := t.setTc _) _) ?_ hd other next
  exact ⟨⟨⟨x.task.fit.len, x.task.fit.cb⟩, x.task.answered, x.task.status, x.task.before, x.task.names, x.task.asked⟩, x.none, x.parts⟩

theorem carries_queueCommand {update : NvmeCmdPriv → QId → Fw → Fw} (hu : QueueUpdate update)
    (hd : p.demand P = queueDemand p.sqBuf) (other : ¬p.Logs) : Carries P c F Q (queueCommand P c update) s := by
  have demand := queueDemand_eq p.sqBuf
  rw [← hd] at demand
  refine Prog.safe_bind (w.ofCmd fun t w => Prog.safe_ite (fun _ => carries_return P w x demand other next) fun _ => ?_)
  split
  · refine Prog.safe_bind (w.change fun t w => carries_return P ?_ x demand other next)
    suffices same : (update (id p) _ t).view c = t.view c by rwa [same]
    cases hu with
    | createSq => exact view_note_other nofun
    | createCq => exact view_note_other nofun
    | deleteSq => rfl
    | deleteCq => rfl
  · exact Prog.safe_stuck

theorem carries_ioCommand {address : Nat → Nat → Nat} {move : Slot → Nat → Nat → Code Unit} {r : Dir}
    (hm : ∀ t buf len, len < 2 ^ 32 → (p.demand P = .refused ∨ p.demand P = .data r buf len) →
      Owing p h (fun _ => True) (t.view c) → Carries P c F Q (move c buf len) t)
    (hd : p.demand P = .refused ∨ address p.sqBuf.cdw10 p.sqBuf.nlb ≠ 0 ∧
      p.demand P = .data r (address p.sqBuf.cdw10 p.sqBuf.nlb) (p.sqBuf.nlb * blkSize)) (other : ¬p.Logs) :
    Carries P c F Q (ioCommand P address move c) s := by
  refine Prog.safe_bind (w.ofCmd fun t w => Prog.safe_bind (w.ofCmd fun t w => ?_))
  refine Prog.safe_ite (fun _ => hm t _ _ ?_ (hd.imp_right fun both => both.2) w) fun zero => carries_return P w x (.inl ?_) other next
  · have := Nat.mod_lt p.sqBuf.cdw12 (Nat.two_pow_pos 16)
    rw [show blkSize = 512 from rfl]
    omega
  · exact hd.resolve_right fun both => zero both.1

theorem carries_vendorTransfer (all : F .vendorCb) (hd : p.demand P = .vendor) :
    Carries P c F Q (vendorTransfer P c (p.sqBuf.opc % 4) (bufferSize p.sqBuf.ndt)) s := by
  refine Prog.safe_ite (fun none => carries_sendCmd P w x.task x.moved (x.parts _) hd (fun _ brings => ?_) ?_ next) fun _ => ?_
  · obtain ⟨odd, some'⟩ := of_decide_eq_true brings
    rcases none with none | toHost
    · exact absurd none some'
    · rw [nvmeCmdXferToHost] at toHost
      omega
  · rw [x.none]
    exact nofun
  · refine Prog.safe_bind (w.ofCmd fun t w => Prog.safe_bind (w.setCmd fun t w => Prog.safe_bind ?_))
    have task := x.transfer (a := p.block.data) (n := bufferSize p.sqBuf.ndt) (r := .fromHost) (f := .vendorCb)
      (Nat.mod_lt _ (by decide)) trivial ⟨hd, rfl, x.parts .tx, rfl, rfl⟩
    refine carries_nvmeCmdTransferData P all w task rfl ⟨rfl, rfl, x.parts _, fun _ => x.whole⟩ (fun _ t w => ?_) fun t g => ?_
    · exact Prog.safe_when (fun _ => w.lose fun t w => next _ (w.lost _)) fun no => absurd rfl no
    · exact Prog.safe_when (fun h => nomatch h) fun _ => next t g

omit w x next in
theorem carries_bufferAlloc {size : Nat} {Q : Bool → Fw → Prop} (w : Owing p h k (s.view c))
    (got : ∀ t l, Owing { p with block := l.block } (.poolAlloc l :: h) k (t.view c) → Q true t)
    (failed : ∀ t, Owing p h k (t.view c) → Q false t) : Carries P c F Q (bufferAlloc P c size) s := by
  refine w.swap fun t w => ?_
  dsimp only
  split
  · rename_i b n pick
    let l : PoolBlock := ⟨b, n, c, (P.poolPick_size _ _ _ _ _ pick).2⟩
    have n : Owing p (.poolAlloc l :: h) k ((t.note (.poolAlloc l)).view c) := w.noted rfl rfl rfl
    refine got _ l ?_
    exact n.assigned fun p => { p with block := b }
  · exact failed _ w

omit w next in
/-- The first block that the command takes. -/
theorem Unserved.takes (none : grants h = []) (l : PoolBlock) : Unserved P c { p with block := l.block } (.poolAlloc l :: h) := by
  have dataless : (Obs.poolAlloc l).Dataless := fun _ => rfl
  refine ⟨⟨⟨x.task.fit.len, x.task.fit.cb⟩, List.mem_cons_of_mem _ x.task.answered, x.task.status,
    (milestones_none rfl).trans x.task.before, .inr ⟨l, ?_, rfl⟩, ?_⟩, x.none, fun ch => (parts_none (dataless ch)).trans (x.parts ch)⟩
  · have here : (Obs.poolAlloc l).block? = some l := rfl
    rw [grants, List.filterMap_cons_some here, ← grants, none]
  · rw [Asked, x.none]
    trivial

theorem carries_nvmeCmdVendor (all : F .vendorCb) (zeroBased : Bool) (block : grants h = [])
    (hd : ∀ e : SqBuf, e.opc = p.sqBuf.opc → { p with sqBuf := e }.demand P = .vendor) :
    Carries P c F Q (nvmeCmdVendor P c zeroBased) s := by
  refine Prog.safe_bind (w.ofCmd fun t w => Prog.safe_bind ?_)
  have rest {p' : NvmeCmdPriv} {t : Fw} (same : p'.sqBuf.opc = p.sqBuf.opc) (w : Owing p' h (fun _ => True) (t.view c))
      (x : Unserved P c p' h) (hd : p'.demand P = .vendor) : Carries P c F Q (do
      let size ← ofCmd c fun p => bufferSize p.sqBuf.ndt
      if p.sqBuf.opc % 4 ≠ nvmeCmdXferNone ∧ 0 < size ∧ size < 2 ^ 31 then do
        let ok ← bufferAlloc P c size
        if ok then vendorTransfer P c (p.sqBuf.opc % 4) size else lose c .bufferPool
      else vendorTransfer P c (p.sqBuf.opc % 4) size) t := by
    refine Prog.safe_bind (w.ofCmd fun t w => ?_)
    rw [← same]
    refine Prog.safe_ite (fun _ => Prog.safe_bind ?_) fun _ => carries_vendorTransfer P w x next all hd
    refine carries_bufferAlloc P w (fun t l w => ?_) fun t w => ?_
    · exact carries_vendorTransfer P (p := { p' with block := l.block }) w (x.takes P block l) next all hd
    · exact w.lose fun t w => next _ (w.lost _)
  refine Prog.safe_when (fun _ => w.setCmd fun t w => rest (by rfl) w ?_ (hd _ rfl)) fun _ => rest rfl w x (hd _ rfl)
  refine ⟨⟨⟨x.task.fit.len, x.task.fit.cb⟩, x.task.answered, x.task.status, x.task.before, x.task.names, ?_⟩, x.none, x.parts⟩
  rw [Asked, x.none]
  trivial

theorem carries_handleAdm (all : ∀ f, F f) (block : grants h = []) (q : p.qid = admQueueId) : Carries P c F Q (handleAdm P c) s := by
  have demand (e : SqBuf) : { p with sqBuf := e }.demand P = admDemand P e := demand_adm q
  have other {n : Nat} (opc : p.sqBuf.opc = n) (ne : n ≠ 0x02) : ¬p.Logs := fun logs => ne (opc.symm.trans logs.2.1)
  refine Prog.safe_bind (w.ofCmd fun t w => ?_)
  split <;> rename_i opc
  · exact carries_nvmeCmdAdmGetLog P w x next (all _) ((demand _).trans (by simp only [admDemand, opc]))
  · exact carries_nvmeCmdAdmIdentify P w x next (all _) ((demand _).trans (by simp only [admDemand, opc])) (other opc (by decide))
  · refine carries_nvmeCmdAdmSetFeatures P w x next ?_ (other opc (by decide))
    rw [show p.demand P = _ from demand p.sqBuf]
    simp only [admDemand, opc]
    split
    · exact .inr rfl
    · exact .inl rfl
  · exact carries_queueCommand P w x next .createSq ((demand _).trans (by simp only [admDemand, opc])) (other opc (by decide))
  · exact carries_queueCommand P w x next .createCq ((demand _).trans (by simp only [admDemand, opc])) (other opc (by decide))
  · exact carries_queueCommand P w x next .deleteSq ((demand _).trans (by simp only [admDemand, opc])) (other opc (by decide))
  · exact carries_queueCommand P w x next .deleteCq ((demand _).trans (by simp only [admDemand, opc])) (other opc (by decide))
  · exact carries_nvmeCmdVendor P w x next (all _) false block fun e same => (demand e).trans (by simp only [admDemand, same, opc])
  · exact carries_nvmeCmdVendor P w x next (all _) true block fun e same => (demand e).trans (by simp only [admDemand, same, opc])
  · have rest (e : SqBuf) (same : e.opc = p.sqBuf.opc) :
        admDemand P e = if 0xC0 ≤ p.sqBuf.opc then .vendor else .refused := by
      unfold admDemand
      rw [same]
      split <;> first | contradiction | rfl
    refine Prog.safe_ite (fun high => ?_) fun low => carries_return P w x (.inl ?_) (other rfl ‹_›) next
    · exact carries_nvmeCmdVendor P w x next (all _) false block fun e same =>
        (demand e).trans ((rest e same).trans (if_pos high))
    · exact (demand _).trans ((rest _ rfl).trans (if_neg low))

theorem carries_handleIo (all : ∀ f, F f) (block : grants h = []) (q : p.qid ≠ admQueueId) : Carries P c F Q (handleIo P c) s := by
  have demand (e : SqBuf) : { p with sqBuf := e }.demand P = ioDemand e := demand_io q
  have other : ¬p.Logs := fun logs => q logs.1
  refine Prog.safe_bind (w.ofCmd fun t w => ?_)
  split <;> rename_i opc
  · exact carries_return P w x (.inr ((demand _).trans (by simp only [ioDemand, opc]))) other next
  · refine carries_ioCommand P w x next (r := .fromHost)
      (fun t _ _ word hd w => carries_answer P (all _) w x word hd (fun logs => absurd logs other) next) ?_ other
    rw [show p.demand P = _ from demand p.sqBuf]
    simp only [ioDemand, opc]
    exact blockDemand_write _ _
  · refine carries_ioCommand P w x next (r := .toHost)
      (fun t _ _ word hd w => carries_answer P (all _) w x word hd (fun logs => absurd logs other) next) ?_ other
    rw [show p.demand P = _ from demand p.sqBuf]
    simp only [ioDemand, opc]
    exact blockDemand_read _ _
  · have rest (e : SqBuf) (same : e.opc = p.sqBuf.opc) :
        ioDemand e = if 0x80 ≤ p.sqBuf.opc then .vendor else .refused := by
      unfold ioDemand
      rw [same]
      split <;> first | contradiction | rfl
    refine Prog.safe_ite (fun high => ?_) fun low => carries_return P w x (.inl ?_) other next
    · exact carries_nvmeCmdVendor P w x next (all _) false block fun e same =>
        (demand e).trans ((rest e same).trans (if_pos high))
    · exact (demand _).trans ((rest _ rfl).trans (if_neg low))

end Handlers

/-- A fetched entry is handled. -/
theorem carries_nvmeCmdHandler (all : ∀ f, F f) {Q : Unit → Fw → Prop} (w : Owing p h (fun _ => True) (s.view c)) (fit : p.Fit)
    (none : p.xferCb = none) (fresh : ∀ ch, parts ch h = []) (before : milestones h = [.taken]) (block : p.block = {} ∧ grants h = [])
    (next : ∀ t, Standing P c (t.view c) → Q () t) : Carries P c F Q (nvmeCmdHandler P c) s := by
  refine Prog.safe_bind (w.change fun t w => ?_)
  have cmd : t.cmds c = p := w.priv
  have neutral (sqHead : Nat) : (Obs.handled c p.qid sqHead).Neutral := trivial
  have held (sqHead : Nat) : grants (.handled c p.qid sqHead :: h) = [] := (grants_none rfl).trans block.2
  have x (sqHead : Nat) : Unserved P c { p with cqBuf := { sqHead, cid := p.sqBuf.cid } } (.handled c p.qid sqHead :: h) := by
    refine ⟨⟨⟨fit.len, fit.cb⟩, List.mem_cons_self, ⟨rfl, rfl⟩, (milestones_none rfl).trans before, .inl ⟨held _, block.1⟩, ?_⟩,
      none, fun ch => (parts_none ((neutral _).dataless ch)).trans (fresh ch)⟩
    rw [Asked, none]
    trivial
  rw [cmd]
  have w' := (w.assigned fun r => { r with cqBuf := { sqHead := t.tc.sqHead p.qid, cid := r.sqBuf.cid } }).noted
    (o := .handled c p.qid (t.tc.sqHead p.qid)) rfl rfl rfl
  dsimp only
  refine Prog.safe_bind (Owing.ofCmd w' fun u w => Prog.safe_ite (fun q => ?_) fun q => ?_)
  · exact carries_handleAdm P w (x _) next all (held _) q
  · exact carries_handleIo P w (x _) next all (held _) q

/-- The last callback of a command gives its slot back. -/
theorem carries_cqCb {Q : Unit → Fw → Prop} {d : Desc} (w : Owing p h (· = .tx) (s.view c))
    (posted : milestones h = [.posted d, .taken]) (next : ∀ t, (∀ f, Gone P c f p.xferLen (t.view c)) → Q () t) :
    Carries P c F Q (cqCb c) s := by
  refine Prog.safe_bind (w.ofCmd fun t w => Prog.safe_bind (w.change fun t w => Owing.change w fun t w => next _ fun f => ?_))
  have freed : milestones (.cmdFree c :: h) = [.freed, .posted d, .taken] := by
    have here : (Obs.cmdFree c).milestone? = some .freed := rfl
    rw [milestones, List.filterMap_cons_some here, ← milestones, posted]
  have view : (Fw.note { t with cmdSlab := t.cmdSlab.free c } (.cmdFree c)).view c =
      { (t.view c).note (.cmdFree c) with held := false } := by
    ext1
    · change decide (c ∈ (t.cmdSlab.free c).used) = false
      rw [decide_eq_false_iff_not, Slab.mem_free]
      exact fun both => both.1 rfl
    · rfl
    · rfl
    · rfl
    · exact past_own rfl rfl
  rw [view]
  refine ⟨.free rfl w.requests (w.plain .rx) (w.empty .tx rfl) (.inr ⟨d, ?_⟩), w.requests, fun ch x hx cb e hcb => ?_, ?_⟩
  · simp only [View.note, w.past, freed]
  · rw [(w.plain ch x hx).1] at hcb
    cases hcb
  · exact congrArg NvmeCmdPriv.xferLen w.priv

theorem carries_kMemPoolFree {Q : Unit → Fw → Prop} (w : Owing p h k (s.view c))
    (next : ∀ t o, o.Neutral → Owing p (o :: h) k (t.view c) → Q () t) : Carries P c F Q (kMemPoolFree c) s := by
  refine w.change fun t w => ?_
  dsimp only
  generalize ho : Obs.poolFree c (t.cmds c).block _ = o
  have own : o.of = some c ∧ o.opens = false ∧ o.Neutral := by
    rw [← ho]
    exact ⟨rfl, rfl, trivial⟩
  have n : Owing p (o :: h) k ((t.note o).view c) := w.noted own.1 own.2.1 own.2.2.milestone
  exact next _ o own.2.2 n

theorem standing_kMemPoolFree {Q : Unit → Fw → Prop} (g : Standing P c (s.view c))
    (next : ∀ t, Standing P c (t.view c) → Q () t) : Carries P c F Q (kMemPoolFree c) s := by
  refine Prog.safe_change (stable_standing _ (by simp)) g fun t g => next _ ?_
  dsimp only
  generalize ho : Obs.poolFree c (t.cmds c).block _ = o
  have own : o.of = some c ∧ o.opens = false ∧ o.Neutral := by
    rw [← ho]
    exact ⟨rfl, rfl, trivial⟩
  have n : Standing P c ((t.note o).view c) := by
    rw [view_note_own own.1 own.2.1]
    exact g.note own.2.2
  exact n

/-- The entry for a command whose data transfer is complete. -/
theorem settled_moved {f : Cb} (task : Task P c p h) (xferCb : p.xferCb = some f) (moved : AllMoved c p h) (plain : f ≠ .vendorCb) :
    Settled P c p h (∀ _ : Chan, True) := by
  have asked := task.asked
  rw [Asked, xferCb] at asked
  refine ⟨fun _ _ => ⟨fun _ => trivial, moved⟩, fun served meant => ?_, fun _ logs _ => ⟨by rw [xferCb]; exact nofun, ?_⟩⟩
  · have covers := (moved served).2 (by rw [xferCb]; exact nofun)
    unfold Performed
    cases f with
    | nvmeCmdReturnCb =>
      rcases asked.1 with refused | data
      · exact absurd (.inl refused) meant
      · rw [data]
        exact covers
    | rpmsgCmdReturnCb =>
      obtain ⟨vendor, dir, m, sent, base, size⟩ := asked
      rw [vendor]
      rw [dir, base, size] at covers
      exact ⟨m, sent, fun _ => covers⟩
    | vendorCb => exact absurd rfl plain
    | _ => exact asked.elim
  · cases f with
    | nvmeCmdReturnCb => exact asked.2 logs
    | rpmsgCmdReturnCb => exact absurd logs (not_logs_of_vendor asked.1)
    | vendorCb => exact absurd rfl plain
    | _ => exact asked.elim

theorem carries_rpmsgCmdReturnCb {Q : Unit → Fw → Prop} (w : Owing p h (fun _ => True) (s.view c)) (task : Task P c p h)
    (xferCb : p.xferCb = some .rpmsgCmdReturnCb) (moved : AllMoved c p h)
    (next : ∀ t, (∀ f, Gone P c f p.xferLen (t.view c)) → Q () t) : Carries P c F Q (rpmsgCmdReturnCb P c) s := by
  refine Prog.safe_bind (carries_kMemPoolFree P w fun t o neutral w => ?_)
  have noted := task.note neutral
  exact carries_nvmeCmdReturn P w noted (settled_moved P noted xferCb (moved.note neutral.dataless) nofun) next

/-- The call of the polling thread for an answered request. -/
theorem carries_rpmsgEndpointCb {m : RpmsgPayload} (hf : m.id = rpmsgCmdReturnDataId → F .rpmsgCmdReturnCb)
    {Q : Unit → Fw → Prop} (priv : m.priv = c) (w : Owing p h (fun _ => True) (s.view c)) (task : Task P c p h)
    (moved : AllMoved c p h) (tx : parts .tx h = []) (vendor : p.demand P = .vendor)
    (sent : ∃ m', Sent c p.sqBuf p.block h m' ∧ m.buf = m'.buf ∧ m.bufLen = m'.bufLen)
    (earlier : p.xferCb ≠ some .rpmsgCmdReturnCb) (next : ∀ t, Standing P c (t.view c) → Q () t) :
    Carries P c F Q (rpmsgEndpointCb P m) s := by
  subst priv
  refine Prog.safe_ite (fun _ => Prog.safe_bind ?_) fun _ => Prog.safe_ite (fun data => ?_) fun _ => ?_
  · have settled : Settled P m.priv p h (∀ _ : Chan, True) := by
      refine ⟨fun _ _ => ⟨fun _ => trivial, moved⟩, fun served _ => ?_, fun _ logs => absurd logs (not_logs_of_vendor vendor)⟩
      obtain ⟨m', sent, -⟩ := sent
      rw [Performed, vendor]
      exact ⟨m', sent, fun back => absurd back earlier⟩
    refine carries_nvmeCmdReturn P w task settled fun t g => ?_
    refine Prog.safe_bind (Prog.safe_look (stable_standing _ (by simp)) (g .cqCb).standing fun t g => ?_)
    exact Prog.safe_when (fun _ => standing_kMemPoolFree P g next) fun _ => next t g
  · refine Prog.safe_bind (w.ofCmd fun t w => Prog.safe_bind (w.setCmd fun t w => ?_))
    have task' : Task P m.priv { p with
        xferBase := m.buf, xferBuf := m.buf, xferSize := m.bufLen, xferLen := m.bufLen
        dir := .toHost, xferCb := some .rpmsgCmdReturnCb } h := by
      refine ⟨⟨m.word, fun g e => ?_⟩, task.answered, task.status, task.before, task.names, ?_⟩
      · cases e
        trivial
      · obtain ⟨m', sent, buf, len⟩ := sent
        exact ⟨vendor, rfl, m', sent, buf, len⟩
    refine Prog.safe_ite (fun psdt => ?_) fun psdt => Prog.safe_bind ?_
    · exact carries_nvmeCmdReturn P w task' (settled_refused P (.inr ⟨nofun, psdt⟩) ⟨nofun, psdt⟩) fun t g => next t (g .cqCb).standing
    · refine carries_nvmeCmdTransferData P (hf data) w task' rfl ⟨rfl, rfl, tx, fun served => (moved served).1⟩
        (fun other => absurd (not_not.mp psdt) other) fun t g => Prog.safe_pure (next t g)
  · exact w.lose fun t w => next _ (w.lost _)

end Functions
end AlkaliFw
