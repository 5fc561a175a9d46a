import AlkaliFw.Completion
import AlkaliFw.Success
import AlkaliFw.RingRuns
import AlkaliFw.Tickets

/-! Completion slots that two contexts take. The thread takes a ticket with the tail and the phase
of the queue and uses it some actions later; interrupt handlers take and use theirs at once. While
the thread takes its ticket none of them may take one, afterwards they may. -/

namespace AlkaliFw
open Resumption

def NvmeTcPriv.cqWriter (tc : NvmeTcPriv) (q : QId) : Ring.Writer := ⟨tc.cqBase q, tc.cqSize q, tc.cqTail q, tc.cqPhase q⟩

/-- Address and phase of a completion entry that was submitted for `q`. -/
def Obs.post? (q : QId) : Obs → Option (Nat × Bool)
  | .queued _ d p => if d.callback.map (·.1) = some .cqCb ∧ p.qid = q then some (d.hostAddr, p.cqBuf.p) else none
  | _ => none

/-- The entries submitted since the queue was created, newest first. -/
def posts (q : QId) (tr : List Obs) : List (Nat × Bool) :=
  (tr.takeWhile fun o => decide (o.createdCq? ≠ some q)).filterMap (Obs.post? q)

/-- A number that was passed over so far. -/
def Gap (ks : List Nat) (j : Nat) : Prop := j ∉ ks ∧ ∃ k ∈ ks, j < k

/-- The entries took the slots with the numbers `ks`, each with the phase of its pass, no two of a
pass the same, and none was passed over unless the thread is about to use it. -/
structure CqOrderly (q : QId) (S : Sys) (ks : List Nat) : Prop where
  entries : posts q S.fw.trace = ks.map fun k => (S.fw.tc.cqSlot q k, Ring.phase (S.fw.tc.cqSize q) k)
  once : ks.Nodup
  apart : ∀ j ∈ ks, ∀ k ∈ ks, j < k → k < j + S.fw.tc.cqSize q → S.fw.tc.cqSlot q j ≠ S.fw.tc.cqSlot q k
  one : ∀ i j, Gap ks i → Gap ks j → i = j
  pending : ∀ j, Gap ks j → ∃ call ∈ S.call, (S.fw.cmds call.cmd).qid = q

/-- No slot of the ring is at address zero, which the source takes for a full ring. -/
def NvmeTcPriv.CqAddressed (tc : NvmeTcPriv) (q : QId) : Prop := ∀ k < tc.cqSize q, tc.cqSlot q k ≠ 0

def Addressed (w : Ring.Writer) : Prop := ∀ k < w.size, w.slot nvmeTcCqEntrySize (2 ^ 64) k ≠ 0

theorem Addressed.slot_ne {w : Ring.Writer} (h : Addressed w) (size : 0 < w.size) (k : Nat) : w.slot nvmeTcCqEntrySize (2 ^ 64) k ≠ 0 := by
  rw [← Ring.Writer.slot_mod]
  exact h _ (Nat.mod_lt k size)

section Law

variable {q : QId} {w : Ring.Writer} {held : List Nat} {s t u : Fw}

theorem posts_none {o : Obs} {tr : List Obs} (other : o.createdCq? ≠ some q) (none : o.post? q = none) : posts q (o :: tr) = posts q tr := by
  rw [posts, List.takeWhile_cons, if_pos (decide_eq_true other), List.filterMap_cons_none none]
  rfl

theorem posts_some {o : Obs} {tr : List Obs} {e : Nat × Bool} (other : o.createdCq? ≠ some q) (some' : o.post? q = some e) :
    posts q (o :: tr) = e :: posts q tr := by
  rw [posts, List.takeWhile_cons, if_pos (decide_eq_true other), List.filterMap_cons_some some']
  rfl

theorem posts_created (tr : List Obs) : posts q (.cqCreated q :: tr) = [] := by
  rw [posts, List.takeWhile_cons, if_neg (by simp [Obs.createdCq?])]
  rfl

/-- The ring that `w` writes, of whose tickets those in `held` are to be used. -/
structure Booked (q : QId) (w : Ring.Writer) (held : List Nat) (s : Fw) : Prop where
  word : w.size ≤ 2 ^ 16
  law : Addressed w →
    ∃ lost n ks, Ring.Tickets nvmeTcCqEntrySize (2 ^ 64) w (posts q s.trace) held lost n ks ∧
      (lost ≠ [] → ∃ c, .lost c .descriptor ∈ s.trace)

abbrev Held (q : QId) (held : List Nat) (s : Fw) : Prop := Booked q (s.tc.cqWriter q) held s

/-- No slot of `q` was taken or used. -/
structure Still (q : QId) (s t : Fw) : Prop where
  writer : t.tc.cqWriter q = s.tc.cqWriter q
  posts : posts q t.trace = posts q s.trace
  trace : s.trace <:+ t.trace

theorem Still.refl (s : Fw) : Still q s s := ⟨rfl, rfl, List.suffix_rfl⟩

theorem Still.trans (h : Still q s t) (g : Still q t u) : Still q s u :=
  ⟨g.writer.trans h.writer, g.posts.trans h.posts, h.trace.trans g.trace⟩

theorem Still.silent (writer : t.tc.cqWriter q = s.tc.cqWriter q) (trace : t.trace = s.trace) : Still q s t :=
  ⟨writer, by rw [trace], trace ▸ List.suffix_rfl⟩

theorem Still.noted {o : Obs} (writer : t.tc.cqWriter q = s.tc.cqWriter q) (trace : t.trace = o :: s.trace)
    (other : o.createdCq? ≠ some q) (none : o.post? q = none) : Still q s t :=
  ⟨writer, by rw [trace, posts_none other none], trace ▸ List.suffix_cons ..⟩

theorem Booked.still (h : Booked q w held s) (still : Still q s t) : Booked q w held t := by
  refine ⟨h.word, fun addressed => ?_⟩
  obtain ⟨lost, n, ks, tickets, gone⟩ := h.law addressed
  refine ⟨lost, n, ks, still.posts ▸ tickets, fun some' => ?_⟩
  obtain ⟨c, mem⟩ := gone some'
  exact ⟨c, still.trace.mem mem⟩

theorem Booked.silent (h : Booked q w held s) (trace : t.trace = s.trace) : Booked q w held t := ⟨h.word, trace ▸ h.law⟩

theorem Held.still (h : Held q held s) (still : Still q s t) : Held q held t := by
  rw [Held, still.writer]
  exact Booked.still h still

/-- A ring without entries, at the start of its first pass. -/
theorem held_unused (word : s.tc.cqSize q ≤ 2 ^ 16) (tail : s.tc.cqTail q = 0) (phase : s.tc.cqPhase q = false)
    (none : posts q s.trace = []) : Held q [] s := by
  refine ⟨word, fun _ => ⟨[], 0, [], ?_, fun some' => absurd rfl some'⟩⟩
  rw [none]
  exact Ring.tickets_start tail phase

theorem held_createCq (p : NvmeCmdPriv) (s : Fw) : Held q [] (createCq p q s) := by
  refine held_unused ?_ ?_ ?_ (posts_created _)
  · have size : (createCq p q s).tc.cqSize q = (p.sqBuf.lastEntry + 1) % 2 ^ 16 := congrArg Ring.Row.size cqRingRow_create
    rw [size]
    exact (Nat.mod_lt _ (by decide)).le
  · exact congrArg Ring.Row.pos (cqRingRow_create (p := p) (s := s) (q := q))
  · exact Function.update_self ..

/-- The slot at the tail is taken. -/
theorem Booked.allot (h : Booked q w held s) (size : 0 < w.size) : ∃ n, Booked q (w.allot (2 ^ 16)) (n :: held) s ∧
    (Addressed w →
      (w.base + w.tail * nvmeTcCqEntrySize) % 2 ^ 64 = w.slot nvmeTcCqEntrySize (2 ^ 64) n ∧ (w.allot (2 ^ 16)).phase = Ring.phase w.size n) := by
  by_cases addressed : Addressed w
  · obtain ⟨lost, n, ks, tickets, gone⟩ := h.law addressed
    exact ⟨n, ⟨h.word, fun _ => ⟨lost, n + 1, ks, tickets.allot size h.word, gone⟩⟩, fun _ => ⟨tickets.slot_tail, tickets.phase_allot size⟩⟩
  · exact ⟨0, ⟨h.word, fun addressed' => absurd addressed' addressed⟩, fun addressed' => absurd addressed' addressed⟩

/-- The entry for a ticket is submitted. -/
theorem Booked.post {k a : Nat} {phase : Bool} {o : Obs} (h : Booked q w (k :: held) s) (trace : t.trace = o :: s.trace)
    (other : o.createdCq? ≠ some q) (entry : o.post? q = some (a, phase))
    (own : Addressed w → a = w.slot nvmeTcCqEntrySize (2 ^ 64) k ∧ phase = Ring.phase w.size k) :
    Booked q w held t := by
  refine ⟨h.word, fun addressed => ?_⟩
  obtain ⟨lost, n, ks, tickets, gone⟩ := h.law addressed
  obtain ⟨rfl, rfl⟩ := own addressed
  refine ⟨lost, n, k :: ks, ?_, fun some' => ?_⟩
  · rw [trace, posts_some other entry]
    exact tickets.post
  · obtain ⟨c, mem⟩ := gone some'
    exact ⟨c, trace ▸ List.mem_cons_of_mem _ mem⟩

/-- A ticket is lost for want of a descriptor. -/
theorem Booked.drop {k : Nat} {c : Slot} (h : Booked q w (k :: held) s) (trace : t.trace = .lost c .descriptor :: s.trace) : Booked q w held t := by
  refine ⟨h.word, fun addressed => ?_⟩
  obtain ⟨lost, n, ks, tickets, gone⟩ := h.law addressed
  refine ⟨k :: lost, n, ks, ?_, fun _ => ⟨c, trace ▸ List.mem_cons_self⟩⟩
  rw [trace, posts_none (by simp [Obs.createdCq?]) rfl]
  exact tickets.drop

end Law

section Steps

variable {P : Platform} {q : QId} {c : Slot} {l : Access} {s t : Fw}

theorem Still.put {ch : Chan} {d : Desc} (s : Fw) (other : ∀ e, d.callback ≠ some (.cqCb, e)) : Still q s (s.put ch d) := by
  refine .noted (o := .queued ch d (s.cmds d.owner)) rfl rfl (by simp [Obs.createdCq?]) (if_neg fun h => ?_)
  obtain ⟨⟨cb, e⟩, some', rfl⟩ := Option.map_eq_some_iff.mp h.1
  exact other e some'

theorem Still.lost (why : Loss) (s : Fw) : Still q s (s.note (.lost c why)) := .noted rfl rfl (by simp [Obs.createdCq?]) rfl

theorem CmdActs.still (act : CmdActs P c Deletion l s t) : Still q s t := by
  cases act with
  | queue update =>
    cases update with
    | deleteSq => exact .silent rfl rfl
    | deleteCq => exact .silent rfl rfl
  | put s shape =>
    refine .put s fun e some' => ?_
    cases shape with
    | list loc cb owner =>
      rw [cb] at some'
      cases some'
    | data loc cb owner =>
      rcases cb with none | ⟨f, ends, cb⟩
      · rw [none] at some'
        cases some'
      · rw [cb] at some'
        cases some'
        exact ends
  | noDescriptor => exact .noted rfl rfl (by simp [Obs.createdCq?]) rfl
  | cmdFree => exact .noted rfl rfl (by simp [Obs.createdCq?]) rfl
  | lost why => exact .lost why s
  | prpAlloc => exact .noted rfl rfl (by simp [Obs.createdCq?]) rfl
  | noPrpBuffer => exact .noted rfl rfl (by simp [Obs.createdCq?]) rfl
  | prpFree => exact .noted rfl rfl (by simp [Obs.createdCq?]) rfl
  | sent => exact .noted rfl rfl (by simp [Obs.createdCq?]) rfl
  | buffer => exact .noted rfl rfl (by simp [Obs.createdCq?]) rfl
  | poolFree => exact .noted rfl rfl (by simp [Obs.createdCq?]) rfl
  | _ => exact .silent rfl rfl

theorem Outside.still (act : Outside P s t) : Still q s t := by
  cases act with
  | done finish =>
    obtain ⟨d, -, ⟨host, ram, prpMem, cmds, rfl⟩, -⟩ := Fw.finished_of_finish finish
    exact .noted (o := .finished _ d) rfl rfl (by simp [Obs.createdCq?]) rfl
  | _ => exact .silent rfl rfl

theorem FetchAct.still (act : FetchAct P l s t) : Still q s t := by
  cases act with
  | cmdAlloc q' => exact .noted (o := .cmdAlloc _ q') rfl rfl (by simp [Obs.createdCq?]) rfl
  | skipped q' => exact .noted (o := .skipped q') rfl rfl (by simp [Obs.createdCq?]) rfl
  | noDescriptor c => exact .noted (o := .noDescriptor c) rfl rfl (by simp [Obs.createdCq?]) rfl
  | fetch c s loc cb =>
    refine .put s fun e some' => ?_
    rw [cb] at some'
    cases some'
  | lost c why => exact .lost why s
  | _ => exact .silent rfl rfl

theorem still_get (ch : Chan) : Still q s (s.get ch) := by
  unfold Fw.get
  split
  · exact .silent rfl rfl
  · exact .noted rfl rfl (by simp [Obs.createdCq?]) rfl

end Steps

section Atomic

variable {P : Platform} {q : QId} {c : Slot} {held : List Nat} {s t : Fw}

theorem cqWriter_allot (tc : NvmeTcPriv) (q : QId) : (tc.allot q).cqWriter q = (tc.cqWriter q).allot (2 ^ 16) := by
  by_cases first : tc.cqTail q = 0
  · simp [NvmeTcPriv.allot, NvmeTcPriv.cqWriter, Ring.Writer.allot, first]
  · simp [NvmeTcPriv.allot, NvmeTcPriv.cqWriter, Ring.Writer.allot, first]

theorem cqWriter_allot_other {q' : QId} (other : q' ≠ q) (tc : NvmeTcPriv) : (tc.allot q').cqWriter q = tc.cqWriter q := by
  by_cases first : tc.cqTail q' = 0
  · simp [NvmeTcPriv.allot, NvmeTcPriv.cqWriter, first, Function.update_of_ne (Ne.symm other)]
  · simp [NvmeTcPriv.allot, NvmeTcPriv.cqWriter, first, Function.update_of_ne (Ne.symm other)]

theorem run_nvmeTcGetCqAddr_stuck {q : QId} {s : Fw} (size : s.tc.cqSize q = 0) : (nvmeTcGetCqAddr q).run s = none := by
  simp [nvmeTcGetCqAddr, Prog.run_bind, size]

/-- What a return leaves that others do not interrupt: nothing, a ticket without use, or an entry. -/
inductive ReturnOutcome (c : Slot) (q : QId) (s t : Fw) : Prop where
  | full (state : t = s.note (.lost c .completionQueueFull))
  | zero (tc : t.tc = s.tc.allot q) (trace : t.trace = .lost c .completionQueueFull :: s.trace)
      (addr : (s.tc.cqBase q + s.tc.cqTail q * nvmeTcCqEntrySize) % 2 ^ 64 = 0)
  | dry (tc : t.tc = s.tc.allot q) (trace : t.trace = .lost c .descriptor :: .noDescriptor c :: s.trace)
  | posted (d : Desc) (p : NvmeCmdPriv) (tc : t.tc = s.tc.allot q) (trace : t.trace = .queued .tx d p :: s.trace)
      (cb : d.callback = some (.cqCb, c)) (qid : p.qid = q)
      (addr : d.hostAddr = (s.tc.cqBase q + s.tc.cqTail q * nvmeTcCqEntrySize) % 2 ^ 64) (phase : p.cqBuf.p = (s.tc.allot q).cqPhase q)

theorem run_nvmeCmdReturn (run : (nvmeCmdReturn P c).run s = some ((), t)) :
    0 < s.tc.cqSize (s.cmds c).qid ∧ ReturnOutcome c (s.cmds c).qid s t := by
  rcases Nat.eq_zero_or_pos (s.tc.cqSize (s.cmds c).qid) with none | size
  · simp [nvmeCmdReturn, Prog.run_bind, ofCmd, run_nvmeTcGetCqAddr_stuck none] at run
  refine ⟨size, ?_⟩
  have addr := run_nvmeTcGetCqAddr size
  by_cases full : s.tc.cqFull (s.cmds c).qid
  · rw [if_pos full] at addr
    simp only [nvmeCmdReturn, lose, Prog.run_bind, ofCmd, Prog.run_look, Option.bind_some, addr, if_true, Prog.run_change] at run
    cases run
    exact .full rfl
  · rw [if_neg full] at addr
    simp only [nvmeCmdReturn, lose, loseUnless, nvmeDmaXferMemToHost, Prog.run_bind, ofCmd, setCmd, Prog.run_look,
      Option.bind_some, addr] at run
    split at run
    · rename_i zero
      cases run
      exact .zero rfl rfl zero
    · simp only [Prog.run_bind, Prog.run_look, Prog.run_change, Option.bind_some] at run
      generalize hu : (s.setTc _).setCmd c _ = u at run
      have tc : u.tc = s.tc.allot (s.cmds c).qid := by rw [← hu]; rfl
      have trace : u.trace = s.trace := by rw [← hu]; rfl
      have cmd : u.cmds c = { s.cmds c with cqBuf := { (s.cmds c).cqBuf with p := (s.tc.allot (s.cmds c).qid).cqPhase (s.cmds c).qid } } := by
        rw [← hu]
        exact Function.update_self ..
      rcases run_nvmeDmaXfer P .tx 0x55 ((s.tc.cqBase (s.cmds c).qid + s.tc.cqTail (s.cmds c).qid * nvmeTcCqEntrySize) % 2 ^ 64) (.cqBuf c)
        nvmeTcCqEntrySize (some (.cqCb, c)) c u with ⟨block, slab, run', -, -⟩ | ⟨run', -⟩
      · rw [run'] at run
        cases run
        refine .posted _ (u.cmds c) tc (congrArg _ trace) rfl ?_ rfl ?_
        · rw [cmd]
        · rw [cmd]
      · rw [run'] at run
        cases run
        refine .dry tc ?_
        rw [← trace]
        rfl

theorem Held.run_nvmeCmdReturn (h : Held q held s) (run : (nvmeCmdReturn P c).run s = some ((), t)) : Held q held t := by
  obtain ⟨size, outcome⟩ := AlkaliFw.run_nvmeCmdReturn run
  by_cases own : (s.cmds c).qid = q
  · rw [own] at size outcome
    obtain ⟨n, booked, slot⟩ := Booked.allot h size
    have taken (tc : t.tc = s.tc.allot q) : t.tc.cqWriter q = (s.tc.cqWriter q).allot (2 ^ 16) := by rw [tc, cqWriter_allot]
    cases outcome with
    | full state => exact h.still (state ▸ .lost _ s)
    | zero tc trace addr =>
      rw [Held, taken tc]
      exact ⟨booked.word, fun addressed => absurd ((slot addressed).1.symm.trans addr) (Addressed.slot_ne addressed size n)⟩
    | dry tc trace =>
      rw [Held, taken tc]
      have noted : Booked q _ (n :: held) (s.note (.noDescriptor c)) := booked.still (.noted rfl rfl (by simp [Obs.createdCq?]) rfl)
      exact noted.drop trace
    | posted d p tc trace cb qid addr phase =>
      rw [Held, taken tc]
      refine booked.post trace (by simp [Obs.createdCq?]) (if_pos ⟨by rw [cb]; rfl, qid⟩) fun addressed => ?_
      obtain ⟨here, pass⟩ := slot addressed
      refine ⟨addr.trans here, phase.trans (.trans ?_ pass)⟩
      exact congrArg Ring.Writer.phase (cqWriter_allot s.tc q)
  · have same (tc : t.tc = s.tc.allot (s.cmds c).qid) : t.tc.cqWriter q = s.tc.cqWriter q := by rw [tc, cqWriter_allot_other own]
    cases outcome with
    | full state => exact h.still (state ▸ .lost _ s)
    | zero tc trace addr => exact h.still (.noted (same tc) trace (by simp [Obs.createdCq?]) rfl)
    | dry tc trace =>
      have noted : Still q s (s.note (.noDescriptor c)) := .noted rfl rfl (by simp [Obs.createdCq?]) rfl
      exact h.still (noted.trans (.noted (same tc) trace (by simp [Obs.createdCq?]) rfl))
    | posted d p tc trace cb qid addr phase =>
      exact h.still (.noted (same tc) trace (by simp [Obs.createdCq?]) (if_neg fun both => own (qid.symm.trans both.2)))

/-- Base and size of a completion ring. -/
def NvmeTcPriv.cqPlace (tc : NvmeTcPriv) (q : QId) : Nat × Nat := (tc.cqBase q, tc.cqSize q)

/-- What an interrupt handler leaves of the queue, which it may create anew. -/
def Resumed (q : QId) (held : List Nat) (s t : Fw) : Prop :=
  ∃ new, t.trace = new ++ s.trace ∧ (held = [] ∨ .cqCreated q ∉ new → Held q held s → Held q held t) ∧
    (.cqCreated q ∉ new → t.tc.cqPlace q = s.tc.cqPlace q)

theorem Resumed.start (held : List Nat) (s : Fw) : Resumed q held s s := ⟨[], rfl, fun _ => id, fun _ => rfl⟩

theorem Resumed.step {u : Fw} (h : Resumed q held s t) (trace : t.trace <:+ u.trace) (keeps : Held q held t → Held q held u)
    (place : u.tc.cqPlace q = t.tc.cqPlace q) : Resumed q held s u := by
  obtain ⟨new, e, law, same⟩ := h
  obtain ⟨more, e'⟩ := trace
  refine ⟨more ++ new, by rw [← e', e, List.append_assoc], fun kept hs => keeps (law ?_ hs), fun fresh => place.trans (same ?_)⟩
  · exact kept.imp_right fun fresh mem => fresh (List.mem_append_right _ mem)
  · exact fun mem => fresh (List.mem_append_right _ mem)

theorem Resumed.still {u : Fw} (h : Resumed q held s t) (still : Still q t u) : Resumed q held s u :=
  h.step still.trace (fun held => held.still still) (congrArg (fun w : Ring.Writer => (w.base, w.size)) still.writer)

theorem Resumed.run_nvmeCmdReturn {u : Fw} (h : Resumed q held s t) (run : (nvmeCmdReturn P c).run t = some ((), u)) : Resumed q held s u := by
  obtain ⟨new, e, -⟩ := (returned_of_run P run).trace
  refine h.step ⟨new, e.symm⟩ (fun held => held.run_nvmeCmdReturn run) ?_
  obtain ⟨size, outcome⟩ := AlkaliFw.run_nvmeCmdReturn run
  cases outcome with
  | full state => rw [state]; rfl
  | zero tc => rw [tc]; rfl
  | dry tc => rw [tc]; rfl
  | posted d p tc => rw [tc]; rfl

theorem MadeOf.resumed {u : Fw} {p : Code Unit} (made : MadeOf P c Deletion p) (fit : Fitted t) (h : Resumed q held s t)
    (run : p.run t = some ((), u)) : Resumed q held s u := by
  refine (Prog.Over.run (I := fun u => Fitted u ∧ Resumed q held s u) made (fun _ hu => hu.1) (fun l u v act hu => ?_) ?_ ⟨fit, h⟩ run).2
  · exact ⟨fitted_closed.fine c _ _ _ (.own act.own) hu.1, hu.2.still act.still⟩
  · rintro _ u v rfl run hu
    exact ⟨(acts_nvmeCmdReturn P c).run (fun _ h => h) (fitted_closed.fine c) hu.1 run, hu.2.run_nvmeCmdReturn run⟩

theorem Resumed.queueCommand {u : Fw} {update : NvmeCmdPriv → QId → Fw → Fw} (h : Resumed q held s t)
    (updated : ∀ q', Resumed q held s (update (t.cmds c) q' t)) (run : (queueCommand P c update).run t = some ((), u)) : Resumed q held s u := by
  simp only [AlkaliFw.queueCommand, Prog.run_bind, ofCmd, Prog.run_look, Option.bind_some, id] at run
  split at run
  · exact h.run_nvmeCmdReturn run
  · split at run
    · exact (updated _).run_nvmeCmdReturn run
    · cases run

theorem Resumed.createSq (h : Resumed q held s t) (p : NvmeCmdPriv) (q' : QId) : Resumed q held s (createSq p q' t) :=
  h.still (.noted (o := .sqCreated q') rfl rfl (by simp [Obs.createdCq?]) rfl)

theorem Resumed.createCq (h : Resumed q held s t) (p : NvmeCmdPriv) (q' : QId) : Resumed q held s (createCq p q' t) := by
  by_cases here : q' = q
  · subst here
    obtain ⟨new, e, -⟩ := h
    refine ⟨.cqCreated q' :: new, congrArg _ e, fun kept _ => ?_, fun fresh => absurd List.mem_cons_self fresh⟩
    rcases kept with rfl | fresh
    · exact held_createCq p t
    · exact absurd List.mem_cons_self fresh
  · refine h.still (.noted (o := .cqCreated q') ?_ rfl (by simpa [Obs.createdCq?] using here) rfl)
    simp [NvmeTcPriv.cqWriter, AlkaliFw.createCq, Fw.note, Fw.setTc, Function.update_of_ne (Ne.symm here)]

theorem Resumed.dispatch {u : Fw} (fit : Fitted t) (h : Resumed q held s t) (run : (dispatch P c).run t = some ((), u)) : Resumed q held s u := by
  have other {p : Code Unit} (made : MadeOf P c Deletion p) (run : p.run t = some ((), u)) : Resumed q held s u := made.resumed fit h run
  simp only [AlkaliFw.dispatch, Prog.run_bind, ofCmd, Prog.run_look, Option.bind_some] at run
  split at run
  · simp only [handleAdm, Prog.run_bind, ofCmd, Prog.run_look, Option.bind_some] at run
    split at run
    · exact other (made_nvmeCmdAdmGetLog P c) run
    · exact other (made_nvmeCmdAdmIdentify P c) run
    · exact other (made_nvmeCmdAdmSetFeatures P c) run
    · exact h.queueCommand (h.createSq _) run
    · exact h.queueCommand (h.createCq _) run
    · exact other (made_queueCommand P c .deleteSq) run
    · exact other (made_queueCommand P c .deleteCq) run
    · exact other (made_nvmeCmdVendor P c false) run
    · exact other (made_nvmeCmdVendor P c true) run
    · exact other (Prog.over_ite (fun _ => made_nvmeCmdVendor P c false) fun _ => made_nvmeCmdReturn P c) run
  · exact other (made_handleIo P c) run

/-- The DMA interrupt takes and uses whole tickets. -/
theorem resumed_dmaIrq (held : List Nat) (fit : Fitted s) (run : (nvmeDmaIrqHandler (callback P)).run s = some ((), t)) : Resumed q held s t := by
  have handler := over_dmaIrq (P := P) (R := fun _ u v => Still q u v ∧ (Fitted u → Fitted v)) (fun ch s => ⟨.silent rfl rfl, id⟩)
    (fun ch s => ⟨still_get ch, fitted_closed.get (P := P) ch s⟩) (fun b s => ⟨.noted rfl rfl (by simp [Obs.createdCq?]) rfl, id⟩)
    (fun ch s => ⟨.silent rfl rfl, id⟩) (fun c s => ⟨.noted (o := .handled c _ _) rfl rfl (by simp [Obs.createdCq?]) rfl, fitted_closed.handled (P := P) c s⟩)
    fun c l u v act => ⟨act.still, fitted_closed.fine c _ _ _ (.own act.own)⟩
  refine (Prog.Over.run (I := fun u => Fitted u ∧ Resumed q held s u) handler (fun _ hu => hu.1) (fun l u v act hu => ⟨act.2 hu.1, hu.2.still act.1⟩) ?_
    ⟨fit, .start held s⟩ run).2
  rintro _ u v ⟨c, rfl | rfl⟩ run hu
  · exact ⟨(acts_nvmeCmdReturn P c).run (fun _ h => h) (fitted_closed.fine c) hu.1 run, hu.2.run_nvmeCmdReturn run⟩
  · exact ⟨(made_dispatch P c).acts.run (fun _ h => h) (fitted_closed.fine c) hu.1 run, hu.2.dispatch hu.1 run⟩

end Atomic

section Thread

variable {P : Platform} {q : QId} {c : Slot} {F : Cb → Prop} {l : Access} {good : NvmeCmdPriv → Prop} {held : List Nat} {s t u : Fw}

/-- The command is in the hands of the code that runs for it, with a record that is `good`. -/
def Serving (c : Slot) (good : NvmeCmdPriv → Prop) (s : Fw) : Prop := ∃ p h k, Owing p h k (s.view c) ∧ good p

theorem Serving.leaves (h : Serving c good s) (leaves : Leaves P c F s t) : Serving c good t := by
  obtain ⟨p, h, k, owing, fact⟩ := h
  exact ⟨p, h, k, leaves.owing p h k owing, fact⟩

/-- What the others may do to the queue before an action of the thread on behalf of `c`. -/
structure Meanwhile (P : Platform) (c : Slot) (F : Cb → Prop) (q : QId) (l : Access) (s t : Fw) : Prop where
  leaves : Leaves P c F s t
  turn : Turn P c l t
  fit : Fitted s → Fitted t
  keeps : ∀ held, held = [] ∨ Serving c (·.qid = q) s → Held q held s → Held q held t
  place : Serving c (·.qid = q) s → t.tc.cqPlace q = s.tc.cqPlace q
  alone : l = .ring q → Still q s t

theorem Meanwhile.trans (h : Meanwhile P c F q l s t) (g : Meanwhile P c F q l t u) : Meanwhile P c F q l s u where
  leaves := h.leaves.trans g.leaves
  turn := g.turn
  fit hs := g.fit (h.fit hs)
  keeps held kept hs := g.keeps held (kept.imp_right fun serving => serving.leaves h.leaves) (h.keeps held kept hs)
  place serving := (g.place (serving.leaves h.leaves)).trans (h.place serving)
  alone own := (h.alone own).trans (g.alone own)

/-- The entries are in order, and the thread has one ticket at most. -/
def Ordered (q : QId) (c : Slot) (_ : Access) (s : Fw) : Prop :=
  ∃ w held, (w.base, w.size) = s.tc.cqPlace q ∧ Booked q w held s ∧ (held = [] ∨ (∃ k, held = [k]) ∧ Serving c (·.qid = q) s)

theorem Held.ordered (h : Held q [] s) : Ordered q c l s := ⟨_, [], rfl, h, .inl rfl⟩

theorem stable_held (l : Access) : Prog.Stable (Meanwhile P c F q) (Ordered q c) l (Held q []) :=
  ⟨fun _ _ h r => r.keeps [] (.inl rfl) h, fun _ h => h.ordered⟩

/-- Between the accesses to the registers, which read `w'` now. -/
structure PollWindow (q : QId) (c : Slot) (w w' : Ring.Writer) (held : List Nat) (s : Fw) : Prop where
  now : s.tc.cqWriter q = w'
  place : (w.base, w.size) = (w'.base, w'.size)
  booked : Booked q w held s
  serving : Serving c (·.qid = q) s
  few : held = [] ∨ ∃ k, held = [k]

theorem PollWindow.ordered {w w' : Ring.Writer} (h : PollWindow q c w w' held s) : Ordered q c l s := by
  refine ⟨w, held, ?_, h.booked, h.few.imp_right fun one => ⟨one, h.serving⟩⟩
  rw [h.place, ← h.now]
  rfl

theorem stable_window (w w' : Ring.Writer) (held : List Nat) :
    Prog.Stable (Meanwhile P c F q) (Ordered q c) (.ring q) (PollWindow q c w w' held) := by
  refine ⟨fun u v h r => ?_, fun u h => h.ordered⟩
  have still := r.alone rfl
  exact ⟨still.writer.trans h.now, h.place, h.booked.still still, h.serving.leaves r.leaves, h.few⟩

/-- What the thread has when it has gone through the registers. -/
inductive Taken (q : QId) (c : Slot) (a : Nat) (s : Fw) : Prop where
  | none (zero : a = 0) (held : Held q [] s)
  | slot (w : Ring.Writer) (n : Nat) (window : PollWindow q c w w [n] s)
      (here : Addressed w → a = w.slot nvmeTcCqEntrySize (2 ^ 64) n ∧ w.phase = Ring.phase w.size n) (size : 0 < w.size)

/-- The registers after a flip of the phase at the start of a pass. -/
def flipped (w : Ring.Writer) : Ring.Writer := { w with phase := if w.tail = 0 then !w.phase else w.phase }

/-- The write of the tail ends the allotment. -/
theorem PollWindow.taken {w : Ring.Writer} (h : PollWindow q c w (flipped w) [] s) (size : 0 < w.size) :
    Taken q c ((w.base + w.tail * nvmeTcCqEntrySize) % 2 ^ 64)
      (s.setTc fun tc => { tc with cqTail := Function.update tc.cqTail q ((w.tail + 1) % w.size % 2 ^ 16) }) := by
  obtain ⟨n, booked, slot⟩ := h.booked.allot size
  refine .slot (w.allot (2 ^ 16)) n ⟨?_, rfl, booked.silent rfl, h.serving, .inr ⟨n, rfl⟩⟩ slot size
  have now := h.now
  simp only [NvmeTcPriv.cqWriter, flipped, Ring.Writer.mk.injEq] at now
  simp [NvmeTcPriv.cqWriter, Fw.setTc, Ring.Writer.allot, now]

theorem PollWindow.flip {w : Ring.Writer} (h : PollWindow q c w w [] s) (first : w.tail = 0) :
    PollWindow q c w (flipped w) [] (s.setTc fun tc => { tc with cqPhase := Function.update tc.cqPhase q (!w.phase) }) := by
  refine ⟨?_, rfl, h.booked.silent rfl, h.serving, .inl rfl⟩
  rw [flipped, if_pos first, ← h.now]
  simp [NvmeTcPriv.cqWriter, Fw.setTc]

theorem PollWindow.unflipped {w : Ring.Writer} (h : PollWindow q c w w [] s) (later : w.tail ≠ 0) : PollWindow q c w (flipped w) [] s := by
  rwa [flipped, if_neg later]

/-- The thread takes a ticket of its queue. -/
theorem takes_nvmeTcGetCqAddr (h : Held q [] s) : (nvmeTcGetCqAddr q).Safe (Meanwhile P c F q) (Ordered q c) (Taken q c) s := by
  refine Prog.safe_bind (Prog.safe_look (stable_held _) h fun s hs => ?_)
  refine Prog.safe_bind fun t r => ?_
  have still := r.alone rfl
  have window : PollWindow q c (s.tc.cqWriter q) (s.tc.cqWriter q) [] t :=
    ⟨still.writer, rfl, Booked.still hs still, r.turn.ring q rfl, .inl rfl⟩
  refine ⟨window.ordered, ?_⟩
  have tail : s.tc.cqTail q = (s.tc.cqWriter q).tail := rfl
  have size : t.tc.cqSize q = (s.tc.cqWriter q).size := congrArg Ring.Writer.size window.now
  change Prog.Safe _ _ _ (if t.tc.cqSize q = 0 then _ else _) t
  beta_reduce
  rw [tail, size]
  clear tail size still r h hs
  generalize s.tc.cqWriter q = w at window ⊢
  have known {α : Type} {w' : Ring.Writer} {f : Fw → α} {Q : α → Fw → Prop} {t : Fw} (window : PollWindow q c w w' [] t)
      (h : ∀ t, PollWindow q c w w' [] t → Q (f t) t) : (Prog.look (.ring q) f).Safe (Meanwhile P c F q) (Ordered q c) Q t :=
    Prog.safe_look (stable_window w w' []) window h
  refine Prog.safe_ite (fun _ => Prog.safe_stuck) fun nonempty => ?_
  have size : 0 < w.size := Nat.pos_of_ne_zero nonempty
  have last {t : Fw} (window : PollWindow q c w (flipped w) [] t) : (do
      let base ← .look (.ring q) fun s => s.tc.cqBase q
      let index ← .look (.ring q) fun s => s.tc.cqTail q
      .change (.ring q) (·.setTc fun tc => { tc with cqTail := Function.update tc.cqTail q ((w.tail + 1) % w.size % 2 ^ 16) })
      pure ((base + index * nvmeTcCqEntrySize) % 2 ^ 64) : Code Nat).Safe (Meanwhile P c F q) (Ordered q c) (Taken q c) t := by
    refine Prog.safe_bind (known window fun t window => Prog.safe_bind (known window fun u window' => ?_))
    have base : t.tc.cqBase q = w.base := congrArg Ring.Writer.base window.now
    have index : u.tc.cqTail q = w.tail := congrArg Ring.Writer.tail window'.now
    rw [base, index]
    exact Prog.safe_bind (Prog.safe_change (stable_window w _ []) window' fun u window => Prog.safe_pure (window.taken size))
  refine Prog.safe_bind (known window fun t window => Prog.safe_ite (fun _ => ?_) fun _ => ?_)
  · refine Prog.safe_bind (known window fun t window => Prog.safe_bind ?_)
    have tail : t.tc.cqTail q = w.tail := congrArg Ring.Writer.tail window.now
    rw [tail]
    refine Prog.safe_when (fun first => ?_) fun later => last (window.unflipped later)
    refine Prog.safe_bind (known window fun t window => ?_)
    have phase : t.tc.cqPhase q = w.phase := congrArg Ring.Writer.phase window.now
    rw [phase]
    exact Prog.safe_change (stable_window w w []) window fun t window => last (window.flip first)
  · refine Prog.safe_pure (.none rfl ?_)
    rw [Held, window.now]
    exact window.booked

/-- Between the allotment in queue `q'` and the submission of the entry. -/
structure Pending (q q' : QId) (c : Slot) (a : Nat) (phase : Bool) (good : NvmeCmdPriv → Prop) (s : Fw) : Prop where
  serving : Serving c (fun p => p.qid = q' ∧ good p) s
  other : q' ≠ q → Held q [] s
  own : q' = q → ∃ n, Held q [n] s ∧ 0 < (s.tc.cqWriter q).size ∧ (Addressed (s.tc.cqWriter q) →
    a = (s.tc.cqWriter q).slot nvmeTcCqEntrySize (2 ^ 64) n ∧ phase = Ring.phase (s.tc.cqWriter q).size n)

section Pending

variable {q' : QId} {a : Nat} {phase : Bool}

theorem Pending.serves (h : Pending q q' c a phase good s) (own : q' = q) : Serving c (·.qid = q) s := by
  obtain ⟨p, h, k, owing, qid, -⟩ := h.serving
  exact ⟨p, h, k, owing, qid.trans own⟩

theorem Pending.ordered (h : Pending q q' c a phase good s) : Ordered q c l s := by
  by_cases own : q' = q
  · obtain ⟨n, held, -, -⟩ := h.own own
    exact ⟨_, [n], rfl, held, .inr ⟨⟨n, rfl⟩, h.serves own⟩⟩
  · exact (h.other own).ordered

theorem stable_pending (l : Access) : Prog.Stable (Meanwhile P c F q) (Ordered q c) l (Pending q q' c a phase good) := by
  refine ⟨fun u v h r => ⟨h.serving.leaves r.leaves, fun other => r.keeps [] (.inl rfl) (h.other other), fun own => ?_⟩, fun u h => h.ordered⟩
  obtain ⟨n, held, here⟩ := h.own own
  have serving := h.serves own
  refine ⟨n, r.keeps [n] (.inr serving) held, ?_⟩
  have place := r.place serving
  have base : v.tc.cqBase q = u.tc.cqBase q := congrArg Prod.fst place
  have size : v.tc.cqSize q = u.tc.cqSize q := congrArg Prod.snd place
  simp only [Addressed, Ring.Writer.slot, NvmeTcPriv.cqWriter] at here ⊢
  rwa [base, size]

/-- An action that neither takes nor uses a slot of the queue. -/
theorem Pending.still {good' : NvmeCmdPriv → Prop} (h : Pending q q' c a phase good s) (still : Still q s t)
    (serving : Serving c (fun p => p.qid = q' ∧ good' p) t) : Pending q q' c a phase good' t := by
  refine ⟨serving, fun other => (h.other other).still still, fun own => ?_⟩
  obtain ⟨n, held, here⟩ := h.own own
  refine ⟨n, held.still still, ?_⟩
  rw [still.writer]
  exact here

theorem Pending.posted {d : Desc} (h : Pending q q' c a phase (·.cqBuf.p = phase) s) (cb : d.callback = some (.cqCb, c)) (owner : d.owner = c)
    (host : d.hostAddr = a) : Held q [] (s.put .tx d) := by
  obtain ⟨p, e, k, owing, qid, bit⟩ := h.serving
  have record : s.cmds d.owner = p := by
    rw [owner]
    exact owing.priv
  have trace : (s.put .tx d).trace = .queued .tx d p :: s.trace := by rw [← record]; rfl
  by_cases own : q' = q
  · obtain ⟨n, held, size, here⟩ := h.own own
    refine Booked.post held trace (by simp [Obs.createdCq?]) (if_pos ⟨by rw [cb]; rfl, qid.trans own⟩) fun addressed => ?_
    rw [host, bit]
    exact here addressed
  · exact (h.other own).still (.noted rfl trace (by simp [Obs.createdCq?]) (if_neg fun both => own (qid.symm.trans both.2)))

theorem Pending.dropped (h : Pending q q' c a phase good s) : Held q [] (s.note (.lost c .descriptor)) := by
  by_cases own : q' = q
  · obtain ⟨n, held, -, -⟩ := h.own own
    exact Booked.drop held rfl
  · exact (h.other own).still (.lost _ s)

/-- A slot at address zero is not used. -/
theorem Pending.zero (h : Pending q q' c 0 phase good s) : Held q [] (s.note (.lost c .completionQueueFull)) := by
  by_cases own : q' = q
  · obtain ⟨n, held, size, here⟩ := h.own own
    exact ⟨held.word, fun addressed => absurd (here addressed).1.symm (Addressed.slot_ne addressed size n)⟩
  · exact (h.other own).still (.lost _ s)

/-- The ticket is used, or lost for want of a descriptor. -/
theorem uses_submission (h : Pending q q' c a phase (fun _ => True) s) : (do
    setCmd c fun p => { p with cqBuf := { p.cqBuf with p := phase } }
    let ok ← nvmeDmaXferMemToHost P (.cqBuf c) a nvmeTcCqEntrySize (some (.cqCb, c)) c
    loseUnless ok c .descriptor).Safe (Meanwhile P c F q) (Ordered q c) (fun _ => Held q []) s := by
  refine Prog.safe_bind (Prog.safe_change (stable_pending _) h fun s h => ?_)
  have marked : Pending q q' c a phase (·.cqBuf.p = phase) (s.setCmd c fun p => { p with cqBuf := { p.cqBuf with p := phase } }) := by
    obtain ⟨p, e, k, owing, qid, -⟩ := h.serving
    exact h.still (.silent rfl rfl) ⟨_, e, k, owing.assigned _, qid, rfl⟩
  generalize s.setCmd c _ = s at marked
  refine Prog.safe_bind (Prog.safe_bind (Prog.safe_swap (stable_pending _) marked fun t h => ?_))
  dsimp only
  cases (P.descSlabAlloc t.descSlab t.clock).1 with
  | none =>
    obtain ⟨p, e, k, owing, facts⟩ := h.serving
    have noted (slab : Slab kMemSlabMax) : Pending q q' c a phase (·.cqBuf.p = phase)
        (Fw.note { t with descSlab := slab, clock := t.clock + 1 } (.noDescriptor c)) :=
      h.still (.noted rfl rfl (by simp [Obs.createdCq?]) rfl) ⟨p, _, k, owing.clock.noted rfl rfl rfl, facts⟩
    exact Prog.safe_pure (Prog.safe_change (stable_pending _) (noted _) fun u h => h.dropped)
  | some block =>
    refine Prog.safe_bind (Prog.safe_change (stable_pending _) (h.still (.silent rfl rfl) h.serving) fun u h => ?_)
    exact Prog.safe_pure (Prog.safe_pure (h.posted rfl rfl rfl))

end Pending

/-- An allotment in another queue. -/
theorem still_nvmeTcGetCqAddr {q' : QId} (other : q' ≠ q) : (nvmeTcGetCqAddr q').Acts (fun _ => True) fun _ => Still q := by
  refine Prog.acts_look_bind .refl fun s _ => Prog.acts_look_bind .refl fun s' _ => ?_
  refine Prog.acts_ite (fun _ => Prog.acts_stuck) fun _ => Prog.acts_look_bind .refl fun _ _ => ?_
  refine Prog.acts_ite (fun _ => ?_) fun _ => Prog.acts_pure _
  refine Prog.acts_look_bind .refl fun _ _ => Prog.acts_bind ?_ fun _ => ?_
  · refine Prog.acts_when fun _ => Prog.acts_look_bind .refl fun _ _ => Prog.acts_change fun s => .silent ?_ rfl
    simp [NvmeTcPriv.cqWriter, Fw.setTc, Function.update_of_ne (Ne.symm other)]
  · refine Prog.acts_look_bind .refl fun _ _ => Prog.acts_look_bind .refl fun _ _ => ?_
    refine Prog.acts_bind (Prog.acts_change fun s => .silent ?_ rfl) fun _ => Prog.acts_pure _
    simp [NvmeTcPriv.cqWriter, Fw.setTc, Function.update_of_ne (Ne.symm other)]

/-- A return in the thread takes at most one ticket and uses it. -/
theorem uses_nvmeCmdReturn (h : Held q [] s) : (nvmeCmdReturn P c).Safe (Meanwhile P c F q) (Ordered q c) (fun _ => Held q []) s := by
  refine Prog.safe_bind (Prog.safe_look (stable_held _) h fun s hs => Prog.safe_bind ?_)
  beta_reduce
  generalize (s.cmds c).qid = q'
  by_cases own : q' = q
  · subst own
    refine (takes_nvmeTcGetCqAddr hs).imp fun a s taken => ?_
    cases taken with
    | none zero held => exact Prog.safe_ite (fun _ => Prog.safe_change (stable_held _) held fun t held => held.still (.lost _ t)) fun some' => absurd zero some'
    | slot w n window here size =>
      have pending {s : Fw} (window : PollWindow q' c w w [n] s) : Pending q' q' c a w.phase (fun _ => True) s := by
        obtain ⟨p, h, k, owing, qid⟩ := window.serving
        refine ⟨⟨p, h, k, owing, qid, trivial⟩, fun other => absurd rfl other, fun _ => ⟨n, ?_, ?_⟩⟩
        · rw [Held, window.now]
          exact window.booked
        · rw [window.now]
          exact ⟨size, here⟩
      refine Prog.safe_ite (fun zero => ?_) fun _ => Prog.safe_bind (Prog.safe_look (stable_window w w [n]) window fun t window => ?_)
      · subst zero
        exact Prog.safe_change (stable_pending _) (pending window) fun t h => h.zero
      · have phase : t.tc.cqPhase q' = w.phase := congrArg Ring.Writer.phase window.now
        rw [phase]
        exact uses_submission (pending window)
  · have allotment : (nvmeTcGetCqAddr q').Safe (Meanwhile P c F q) (Ordered q c) (fun _ => Held q []) s :=
      (still_nvmeTcGetCqAddr own).safe (fun _ _ => trivial) (fun _ u v still hu => hu.still still) (fun _ _ _ r hu => r.keeps [] (.inl rfl) hu)
        (fun _ _ _ _ hu => hu.ordered) hs
    refine allotment.imp fun a s hs => ?_
    refine Prog.safe_ite (fun _ => Prog.safe_change (stable_held _) hs fun t held => held.still (.lost _ t)) fun _ => Prog.safe_bind fun t r => ?_
    have held := r.keeps [] (.inl rfl) hs
    obtain ⟨p, h, k, owing, qid⟩ := r.turn.ring q' rfl
    exact ⟨held.ordered, uses_submission ⟨⟨p, h, k, owing, qid, trivial⟩, fun _ => held, fun same => absurd same own⟩⟩

/-- Code of the thread that creates no queue. -/
theorem MadeOf.uses {p : Code Unit} (made : MadeOf P c Deletion p) (fit : Fitted s) (h : Held q [] s) :
    p.Safe (Meanwhile P c F q) (Ordered q c) (fun _ s => Held q [] s ∧ Fitted s) s := by
  have closed (l : Access) (u v : Fw) (act : CmdActs P c Deletion l u v) (hu : Held q [] u ∧ Fitted u) : Held q [] v ∧ Fitted v :=
    ⟨hu.1.still act.still, fitted_closed.fine c _ _ _ (.own act.own) hu.2⟩
  refine Prog.Over.safe made (fun _ hs => hs.2) closed (fun _ _ _ r hu => ⟨r.keeps [] (.inl rfl) hu.1, r.fit hu.2⟩) (fun _ _ _ _ hu => hu.1.ordered) ?_ ⟨h, fit⟩
  rintro _ rfl u hu
  have fitted : (nvmeCmdReturn P c).Safe (Meanwhile P c F q) (fun _ _ => True) (fun _ => Fitted) u :=
    (acts_nvmeCmdReturn P c).safe (fun _ h => h) (fitted_closed.fine c) (fun _ _ _ r => r.fit) (fun _ _ _ _ _ => trivial) hu.2
  exact ((uses_nvmeCmdReturn hu.1).and fitted).weaken (fun _ _ _ r => r) fun _ _ h => h.1

end Thread

section Runs

variable {P : Platform} {q : QId} {S T : Sys} {e : Event} {held : List Nat} {s t u : Fw}

/-- No slot of the queue was taken since it was created or since the start. -/
def CqUnused (q : QId) (s : Fw) : Prop := s.tc.cqTail q = 0 ∧ s.tc.cqPhase q = false ∧ posts q s.trace = []

/-- The thread runs code for a command of queue `q`. -/
def Sys.Serves (S : Sys) (q : QId) : Prop := ∃ call ∈ S.call, (S.fw.cmds call.cmd).qid = q

/-- No context comes between the thread's accesses to the queue, which stays what it is while the thread serves
it and while it is used; no command is lost for want of a descriptor, and the slot of a call with data stays its own. -/
structure Undisturbed (P : Platform) (q : QId) (S : Sys) (e : Event) : Prop where
  kept : SlotKept P S e
  supplied : ∀ c, .lost c .descriptor ∉ S.news P e
  apart : e = .dmaIrq → S.call.bind Call.label = some (.ring q) → ∀ T ∈ S.step P e,
    T.fw.tc.cqWriter q = S.fw.tc.cqWriter q ∧ posts q T.fw.trace = posts q S.fw.trace
  whole : S.Serves q → .cqCreated q ∉ S.news P e
  placed : e = .tcIrq → ∀ T ∈ S.step P e, T.fw.tc.cqPlace q = S.fw.tc.cqPlace q ∨ CqUnused q S.fw ∧ ¬S.Serves q

/-- What the doorbell interrupt leaves of a completion queue. -/
structure Configured (q : QId) (s t : Fw) : Prop where
  tail : t.tc.cqTail q = s.tc.cqTail q
  phase : t.tc.cqPhase q = s.tc.cqPhase q
  posts : posts q t.trace = posts q s.trace
  trace : s.trace <:+ t.trace
  word : s.tc.cqSize q ≤ 2 ^ 16 → t.tc.cqSize q ≤ 2 ^ 16

theorem Configured.trans (h : Configured q s t) (g : Configured q t u) : Configured q s u :=
  ⟨g.tail.trans h.tail, g.phase.trans h.phase, g.posts.trans h.posts, h.trace.trans g.trace, fun word => g.word (h.word word)⟩

theorem Still.configured (h : Still q s t) : Configured q s t := by
  have now := h.writer
  simp only [NvmeTcPriv.cqWriter, Ring.Writer.mk.injEq] at now
  exact ⟨now.2.2.1, now.2.2.2, h.posts, h.trace, fun word => now.2.1 ▸ word⟩

theorem Configured.still (h : Configured q s t) (place : t.tc.cqPlace q = s.tc.cqPlace q) : Still q s t := by
  refine ⟨?_, h.posts, h.trace⟩
  have base : t.tc.cqBase q = s.tc.cqBase q := congrArg Prod.fst place
  have size : t.tc.cqSize q = s.tc.cqSize q := congrArg Prod.snd place
  rw [NvmeTcPriv.cqWriter, NvmeTcPriv.cqWriter, base, size, h.tail, h.phase]

theorem TcAct.configured {l : Access} (act : TcAct l s t) : Configured q s t := by
  cases act with
  | cc =>
    unfold Fw.ccHandler
    dsimp only
    split
    · exact Still.configured (.silent rfl rfl)
    · split <;> exact Still.configured (.silent rfl rfl)
  | aqa =>
    refine ⟨rfl, rfl, rfl, List.suffix_rfl, fun word => ?_⟩
    have field := Nat.mod_lt (s.regs nvmeTcRegAqa / 2 ^ 16) (Nat.two_pow_pos 12)
    by_cases adm : q = admQueueId
    · simp only [Fw.aqaHandler, Fw.setTc, adm, Function.update_self, nvmeTcGetField]
      omega
    · simpa [Fw.aqaHandler, Fw.setTc, Function.update_of_ne adm] using word
  | acq => exact ⟨rfl, rfl, rfl, List.suffix_rfl, id⟩
  | _ => exact Still.configured (.silent rfl rfl)

theorem configured_tcIrq (fit : Fitted s) (run : (nvmeTcIrqHandler P).run s = some ((), t)) : Configured q s t := by
  have start : Configured q s s := Still.configured (.refl s)
  refine (Prog.Over.run (I := fun u => Fitted u ∧ Configured q s u) (made_nvmeTcIrqHandler P) (fun _ hu => hu.1) (fun l u v act hu => ?_) ?_ ⟨fit, start⟩ run).2
  · exact ⟨fitted_closed.tc (P := P) l u v act hu.1, hu.2.trans act.configured⟩
  · rintro _ u v ⟨q', rfl⟩ fetch hu
    refine (acts_nvmeTcFetch P q').run (I := fun u => Fitted u ∧ Configured q s u) (fun _ hu => hu.1) (fun l u v act hu => ?_) hu fetch
    exact ⟨fitted_closed.fetch l u v act hu.1, hu.2.trans (Still.configured act.still)⟩

/-- What the others do to the queue, by whether the thread serves it. -/
structure CqKept (q : QId) (serves irq : Prop) (s t : Fw) : Prop where
  keeps : ∀ held, held = [] ∨ serves → Held q held s → Held q held t
  place : serves → t.tc.cqPlace q = s.tc.cqPlace q
  still : ¬irq → serves → Still q s t

theorem Still.kept {serves irq : Prop} (h : Still q s t) : CqKept q serves irq s t :=
  ⟨fun _ _ hs => hs.still h, fun _ => congrArg (fun w : Ring.Writer => (w.base, w.size)) h.writer, fun _ _ => h⟩

theorem Undisturbed.env (h : Undisturbed P q S e) (fit : Fitted S.fw) (env : S.fw.env P e = some t) (step : S.step P e = some T) (fw : T.fw = t)
    (trace : t.trace = S.news P e ++ S.fw.trace) : CqKept q (S.Serves q) (e = .dmaIrq) S.fw t := by
  have outside (act : Outside P S.fw t) : CqKept q (S.Serves q) (e = .dmaIrq) S.fw t := act.still.kept
  cases e with
  | hostWrite reg value =>
    cases env
    exact outside (.hostWrite reg value S.fw)
  | hostStore addr bytes =>
    cases env
    exact outside (.hostStore addr bytes S.fw)
  | apuStore addr bytes =>
    cases env
    exact outside (.apuStore addr bytes S.fw)
  | dmaDone ch => exact outside (.done env)
  | tcIrq =>
    obtain ⟨⟨⟨⟩, _⟩, run, rfl⟩ := Option.map_eq_some_iff.mp env
    have configured := configured_tcIrq (q := q) fit run
    rcases h.placed rfl T step with same | ⟨⟨tail, phase, none⟩, idle⟩
    · rw [fw] at same
      exact (configured.still same).kept
    · refine ⟨fun held kept hs => ?_, fun serves => absurd serves idle, fun _ serves => absurd serves idle⟩
      obtain rfl : held = [] := kept.resolve_right idle
      exact held_unused (configured.word hs.word) (configured.tail.trans tail) (configured.phase.trans phase) (configured.posts.trans none)
  | dmaIrq =>
    obtain ⟨⟨⟨⟩, _⟩, run, rfl⟩ := Option.map_eq_some_iff.mp env
    have fresh {new : List Obs} (e : S.news P .dmaIrq ++ S.fw.trace = new ++ S.fw.trace) (serves : S.Serves q) : .cqCreated q ∉ new := by
      rw [← List.append_cancel_right e]
      exact h.whole serves
    refine ⟨fun held kept hs => ?_, fun serves => ?_, fun other => absurd rfl other⟩
    · obtain ⟨new, e, law, -⟩ := resumed_dmaIrq (q := q) held fit run
      exact law (kept.imp_right (fresh (trace.symm.trans e))) hs
    · obtain ⟨new, e, -, place⟩ := resumed_dmaIrq (q := q) [] fit run
      exact place (fresh (trace.symm.trans e) serves)
  | reply i withData => cases env
  | poll => cases env

/-- The tickets of a queue, whatever is left of a call. -/
structure Sys.Allotted (P : Platform) (q : QId) (S : Sys) : Prop where
  idle : S.call = none → Held q [] S.fw
  live : ∀ call ∈ S.call, ∃ l f k, call.rest = .act l f k
  call : ∀ call ∈ S.call, call.rest.Safe (Meanwhile P call.cmd call.awaits q) (Ordered q call.cmd) (fun _ s => Held q [] s ∧ Fitted s) S.fw

theorem Serving.serves {call : Call} (here : S.call = some call) (h : Serving call.cmd (·.qid = q) S.fw) : S.Serves q := by
  obtain ⟨p, past, k, owing, qid⟩ := h
  have record : S.fw.cmds call.cmd = p := owing.priv
  exact ⟨call, here, record ▸ qid⟩

theorem Sys.Allotted.of_idle (idle : S.call = none) (h : Held q [] S.fw) : S.Allotted P q := by
  have none (call : Call) : call ∉ S.call := by
    rw [idle]
    exact Option.not_mem_none call
  exact ⟨fun _ => h, fun call here => absurd here (none call), fun call here => absurd here (none call)⟩

theorem Sys.Allotted.goesOn {call : Call} {l : Access} {rest : Code Unit} (next : call.next l rest = some T.call)
    (safe : rest.Safe (Meanwhile P call.cmd call.awaits q) (Ordered q call.cmd) (fun _ s => Held q [] s ∧ Fitted s) T.fw) : T.Allotted P q := by
  cases rest with
  | pure a =>
    exact .of_idle (Option.some.inj next).symm safe.1
  | act m f k =>
    have some' : T.call = some { call with given := call.given || l.givesUp call.cmd, rest := .act m f k } := (Option.some.inj next).symm
    refine ⟨fun none => ?_, fun call' here => ?_, fun call' here => ?_⟩
    · rw [none] at some'
      cases some'
    · rw [some'] at here
      cases here
      exact ⟨m, f, k, rfl⟩
    · rw [some'] at here
      cases here
      exact safe
  | stuck => cases next

/-- Before the next action of a call a command of a ring that it accesses is in its hands. -/
theorem Sys.Ledger.turn {call : Call} {l : Access} {f : Fw → Fw} {k : Fw → Code Unit} (h : S.Ledger P) (here : S.call = some call)
    (rest : call.rest = .act l f k) : Turn P call.cmd l S.fw := by
  have carries := h.call call here
  rw [rest] at carries
  exact (Prog.Safe.here (R := fun _ => Leaves P call.cmd call.awaits) (Leaves.refl _ _ _) carries).1

theorem Sys.Allotted.step (h : S.Allotted P q) (ledger : S.Ledger P) (later : T.Ledger P) (engine : Engine [] (fun _ => .steady) S.fw)
    (sound : S.Sound P) (met : Undisturbed P q S e) (step : S.step P e = some T) : T.Allotted P q := by
  have fitted : Fitted T.fw := (Sys.step_sound step sound).fitted
  have trace := Sys.trace_eq step sound
  rcases Sys.step_cases step with ⟨fw, env, rfl⟩ | ⟨i, withData, -, start⟩ | ⟨-, poll⟩
  · have kept := met.env sound.fitted env step rfl trace
    refine ⟨fun idle => kept.keeps [] (.inl rfl) (h.idle idle), h.live, fun call here => ?_⟩
    have safe := h.call call here
    have leaves := leaves_env (F := call.awaits) (fun f hf => hf.1) engine ledger.between env call.cmd fun _ f hf =>
      ⟨_, trace, met.kept call here hf.2⟩
    obtain ⟨l, f, k, rest⟩ := h.live call here
    rw [rest] at safe ⊢
    refine Prog.Safe.before (fun _ _ _ => Meanwhile.trans) safe ⟨leaves, later.turn here rest, fun _ => fitted, fun held serving => ?_, fun serving => ?_, fun own => ?_⟩
    · exact kept.keeps held (serving.imp_right fun serving => serving.serves here)
    · exact kept.place (serving.serves here)
    · by_cases irq : e = .dmaIrq
      · have label : S.call.bind Call.label = some (.ring q) := by
          rw [here, Option.bind_some, Call.label, rest, own]
        obtain ⟨writer, posts⟩ := met.apart irq label _ step
        exact ⟨writer, posts, trace ▸ List.suffix_append ..⟩
      · obtain ⟨p, past, g, owing, qid⟩ := (ledger.turn here rest).ring q own
        exact kept.still irq (Serving.serves here ⟨p, past, g, owing, qid⟩)
  · unfold Sys.startCall at start
    split at start
    · rename_i m idle request
      obtain ⟨next, first, rfl⟩ := Option.map_eq_some_iff.mp start
      have act : Outside P S.fw { S.fw with apu := S.fw.apu.eraseIdx i } := .reply i S.fw
      exact .goesOn first ((made_rpmsgEndpointCb P { m with id := _ }).uses fitted ((h.idle idle).still act.still))
    · cases start
  · obtain ⟨call, l, f, k, here, rest, fw, next⟩ := Sys.pollStep_act poll
    have safe := h.call call here
    rw [rest] at safe
    refine .goesOn next ?_
    rw [fw]
    refine (Prog.Safe.here ?_ safe).2
    exact ⟨.refl _ _ _, ledger.turn here rest, id, fun _ _ => id, fun _ => rfl, fun _ => .refl _⟩

theorem Run.allotted {host ram : Nat → UInt8} (run : Run P (Undisturbed P q) (Sys.boot host ram) S) : S.Allotted P q := by
  induction run with
  | refl => exact .of_idle rfl (held_unused (Nat.zero_le _) rfl rfl rfl)
  | step e before met next ih =>
    have ledger := before.ledger fun _ _ met => met.kept
    exact ih.step ledger (ledger.step before.engine before.sound met.kept next) before.engine before.sound met next

theorem Sys.Allotted.ordered (h : S.Allotted P q) (ledger : S.Ledger P) : ∃ w held, (w.base, w.size) = S.fw.tc.cqPlace q ∧ Booked q w held S.fw ∧
    (held = [] ∨ (∃ k, held = [k]) ∧ S.Serves q) := by
  cases here : S.call with
  | none => exact ⟨_, [], rfl, h.idle here, .inl rfl⟩
  | some call =>
    have safe := h.call call here
    obtain ⟨l, f, k, rest⟩ := h.live call here
    rw [rest] at safe
    have calm : Meanwhile P call.cmd call.awaits q l S.fw S.fw :=
      ⟨.refl _ _ _, ledger.turn here rest, id, fun _ _ => id, fun _ => rfl, fun _ => .refl _⟩
    obtain ⟨w, held, place, booked, few⟩ := (Prog.Safe.here calm safe).1
    exact ⟨w, held, place, booked, few.imp_right fun one => ⟨one.1, one.2.serves here⟩⟩

/-- Tickets that are held or used, none of them lost. -/
theorem Ring.Tickets.orderly {w : Ring.Writer} {held ks : List Nat} {n : Nat}
    (h : Ring.Tickets nvmeTcCqEntrySize (2 ^ 64) w (posts q S.fw.trace) held [] n ks) (place : (w.base, w.size) = S.fw.tc.cqPlace q)
    (word : w.size ≤ 2 ^ 16) (few : held = [] ∨ (∃ k, held = [k]) ∧ S.Serves q) : CqOrderly q S ks := by
  have base : S.fw.tc.cqBase q = w.base := (congrArg Prod.fst place).symm
  have size : S.fw.tc.cqSize q = w.size := (congrArg Prod.snd place).symm
  have slot (k : Nat) : S.fw.tc.cqSlot q k = w.slot nvmeTcCqEntrySize (2 ^ 64) k := by
    rw [NvmeTcPriv.cqSlot, base, size]
    rfl
  have below {k : Nat} (used : k ∈ ks) : k < n := h.mem_iff.mp (by simp [used])
  have gap {j : Nat} (gap : Gap ks j) : j ∈ held := by
    obtain ⟨unused, k, used, lt⟩ := gap
    have mem := h.mem_iff.mpr (lt.trans (below used))
    simpa [unused] using mem
  refine ⟨?_, ?_, fun j _ k _ lt near => ?_, fun i j hi hj => ?_, fun j hj => ?_⟩
  · rw [h.entries]
    exact List.map_congr_left fun k _ => by rw [Ring.Writer.ticket, slot, size]
  · exact (List.nodup_append.mp h.nodup).2.1
  · rw [slot, slot]
    rw [size] at near
    exact Ring.Writer.slot_ne (by rw [show nvmeTcCqEntrySize = 16 from rfl]; omega) (by decide) lt near
  · rcases few with rfl | ⟨⟨k, rfl⟩, -⟩
    · exact absurd (gap hi) List.not_mem_nil
    · rw [List.mem_singleton.mp (gap hi), List.mem_singleton.mp (gap hj)]
  · rcases few with rfl | ⟨-, serves⟩
    · exact absurd (gap hj) List.not_mem_nil
    · exact serves

end Runs

/-- Host memory with a vendor command without data and a command with an unknown opcode. -/
def vendorAndUnknown : Nat → UInt8 := fun a => if a = 0x10000 then 0xC0 else if a = 0x10040 then 0x7F else 0

/-- After `n` actions of the thread for the first command an interrupt handles the second one; then come `m` more. -/
def twoReturns (n m : Nat) : List Event :=
  setUp ++ [.hostWrite (doorbellTail 0 / 4) 1, .tcIrq, .dmaDone .rx, .dmaIrq, .reply 0 false] ++ List.replicate n .poll ++
    [.hostWrite (doorbellTail 0 / 4) 2, .tcIrq, .dmaDone .rx, .dmaIrq] ++ List.replicate m .poll

def Obs.upsets : Obs → Bool
  | .lost _ .descriptor | .cqCreated _ => true
  | _ => false

/-- The interrupt comes between two accesses of the thread: both entries take the slot. -/
theorem twoReturns_collide : ¬∀ (P : Platform) (q : QId) (host ram : Nat → UInt8) (S : Sys), Run P (fun _ _ => True) (Sys.boot host ram) S →
    S.fw.tc.CqAddressed q → ∃ ks, CqOrderly q S ks := by
  intro claim
  have runs : ((Sys.boot vendorAndUnknown fun _ => 0).exec (board (2 ^ 12)) (twoReturns 9 6)).map (fun S =>
      decide (S.call.isNone ∧ S.fw.tc.cqBase admQueueId = 0x20000 ∧ S.fw.tc.cqSize admQueueId = 16 ∧
        posts admQueueId S.fw.trace = [(0x20000, false), (0x20000, false)])) = some true := by decide +kernel
  obtain ⟨S, exec, all⟩ := Option.map_eq_some_iff.mp runs
  obtain ⟨idle, base, size, entries⟩ := of_decide_eq_true all
  obtain ⟨ks, orderly⟩ := claim _ admQueueId _ _ S ((Run.refl _).exec exec) fun k lt => by
    rw [NvmeTcPriv.cqSlot, base, size, show nvmeTcCqEntrySize = 16 from rfl]
    omega
  have map := orderly.entries
  rw [entries, size] at map
  have late (k : Nat) (used : k ∈ ks) : 16 ≤ k := by
    have mem := List.mem_map_of_mem (f := fun k => (S.fw.tc.cqSlot admQueueId k, Ring.phase 16 k)) used
    rw [← map] at mem
    have phase : Ring.phase 16 k = false := by
      simp only [List.mem_cons, Prod.mk.injEq, List.not_mem_nil, or_false, or_self] at mem
      exact mem.2
    by_contra early
    rw [Ring.phase_first (by omega)] at phase
    cases phase
  cases ks with
  | nil => cases map
  | cons k ks =>
    have first : Gap (k :: ks) 0 := ⟨fun used => absurd (late 0 used) (by decide), k, List.mem_cons_self, by have := late k List.mem_cons_self; omega⟩
    obtain ⟨call, here, -⟩ := orderly.pending 0 first
    rw [Option.isNone_iff_eq_none.mp idle] at here
    cases here

end AlkaliFw
