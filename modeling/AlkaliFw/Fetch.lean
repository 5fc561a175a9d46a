import AlkaliFw.Channels
import AlkaliFw.Board
import AlkaliFw.Ring

/-! Fetching announced entries. The head of a submission queue counts the fetches made
since the queue was created, as long as each of them finds a command slot and a
descriptor. The source moves the head before it asks for either. -/

namespace AlkaliFw
open Resumption

/-- The command slot that a transfer fills. -/
def Desc.fetchedInto (d : Desc) : Option Slot :=
  match d.localAddr with
  | .sqBuf c => some c
  | _ => none

/-- The fetches of entries of `q` since the queue was created, newest first. -/
def fetches (q : QId) : List Obs → List Desc
  | [] => []
  | .sqCreated q' :: tr => if q' = q then [] else fetches q tr
  | .queued _ d _ :: tr => if d.fetchedInto.isSome ∧ d.queue = q then d :: fetches q tr else fetches q tr
  | _ :: tr => fetches q tr

/-- Whether a command holds the slot. -/
def inUse (c : Slot) : List Obs → Bool
  | [] => false
  | .cmdAlloc c' _ :: tr => if c' = c then true else inUse c tr
  | .cmdFree c' :: tr => if c' = c then false else inUse c tr
  | _ :: tr => inUse c tr

/-- Host address of the `k`-th entry since the queue was created. -/
def NvmeTcPriv.sqSlot (tc : NvmeTcPriv) (q : QId) (k : Nat) : Nat :=
  (tc.sqBase q + k % tc.sqSize q * nvmeTcSqEntrySize) % 2 ^ 64

/-- The entries of the ring have been fetched one after the other, and the head is behind the
last of them. -/
structure RingLaw (s : Fw) (q : QId) : Prop where
  inOrder : (fetches q s.trace).map (·.hostAddr) =
    ((List.range (fetches q s.trace).length).map (s.tc.sqSlot q)).reverse
  head : s.tc.sqHead q = (fetches q s.trace).length % s.tc.sqSize q

/-- Every fetch goes into a command slot that was free. -/
def OwnSlots (tr : List Obs) : Prop :=
  ∀ ch d p old, .queued ch d p :: old <:+ tr → ∀ c, d.fetchedInto = some c →
    ∃ older, old = .cmdAlloc c d.queue :: older ∧ inUse c older = false

/-- Rounds of the loop of the tail handler. -/
def ahead (size tail : Nat) : (fuel head : Nat) → Nat
  | 0, _ => 0
  | fuel + 1, head => if tail = head then 0 else ahead size tail fuel ((head + 1) % size % 2 ^ 16) + 1

/-- Entries that a series of register writes announces. -/
def announced (regs : Nat → Nat) : List RegHandler → (sqSize sqHead : QId → Nat) → Nat
  | [], _, _ => 0
  | .tail qid :: rest, size, head =>
    if h : qid < queues then
      let tail := regs (doorbellTail qid) % 2 ^ 16
      ahead (size ⟨qid, h⟩) tail (2 ^ 16 + 1) (head ⟨qid, h⟩) +
        announced regs rest size (Function.update head ⟨qid, h⟩ tail)
    else 0
  | .aqa :: rest, size, head =>
    announced regs rest (Function.update size admQueueId (nvmeTcGetField (regs nvmeTcRegAqa) 0 12 + 1)) head
  | _ :: rest, size, head => announced regs rest size head

/-- The handlers that the next tc interrupt runs. -/
def Fw.pending (s : Fw) : List RegHandler := s.writes.map fun w => regHandler queues (w * 4 % 2 ^ 16)

/-- There is a slot and a descriptor for `n` more entries. -/
def Fw.Room (P : Platform) (s : Fw) (n : Nat) : Prop :=
  s.cmdSlab.used.length + n ≤ nvmeCmdSlabSize ∧ s.descSlab.used.length + n ≤ P.nvmeDmaSlabEntries

instance (P : Platform) (s : Fw) (n : Nat) : Decidable (s.Room P n) := instDecidableAnd

/-- The entries that a tc interrupt announces find slots and descriptors. -/
def Roomy (P : Platform) (S : Sys) (e : Event) : Prop :=
  e = .tcIrq → S.fw.Room P (announced S.fw.regs S.fw.pending S.fw.tc.sqSize S.fw.tc.sqHead)

instance (P : Platform) (S : Sys) (e : Event) : Decidable (Roomy P S e) := by
  unfold Roomy
  infer_instance

/-- Entries of `q` between the head and the doorbell that a tc interrupt handles. -/
def Fw.due (s : Fw) (q : QId) : Nat :=
  if .tail q.val ∈ s.pending then
    Ring.dist (s.tc.sqSize q) (s.tc.sqHead q) (s.regs (doorbellTail q) % 2 ^ 16)
  else 0

/-! Steps that fetch nothing. -/

/-- The submission queue `q` is as before. -/
structure SameSq (q : QId) (s t : Fw) : Prop where
  head : t.tc.sqHead q = s.tc.sqHead q
  tail : t.tc.sqTail q = s.tc.sqTail q
  size : t.tc.sqSize q = s.tc.sqSize q
  base : t.tc.sqBase q = s.tc.sqBase q

def Obs.NoFetch (o : Obs) : Prop := ∀ ch d p, o = .queued ch d p → d.fetchedInto = none

/-- Between fetches, the queue `q` stays or is created. -/
inductive Aside (q : QId) (s t : Fw) : Prop where
  | same (sq : SameSq q s t) (trace : t.trace = s.trace)
  | note (o : Obs) (sq : SameSq q s t) (trace : t.trace = o :: s.trace) (other : o.NoFetch) (kept : o ≠ .sqCreated q)
  | created (trace : t.trace = .sqCreated q :: s.trace) (head : t.tc.sqHead q = 0) (tail : t.tc.sqTail q = 0)
      (size : t.tc.sqSize q < 2 ^ 16) (io : q ≠ admQueueId)

section Trace

variable {q : QId} {o : Obs} {tr : List Obs}

theorem fetches_cons (other : o.NoFetch) (kept : o ≠ .sqCreated q) : fetches q (o :: tr) = fetches q tr := by
  cases o with
  | sqCreated q' => exact if_neg fun same => kept (congrArg Obs.sqCreated same)
  | queued ch d p =>
    have none := other ch d p rfl
    exact if_neg fun h => by simp [none] at h
  | _ => rfl

theorem ownSlots_cons (h : OwnSlots tr) (other : o.NoFetch) : OwnSlots (o :: tr) := by
  intro ch d p old suffix c into
  rcases List.suffix_cons_iff.mp suffix with here | later
  · cases here
    rw [other ch d p rfl] at into
    cases into
  · exact h ch d p old later c into

end Trace

section Steps

variable {P : Platform} {q : QId} {s t : Fw}

theorem SameSq.refl (q : QId) (s : Fw) : SameSq q s s := ⟨rfl, rfl, rfl, rfl⟩

theorem noFetch_of_queued {ch : Chan} {d : Desc} {p : NvmeCmdPriv} (loc : ∀ e, d.localAddr ≠ .sqBuf e) :
    (Obs.queued ch d p).NoFetch := by
  rintro _ _ _ ⟨⟩
  unfold Desc.fetchedInto
  split
  · exact absurd ‹_› (loc _)
  · rfl

theorem createSq_aside {p : NvmeCmdPriv} {q' : QId} (io : q' ≠ admQueueId) : Aside q s (createSq p q' s) := by
  by_cases here : q' = q
  · subst here
    refine .created rfl ?_ ?_ ?_ io
    · exact Function.update_self ..
    · exact Function.update_self ..
    · have size : (createSq p q' s).tc.sqSize q' = qsize p.sqBuf := Function.update_self ..
      rw [size]
      exact Nat.mod_lt _ (by decide)
  · have other : q ≠ q' := fun same => here same.symm
    refine .note (.sqCreated q') ⟨?_, ?_, ?_, ?_⟩ rfl (fun _ _ _ e => nomatch e) fun same => here (Obs.sqCreated.inj same)
    all_goals exact Function.update_of_ne other ..

theorem FineAct.aside {c : Slot} {l : Access} (act : FineAct P c l s t) : Aside q s t := by
  have noted {u : Fw} {o : Obs} (tc : u.tc = s.tc) (trace : u.trace = o :: s.trace) (other : o.NoFetch)
      (kept : o ≠ .sqCreated q) : Aside q s u := .note o ⟨by rw [tc], by rw [tc], by rw [tc], by rw [tc]⟩ trace other kept
  cases act with
  | own act =>
    cases act with
    | put s shape =>
      refine noted rfl rfl (noFetch_of_queued fun e h => ?_) (fun h => nomatch h)
      cases shape with
      | list loc =>
        rw [loc] at h
        cases h
      | data loc =>
        rw [loc] at h
        cases h
    | queue update _ io =>
      cases update with
      | createSq => exact createSq_aside io
      | createCq => exact .note _ ⟨rfl, rfl, rfl, rfl⟩ rfl (fun _ _ _ e => nomatch e) fun e => nomatch e
      | deleteSq => exact .same ⟨rfl, rfl, rfl, rfl⟩ rfl
      | deleteCq => exact .same ⟨rfl, rfl, rfl, rfl⟩ rfl
    | noDescriptor => exact noted rfl rfl (fun _ _ _ e => nomatch e) fun e => nomatch e
    | cmdFree => exact noted rfl rfl (fun _ _ _ e => nomatch e) fun e => nomatch e
    | lost => exact noted rfl rfl (fun _ _ _ e => nomatch e) fun e => nomatch e
    | prpAlloc => exact noted rfl rfl (fun _ _ _ e => nomatch e) fun e => nomatch e
    | noPrpBuffer => exact noted rfl rfl (fun _ _ _ e => nomatch e) fun e => nomatch e
    | prpFree => exact noted rfl rfl (fun _ _ _ e => nomatch e) fun e => nomatch e
    | sent => exact noted rfl rfl (fun _ _ _ e => nomatch e) fun e => nomatch e
    | buffer => exact noted rfl rfl (fun _ _ _ e => nomatch e) fun e => nomatch e
    | poolFree => exact noted rfl rfl (fun _ _ _ e => nomatch e) fun e => nomatch e
    | _ => exact .same ⟨rfl, rfl, rfl, rfl⟩ rfl
  | entry s loc cb owner =>
    refine noted rfl rfl (noFetch_of_queued fun e h => ?_) fun h => nomatch h
    rw [loc] at h
    cases h
  | _ => exact .same ⟨rfl, rfl, rfl, rfl⟩ rfl

theorem DmaAct.aside {l : Access} (act : DmaAct P l s t) : Aside q s t := by
  cases act with
  | get ch =>
    unfold Fw.get
    split
    · exact .same (.refl q s) rfl
    · exact .note _ ⟨rfl, rfl, rfl, rfl⟩ rfl (fun _ _ _ e => nomatch e) fun e => nomatch e
  | descFree b => exact .note _ ⟨rfl, rfl, rfl, rfl⟩ rfl (fun _ _ _ e => nomatch e) fun e => nomatch e
  | handled c => exact .note _ ⟨rfl, rfl, rfl, rfl⟩ rfl (fun _ _ _ e => nomatch e) fun e => nomatch e
  | cmd act => exact act.aside
  | _ => exact .same ⟨rfl, rfl, rfl, rfl⟩ rfl

theorem Outside.aside (act : Outside P s t) : Aside q s t := by
  cases act with
  | done finish =>
    obtain ⟨d, -, ⟨host, ram, prpMem, cmds, rfl⟩, -⟩ := Fw.finished_of_finish finish
    exact .note _ ⟨rfl, rfl, rfl, rfl⟩ rfl (fun _ _ _ e => nomatch e) fun e => nomatch e
  | _ => exact .same ⟨rfl, rfl, rfl, rfl⟩ rfl

end Steps

/-! Command slots. -/

/-- The slab agrees with the history, and each fetch went into a slot of its own. -/
structure Fw.Slots (s : Fw) : Prop where
  live : ∀ c, c ∈ s.cmdSlab.used ↔ inUse c s.trace = true
  own : OwnSlots s.trace

section Slots

variable {P : Platform} {q : QId} {s t : Fw}

theorem Aside.own (h : Aside q s t) (own : OwnSlots s.trace) : OwnSlots t.trace := by
  cases h with
  | same _ trace => rwa [trace]
  | note o _ trace other => rw [trace]; exact ownSlots_cons own other
  | created trace => rw [trace]; exact ownSlots_cons own fun _ _ _ e => nomatch e

theorem FineAct.live {c : Slot} {l : Access} (act : FineAct P c l s t)
    (h : ∀ c, c ∈ s.cmdSlab.used ↔ inUse c s.trace = true) : ∀ c, c ∈ t.cmdSlab.used ↔ inUse c t.trace = true := by
  cases act with
  | own act =>
    cases act with
    | cmdFree s =>
      intro e
      have free : inUse e (.cmdFree c :: s.trace) = if c = e then false else inUse e s.trace := rfl
      rw [Fw.note, free, Slab.mem_free, h e]
      by_cases same : c = e
      · simp [same]
      · simp [same, Ne.symm same]
    | queue update => cases update <;> exact h
    | _ => exact h
  | _ => exact h

theorem DmaAct.slots {l : Access} (act : DmaAct P l s t) (h : s.Slots) : t.Slots := by
  refine ⟨?_, (act.aside (q := admQueueId)).own h.own⟩
  cases act with
  | get ch =>
    unfold Fw.get
    split <;> exact h.live
  | cmd act => exact act.live h.live
  | _ => exact h.live

theorem Outside.slots (act : Outside P s t) (h : s.Slots) : t.Slots := by
  refine ⟨?_, (act.aside (q := admQueueId)).own h.own⟩
  cases act with
  | done finish =>
    obtain ⟨d, -, ⟨host, ram, prpMem, cmds, rfl⟩, -⟩ := Fw.finished_of_finish finish
    exact h.live
  | _ => exact h.live

end Slots

/-! One fetch. -/

namespace Fetched

variable {P : Platform} {q : QId} {s t : Fw} {c : Slot} {d : Desc}

theorem tc (h : Fetched P q s c d t) : t.tc = (s.advanceSq q).2.tc := by
  obtain ⟨slab, slab', clock, -, -, rfl⟩ := h.state
  rfl

theorem sqSize (h : Fetched P q s c d t) : t.tc.sqSize = s.tc.sqSize := by
  rw [h.tc]
  rfl

theorem sqBase (h : Fetched P q s c d t) : t.tc.sqBase = s.tc.sqBase := by
  rw [h.tc]
  rfl

theorem sqTail (h : Fetched P q s c d t) : t.tc.sqTail = s.tc.sqTail := by
  rw [h.tc]
  rfl

theorem regs (h : Fetched P q s c d t) : t.regs = s.regs ∧ t.writes = s.writes := by
  obtain ⟨slab, slab', clock, -, -, rfl⟩ := h.state
  exact ⟨rfl, rfl⟩

theorem trace (h : Fetched P q s c d t) : ∃ p, t.trace = .queued .rx d p :: .cmdAlloc c q :: s.trace := by
  obtain ⟨slab, slab', clock, -, -, rfl⟩ := h.state
  exact ⟨_, rfl⟩

theorem room (h : Fetched P q s c d t) (n : Nat) : t.Room P n ↔ s.Room P (n + 1) := by
  obtain ⟨slab, slab', clock, used, used', rfl⟩ := h.state
  have cmd : slab.used.length = s.cmdSlab.used.length + 1 := congrArg List.length used
  have desc : slab'.used.length = s.descSlab.used.length + 1 := congrArg List.length used'
  change slab.used.length + n ≤ _ ∧ slab'.used.length + n ≤ _ ↔ _
  unfold Fw.Room
  omega

theorem into (h : Fetched P q s c d t) : d.fetchedInto = some c := by
  unfold Desc.fetchedInto
  rw [h.desc.1]

theorem slots (h : Fetched P q s c d t) (own : s.Slots) : t.Slots := by
  obtain ⟨p, trace⟩ := h.trace
  have free : inUse c s.trace = false := by
    have := own.live c
    simpa [h.fresh] using this
  refine ⟨fun e => ?_, ?_⟩
  · have used : t.cmdSlab.used = c :: s.cmdSlab.used := by
      obtain ⟨slab, slab', clock, used, -, rfl⟩ := h.state
      exact used
    have alloc : inUse e t.trace = if c = e then true else inUse e s.trace := by
      rw [trace]
      rfl
    rw [used, alloc, List.mem_cons, own.live e]
    by_cases same : c = e
    · simp [same]
    · simp [same, Ne.symm same]
  · rw [trace]
    intro ch d' p' old suffix c' into'
    rcases List.suffix_cons_iff.mp suffix with here | later
    · cases here
      cases h.into.symm.trans into'
      exact ⟨s.trace, by rw [h.desc.2.2.2.1], free⟩
    · exact ownSlots_cons (o := .cmdAlloc c q) own.own (fun _ _ _ e => nomatch e) ch d' p' old later c' into'

/-- The queue's own ring grows by one fetch, any other stays. -/
theorem fetches_self (h : Fetched P q s c d t) : fetches q t.trace = d :: fetches q s.trace := by
  obtain ⟨p, trace⟩ := h.trace
  rw [trace]
  exact if_pos ⟨by rw [h.into]; rfl, h.desc.2.2.2.1⟩

theorem fetches_of_ne (h : Fetched P q s c d t) {q' : QId} (other : q' ≠ q) : fetches q' t.trace = fetches q' s.trace := by
  obtain ⟨p, trace⟩ := h.trace
  rw [trace]
  exact if_neg fun same => other (same.2.symm.trans h.desc.2.2.2.1)

theorem head_self (h : Fetched P q s c d t) : t.tc.sqHead q = (s.tc.sqHead q + 1) % s.tc.sqSize q % 2 ^ 16 := by
  rw [h.tc]
  exact Function.update_self ..

theorem head_of_ne (h : Fetched P q s c d t) {q' : QId} (other : q' ≠ q) : t.tc.sqHead q' = s.tc.sqHead q' := by
  rw [h.tc]
  exact Function.update_of_ne other ..

theorem ring_self (h : Fetched P q s c d t) (word : s.tc.sqSize q < 2 ^ 16) (size : 0 < s.tc.sqSize q) (ring : RingLaw s q) :
    RingLaw t q := by
  have slot : t.tc.sqSlot q = s.tc.sqSlot q := by
    unfold NvmeTcPriv.sqSlot
    rw [h.sqBase, h.sqSize]
  have addr : d.hostAddr = s.tc.sqSlot q (fetches q s.trace).length := by
    rw [h.desc.2.2.2.2]
    unfold Fw.advanceSq NvmeTcPriv.sqSlot
    rw [← ring.head]
  constructor
  · rw [h.fetches_self, slot, List.map_cons, List.length_cons, List.range_succ, List.map_append, List.reverse_append,
      ring.inOrder, addr]
    rfl
  · have lt := Nat.mod_lt ((fetches q s.trace).length + 1) size
    rw [h.head_self, h.fetches_self, List.length_cons, h.sqSize, ring.head, Ring.next]
    exact Nat.mod_eq_of_lt (by omega)

theorem ring_of_ne (h : Fetched P q s c d t) {q' : QId} (other : q' ≠ q) (ring : RingLaw s q') : RingLaw t q' := by
  have slot : t.tc.sqSlot q' = s.tc.sqSlot q' := by
    unfold NvmeTcPriv.sqSlot
    rw [h.sqBase, h.sqSize]
  constructor
  · rw [h.fetches_of_ne other, slot]
    exact ring.inOrder
  · rw [h.head_of_ne other, h.fetches_of_ne other, h.sqSize]
    exact ring.head

end Fetched

/-! The loop of the tail handler. -/

/-- `n` entries of `q` are fetched, up to the tail. -/
inductive FetchRun (P : Platform) (q : QId) : Nat → Fw → Fw → Prop where
  | done (s : Fw) (met : s.tc.sqTail q = s.tc.sqHead q) : FetchRun P q 0 s s
  | more {n : Nat} {s u t : Fw} {c : Slot} {d : Desc} (away : s.tc.sqTail q ≠ s.tc.sqHead q)
      (size : 0 < s.tc.sqSize q) (first : Fetched P q s c d u) (rest : FetchRun P q n u t) : FetchRun P q (n + 1) s t

section Loop

variable {P : Platform} {q : QId} {s t : Fw} {n : Nat}

theorem Fw.Room.fetched {n : Nat} (room : s.Room P (n + 1)) (size : 0 < s.tc.sqSize q)
    (run : (nvmeTcFetch P q).run s = some ((), t)) : ∃ c d, Fetched P q s c d t := by
  obtain ⟨t', run', outcome⟩ := run_nvmeTcFetch (P := P) size
  cases run.symm.trans run'
  obtain ⟨slots, descs⟩ := room
  cases outcome with
  | fetched h => exact ⟨_, _, h⟩
  | skipped full => omega
  | lost full => omega

theorem fetchRun_of_run {fuel : Nat} (run : (nvmeTcFetchLoop P q fuel).run s = some ((), t))
    (room : s.Room P (ahead (s.tc.sqSize q) (s.tc.sqTail q) fuel (s.tc.sqHead q))) :
    FetchRun P q (ahead (s.tc.sqSize q) (s.tc.sqTail q) fuel (s.tc.sqHead q)) s t := by
  induction fuel generalizing s with
  | zero => cases run
  | succ fuel ih =>
    simp only [nvmeTcFetchLoop, Prog.run_bind, Prog.run_look, Option.bind_some, Prog.run_ite, decide_eq_true_eq] at run
    rw [ahead] at room ⊢
    by_cases met : s.tc.sqTail q = s.tc.sqHead q
    · rw [if_neg (not_not.mpr met)] at run
      rw [if_pos met]
      cases run
      exact .done _ met
    · rw [if_pos met] at run
      rw [if_neg met] at room ⊢
      obtain ⟨⟨⟨⟩, u⟩, fetch, rest⟩ := Option.bind_eq_some_iff.mp run
      have size : 0 < s.tc.sqSize q := by
        by_contra zero
        rw [run_nvmeTcFetch_stuck (by omega)] at fetch
        cases fetch
      obtain ⟨c, d, first⟩ := room.fetched size fetch
      rw [← first.head_self, ← first.sqSize, ← first.sqTail] at room ⊢
      exact .more met size first (ih rest ((first.room _).mpr room))

/-- What the loop leaves alone, and where it ends. -/
structure FetchRun.Kept (P : Platform) (q : QId) (n : Nat) (s t : Fw) : Prop where
  regs : t.regs = s.regs
  writes : t.writes = s.writes
  size : t.tc.sqSize = s.tc.sqSize
  base : t.tc.sqBase = s.tc.sqBase
  tail : t.tc.sqTail = s.tc.sqTail
  head : t.tc.sqHead = Function.update s.tc.sqHead q (s.tc.sqTail q)
  room : ∀ m, t.Room P m ↔ s.Room P (n + m)

theorem FetchRun.kept (h : FetchRun P q n s t) : FetchRun.Kept P q n s t := by
  induction h with
  | done s met =>
    refine ⟨rfl, rfl, rfl, rfl, rfl, ?_, fun m => by rw [Nat.zero_add]⟩
    rw [met, Function.update_eq_self]
  | more _ _ first _ ih =>
    refine ⟨ih.regs.trans first.regs.1, ih.writes.trans first.regs.2, ih.size.trans first.sqSize,
      ih.base.trans first.sqBase, ih.tail.trans first.sqTail, ?_, fun m => ?_⟩
    · rw [ih.head, first.sqTail, first.tc]
      exact Function.update_idem ..
    · rw [ih.room m, first.room, Nat.add_right_comm]

theorem FetchRun.slots (h : FetchRun P q n s t) (own : s.Slots) : t.Slots := by
  induction h with
  | done => exact own
  | more _ _ first _ ih => exact ih (first.slots own)

theorem FetchRun.created (h : FetchRun P q n s t) {q' : QId} : .sqCreated q' ∈ t.trace ↔ .sqCreated q' ∈ s.trace := by
  induction h with
  | done => exact Iff.rfl
  | more _ _ first _ ih =>
    obtain ⟨p, trace⟩ := first.trace
    rw [ih, trace]
    simp

theorem FetchRun.ring_self (h : FetchRun P q n s t) (word : s.tc.sqSize q < 2 ^ 16) (ring : RingLaw s q) :
    RingLaw t q ∧ (fetches q t.trace).length = (fetches q s.trace).length + n := by
  induction h with
  | done => exact ⟨ring, rfl⟩
  | more _ size first _ ih =>
    have sized := congrFun first.sqSize q
    obtain ⟨ring', count⟩ := ih (by omega) (first.ring_self word size ring)
    rw [count, first.fetches_self, List.length_cons]
    exact ⟨ring', by omega⟩

theorem FetchRun.ring_of_ne (h : FetchRun P q n s t) {q' : QId} (other : q' ≠ q) (ring : RingLaw s q') :
    RingLaw t q' ∧ fetches q' t.trace = fetches q' s.trace := by
  induction h with
  | done => exact ⟨ring, rfl⟩
  | more _ _ first _ ih =>
    obtain ⟨ring', same⟩ := ih (first.ring_of_ne other ring)
    exact ⟨ring', same.trans (first.fetches_of_ne other)⟩

/-- The loop makes as many rounds as there are entries between head and tail. -/
theorem FetchRun.dist (h : FetchRun P q n s t) (word : s.tc.sqSize q < 2 ^ 16) (inside : s.tc.sqHead q < s.tc.sqSize q) :
    s.tc.sqTail q < s.tc.sqSize q ∧ n = Ring.dist (s.tc.sqSize q) (s.tc.sqHead q) (s.tc.sqTail q) := by
  induction h with
  | done s met =>
    rw [met]
    exact ⟨inside, (Ring.dist_self ..).symm⟩
  | @more n s u t c d away size first _ ih =>
    have next := Nat.mod_lt (s.tc.sqHead q + 1) size
    have head : u.tc.sqHead q = (s.tc.sqHead q + 1) % s.tc.sqSize q := by
      rw [first.head_self]
      exact Nat.mod_eq_of_lt (by omega)
    rw [first.sqSize, first.sqTail, head] at ih
    obtain ⟨tail, rfl⟩ := ih word next
    exact ⟨tail, (Ring.dist_next inside tail away).symm⟩

end Loop

/-! The register writes of one interrupt. -/

/-- What a handler other than that of a tail doorbell leaves alone. -/
structure TcOnly (s t : Fw) : Prop where
  trace : t.trace = s.trace
  writes : t.writes = s.writes
  cmdSlab : t.cmdSlab = s.cmdSlab
  descSlab : t.descSlab = s.descSlab
  regs : ∀ r ≠ nvmeTcRegCsts, t.regs r = s.regs r
  head : t.tc.sqHead = s.tc.sqHead
  tail : t.tc.sqTail = s.tc.sqTail
  size : ∀ q ≠ admQueueId, t.tc.sqSize q = s.tc.sqSize q
  base : ∀ q ≠ admQueueId, t.tc.sqBase q = s.tc.sqBase q

/-- Between steps every announced entry of `q` has been fetched. -/
structure Ringed (q : QId) (s : Fw) : Prop where
  law : RingLaw s q
  tail : s.tc.sqTail q = s.tc.sqHead q
  word : s.tc.sqSize q < 2 ^ 16

theorem announced_congr {regs regs' : Nat → Nat} (h : ∀ r ≠ nvmeTcRegCsts, regs' r = regs r) (l : List RegHandler)
    (size head : QId → Nat) : announced regs' l size head = announced regs l size head := by
  induction l generalizing size head with
  | nil => rfl
  | cons r l ih =>
    cases r with
    | tail qid =>
      have doorbell : regs' (doorbellTail qid) = regs (doorbellTail qid) := by
        refine h _ ?_
        unfold doorbellTail doorbellReg doorbellBase nvmeTcRegCsts
        omega
      rw [announced, announced, doorbell]
      split
      · exact congrArg _ (ih _ _)
      · rfl
    | aqa =>
      rw [announced, announced, h nvmeTcRegAqa (by decide)]
      exact ih _ _
    | _ => exact ih size head

section Interrupt

variable {P : Platform} {s t : Fw}

theorem TcOnly.csts (h : TcOnly s t) (value : Nat) : TcOnly s (t.sysWrite32 nvmeTcRegCsts value) :=
  ⟨h.trace, h.writes, h.cmdSlab, h.descSlab, fun r other => (Function.update_of_ne other ..).trans (h.regs r other),
    h.head, h.tail, h.size, h.base⟩

theorem tcOnly_paged (s : Fw) (page : Nat) (on : Bool) :
    TcOnly s (s.setTc fun tc => { tc with memoryPageSize := page, enabled := on }) :=
  ⟨rfl, rfl, rfl, rfl, fun _ _ => rfl, rfl, rfl, fun _ _ => rfl, fun _ _ => rfl⟩

theorem tcOnly_ccHandler (s : Fw) : TcOnly s s.ccHandler ∧ s.ccHandler.tc.sqSize = s.tc.sqSize := by
  unfold Fw.ccHandler
  dsimp only
  split
  · exact ⟨(tcOnly_paged s _ true).csts _, rfl⟩
  · split
    · exact ⟨(tcOnly_paged s _ false).csts _, rfl⟩
    · exact ⟨(tcOnly_paged s _ s.tc.enabled).csts _, rfl⟩

theorem tcOnly_of_run {r : RegHandler} (other : ∀ qid, r ≠ .tail qid) (run : (handleReg P r).run s = some ((), t)) :
    TcOnly s t ∧ ∀ rest, announced s.regs (r :: rest) s.tc.sqSize s.tc.sqHead =
      announced t.regs rest t.tc.sqSize t.tc.sqHead := by
  cases r with
  | tail qid => exact absurd rfl (other qid)
  | cc =>
    cases run
    obtain ⟨only, size⟩ := tcOnly_ccHandler s
    exact ⟨only, fun rest => by rw [announced_congr only.regs, size, only.head]; rfl⟩
  | aqa =>
    cases run
    refine ⟨⟨rfl, rfl, rfl, rfl, fun _ _ => rfl, rfl, rfl, fun q io => ?_, fun _ _ => rfl⟩, fun _ => rfl⟩
    exact Function.update_of_ne io ..
  | asq =>
    cases run
    refine ⟨⟨rfl, rfl, rfl, rfl, fun _ _ => rfl, rfl, rfl, fun _ _ => rfl, fun q io => ?_⟩, fun _ => rfl⟩
    exact Function.update_of_ne io ..
  | acq =>
    cases run
    exact ⟨⟨rfl, rfl, rfl, rfl, fun _ _ => rfl, rfl, rfl, fun _ _ => rfl, fun _ _ => rfl⟩, fun _ => rfl⟩
  | head qid =>
    simp only [handleReg, nvmeTcHeadHandler] at run
    split at run
    · cases run
      exact ⟨⟨rfl, rfl, rfl, rfl, fun _ _ => rfl, rfl, rfl, fun _ _ => rfl, fun _ _ => rfl⟩, fun _ => rfl⟩
    · cases run
  | nothing =>
    cases run
    exact ⟨⟨rfl, rfl, rfl, rfl, fun _ _ => rfl, rfl, rfl, fun _ _ => rfl, fun _ _ => rfl⟩, fun _ => rfl⟩

/-- The tail handler: a new tail, then the loop. -/
theorem fetchRun_of_tail {qid : Nat} {rest : List RegHandler} (run : (handleReg P (.tail qid)).run s = some ((), t))
    (room : s.Room P (announced s.regs (.tail qid :: rest) s.tc.sqSize s.tc.sqHead)) :
    ∃ h : qid < queues, ∃ n, FetchRun P ⟨qid, h⟩ n
      (s.setTc fun tc => { tc with sqTail := Function.update tc.sqTail ⟨qid, h⟩ (s.regs (doorbellTail qid) % 2 ^ 16) }) t ∧
      t.Room P (announced t.regs rest t.tc.sqSize t.tc.sqHead) := by
  simp only [handleReg, nvmeTcTailHandler] at run
  split at run
  · rename_i h
    simp only [Prog.run_bind, Prog.run_change, Option.bind_some] at run
    generalize hu : s.setTc _ = u at run
    have tail : u.tc.sqTail ⟨qid, h⟩ = s.regs (doorbellTail qid) % 2 ^ 16 := by
      rw [← hu]
      exact Function.update_self ..
    have size : u.tc.sqSize = s.tc.sqSize := by rw [← hu]; rfl
    have head : u.tc.sqHead = s.tc.sqHead := by rw [← hu]; rfl
    have regs : u.regs = s.regs := by rw [← hu]; rfl
    have roomy (m : Nat) : u.Room P m ↔ s.Room P m := by rw [← hu]; exact Iff.rfl
    rw [announced, dif_pos h] at room
    dsimp only at room
    rw [← tail, ← size, ← head] at room
    have fetched := fetchRun_of_run run ((roomy _).mpr ⟨by have := room.1; omega, by have := room.2; omega⟩)
    refine ⟨h, _, hu ▸ fetched, (fetched.kept.room _).mpr ((roomy _).mpr ?_)⟩
    rw [fetched.kept.head, fetched.kept.size, fetched.kept.regs, regs]
    exact room
  · cases run

theorem handleReg_slots {r : RegHandler} {rest : List RegHandler} (run : (handleReg P r).run s = some ((), t))
    (room : s.Room P (announced s.regs (r :: rest) s.tc.sqSize s.tc.sqHead)) :
    t.Room P (announced t.regs rest t.tc.sqSize t.tc.sqHead) ∧ t.writes = s.writes ∧ (s.Slots → t.Slots) ∧
      ∀ q, .sqCreated q ∈ t.trace ↔ .sqCreated q ∈ s.trace := by
  by_cases tail : ∃ qid, r = .tail qid
  · obtain ⟨qid, rfl⟩ := tail
    obtain ⟨h, n, fetched, room'⟩ := fetchRun_of_tail run room
    exact ⟨room', fetched.kept.writes, fun own => fetched.slots ⟨own.live, own.own⟩, fun q => fetched.created⟩
  · obtain ⟨only, same⟩ := tcOnly_of_run (fun qid e => tail ⟨qid, e⟩) run
    rw [same rest] at room
    refine ⟨?_, only.writes, fun own => ⟨?_, ?_⟩, fun q => by rw [only.trace]⟩
    · unfold Fw.Room at room ⊢
      rwa [only.cmdSlab, only.descSlab]
    · rw [only.cmdSlab, only.trace]
      exact own.live
    · rw [only.trace]
      exact own.own

/-- What one handler does to the ring of `q`. -/
structure HandledReg (q : QId) (r : RegHandler) (s t : Fw) : Prop where
  ring : Ringed q t
  count : (fetches q t.trace).length = (fetches q s.trace).length +
    if r = .tail q.val then Ring.dist (s.tc.sqSize q) (s.tc.sqHead q) (s.regs (doorbellTail q) % 2 ^ 16) else 0
  size : t.tc.sqSize q = s.tc.sqSize q
  head : t.tc.sqHead q = if r = .tail q.val then s.regs (doorbellTail q) % 2 ^ 16 else s.tc.sqHead q
  doorbell : t.regs (doorbellTail q) = s.regs (doorbellTail q)

theorem doorbellTail_ne (n : Nat) : doorbellTail n ≠ nvmeTcRegCsts := by
  unfold doorbellTail doorbellReg doorbellBase nvmeTcRegCsts
  omega

theorem handledReg_of_run {q : QId} (io : q ≠ admQueueId) {r : RegHandler} {rest : List RegHandler} (h : Ringed q s)
    (run : (handleReg P r).run s = some ((), t))
    (room : s.Room P (announced s.regs (r :: rest) s.tc.sqSize s.tc.sqHead)) : HandledReg q r s t := by
  by_cases tail : ∃ qid, r = .tail qid
  · obtain ⟨qid, rfl⟩ := tail
    obtain ⟨valid, n, fetched, -⟩ := fetchRun_of_tail run room
    generalize hu : s.setTc _ = u at fetched
    have trace : u.trace = s.trace := by rw [← hu]; rfl
    have size : u.tc.sqSize = s.tc.sqSize := by rw [← hu]; rfl
    have head : u.tc.sqHead = s.tc.sqHead := by rw [← hu]; rfl
    have base : u.tc.sqBase = s.tc.sqBase := by rw [← hu]; rfl
    have regs : u.regs = s.regs := by rw [← hu]; rfl
    have tail : u.tc.sqTail = Function.update s.tc.sqTail ⟨qid, valid⟩ (s.regs (doorbellTail qid) % 2 ^ 16) := by
      rw [← hu]
      rfl
    have law : RingLaw u q := by
      have slot : u.tc.sqSlot q = s.tc.sqSlot q := by
        unfold NvmeTcPriv.sqSlot
        rw [base, size]
      exact ⟨by rw [trace, slot]; exact h.law.inOrder, by rw [trace, size, head]; exact h.law.head⟩
    have kept := fetched.kept
    have word : t.tc.sqSize q < 2 ^ 16 := by
      rw [kept.size, size]
      exact h.word
    by_cases here : qid = q
    · subst here
      obtain ⟨law', count⟩ := fetched.ring_self (by rw [size]; exact h.word) law
      have met : t.tc.sqHead q = s.regs (doorbellTail q) % 2 ^ 16 := by
        rw [kept.head, tail]
        simp
      have rounds : n = Ring.dist (s.tc.sqSize q) (s.tc.sqHead q) (s.regs (doorbellTail q) % 2 ^ 16) := by
        by_cases zero : s.tc.sqSize q = 0
        · cases fetched with
          | done _ same =>
            rw [tail, head, Function.update_self] at same
            rw [same]
            exact (Ring.dist_self ..).symm
          | more _ size' =>
            rw [size] at size'
            exact absurd zero (Nat.pos_iff_ne_zero.mp size')
        · have inside : s.tc.sqHead q < s.tc.sqSize q := by
            rw [h.law.head]
            exact Nat.mod_lt _ (by omega)
          have := (fetched.dist (by rw [size]; exact h.word) (by rw [size, head]; exact inside)).2
          rwa [size, head, tail, Function.update_self] at this
      refine ⟨⟨law', ?_, word⟩, ?_, by rw [kept.size, size], by rw [if_pos rfl]; exact met, by rw [kept.regs, regs]⟩
      · rw [met, kept.tail, tail]
        exact Function.update_self ..
      · rw [count, trace, if_pos rfl, rounds]
    · have other : q ≠ ⟨qid, valid⟩ := fun same => here (congrArg Fin.val same).symm
      have not : ¬RegHandler.tail qid = .tail q.val := fun same => here (RegHandler.tail.inj same)
      obtain ⟨law', same⟩ := fetched.ring_of_ne other law
      have head' : t.tc.sqHead q = s.tc.sqHead q := by
        rw [kept.head, Function.update_of_ne other, head]
      refine ⟨⟨law', ?_, word⟩, ?_, by rw [kept.size, size], by rw [if_neg not]; exact head', by rw [kept.regs, regs]⟩
      · rw [head', kept.tail, tail, Function.update_of_ne other]
        exact h.tail
      · rw [same, trace, if_neg not]
        rfl
  · obtain ⟨only, -⟩ := tcOnly_of_run (fun qid e => tail ⟨qid, e⟩) run
    have not : ¬r = .tail q.val := fun e => tail ⟨q.val, e⟩
    have slot : t.tc.sqSlot q = s.tc.sqSlot q := by
      unfold NvmeTcPriv.sqSlot
      rw [only.base q io, only.size q io]
    refine ⟨⟨⟨?_, ?_⟩, ?_, ?_⟩, ?_, only.size q io, ?_, only.regs _ (doorbellTail_ne _)⟩
    · rw [only.trace, slot]
      exact h.law.inOrder
    · rw [only.trace, only.head, only.size q io]
      exact h.law.head
    · rw [only.tail, only.head]
      exact h.tail
    · rw [only.size q io]
      exact h.word
    · rw [only.trace, if_neg not]
      rfl
    · rw [if_neg not, only.head]

end Interrupt

section Run

variable {P : Platform} {s t : Fw}

theorem ringed_of_irqLoop {q : QId} (io : q ≠ admQueueId) {ws : List Nat} (pending : s.writes = ws)
    (run : (nvmeTcIrqLoop P ws.length).run s = some ((), t))
    (room : s.Room P (announced s.regs s.pending s.tc.sqSize s.tc.sqHead)) (h : Ringed q s) :
    Ringed q t ∧ (fetches q t.trace).length = (fetches q s.trace).length + s.due q := by
  induction ws generalizing s with
  | nil =>
    cases run
    refine ⟨h, ?_⟩
    simp [Fw.due, Fw.pending, pending]
  | cons w ws ih =>
    simp only [List.length_cons, nvmeTcIrqLoop, Prog.run_bind, Prog.run_swap, Option.bind_some, pending,
      List.headD_cons] at run
    obtain ⟨⟨⟨⟩, u⟩, first, rest⟩ := Option.bind_eq_some_iff.mp run
    have room' : s.Room P (announced s.regs (regHandler queues (w * 4 % 2 ^ 16) :: ws.map fun w => regHandler queues (w * 4 % 2 ^ 16))
        s.tc.sqSize s.tc.sqHead) := by
      rw [Fw.pending, pending] at room
      exact room
    generalize hr : regHandler queues (w * 4 % 2 ^ 16) = r at first room'
    have start : Ringed q { s with writes := ws } := ⟨⟨h.law.inOrder, h.law.head⟩, h.tail, h.word⟩
    obtain ⟨room'', writes, -, -⟩ := handleReg_slots (s := { s with writes := ws }) first room'
    have one := handledReg_of_run (s := { s with writes := ws }) io start first room'
    have left : u.pending = ws.map fun w => regHandler queues (w * 4 % 2 ^ 16) := by
      unfold Fw.pending
      rw [writes]
    obtain ⟨ring, count⟩ := ih writes rest (by rw [left]; exact room'') one.ring
    refine ⟨ring, ?_⟩
    rw [count, one.count]
    have due : s.due q = if r = .tail q.val ∨ .tail q.val ∈ u.pending then
        Ring.dist (s.tc.sqSize q) (s.tc.sqHead q) (s.regs (doorbellTail q) % 2 ^ 16) else 0 := by
      unfold Fw.due Fw.pending
      rw [writes, pending, List.map_cons, hr]
      simp only [List.mem_cons, eq_comm]
    rw [due]
    unfold Fw.due
    rw [one.size, one.head, one.doorbell]
    by_cases now : r = .tail q.val
    · simp [now, Ring.dist_self]
    · simp [now]

theorem slots_of_irqLoop {ws : List Nat} (pending : s.writes = ws) (run : (nvmeTcIrqLoop P ws.length).run s = some ((), t))
    (room : s.Room P (announced s.regs s.pending s.tc.sqSize s.tc.sqHead)) (own : s.Slots) :
    t.Slots ∧ ∀ q, .sqCreated q ∈ t.trace ↔ .sqCreated q ∈ s.trace := by
  induction ws generalizing s with
  | nil =>
    cases run
    exact ⟨own, fun _ => Iff.rfl⟩
  | cons w ws ih =>
    simp only [List.length_cons, nvmeTcIrqLoop, Prog.run_bind, Prog.run_swap, Option.bind_some, pending,
      List.headD_cons] at run
    obtain ⟨⟨⟨⟩, u⟩, first, rest⟩ := Option.bind_eq_some_iff.mp run
    rw [Fw.pending, pending, List.map_cons] at room
    obtain ⟨room', writes, slots, created⟩ := handleReg_slots (s := { s with writes := ws }) first room
    have left : u.pending = ws.map fun w => regHandler queues (w * 4 % 2 ^ 16) := by
      unfold Fw.pending
      rw [writes]
    obtain ⟨own', created'⟩ := ih writes rest (by rw [left]; exact room') (slots ⟨own.live, own.own⟩)
    exact ⟨own', fun q => (created' q).trans (created q)⟩

end Run

/-! Whole runs. -/

/-- Between the two states `q` was created anew, or nothing was fetched from it. -/
def Unfetched (q : QId) (s t : Fw) : Prop :=
  ∃ new, t.trace = new ++ s.trace ∧ (.sqCreated q ∉ new → fetches q t.trace = fetches q s.trace)

theorem Unfetched.aside {q : QId} {s t u : Fw} (h : Unfetched q s t) (next : Aside q t u) : Unfetched q s u := by
  obtain ⟨new, trace, same⟩ := h
  cases next with
  | same _ trace' => exact ⟨new, trace'.trans trace, by rwa [trace']⟩
  | note o _ trace' other kept =>
    refine ⟨o :: new, by rw [trace', trace, List.cons_append], fun not => ?_⟩
    rw [trace', fetches_cons other kept]
    exact same fun mem => not (List.mem_cons_of_mem o mem)
  | created trace' =>
    refine ⟨.sqCreated q :: new, by rw [trace', trace, List.cons_append], fun not => ?_⟩
    exact absurd List.mem_cons_self not

/-- A queue that was created is an IO queue, all of whose announced entries have been fetched. -/
def Fetching (s : Fw) (q : QId) : Prop := .sqCreated q ∈ s.trace → q ≠ admQueueId ∧ Ringed q s

theorem Fetching.aside {q : QId} {s t : Fw} (h : Fetching s q) (next : Aside q s t) : Fetching t q := by
  have kept (sq : SameSq q s t) (same : fetches q t.trace = fetches q s.trace) (created : .sqCreated q ∈ s.trace) :
      q ≠ admQueueId ∧ Ringed q t := by
    obtain ⟨io, law, tail, word⟩ := h created
    have slot : t.tc.sqSlot q = s.tc.sqSlot q := by
      unfold NvmeTcPriv.sqSlot
      rw [sq.base, sq.size]
    refine ⟨io, ⟨?_, ?_⟩, ?_, ?_⟩
    · rw [same, slot]
      exact law.inOrder
    · rw [same, sq.head, sq.size]
      exact law.head
    · rw [sq.tail, sq.head]
      exact tail
    · rw [sq.size]
      exact word
  cases next with
  | same sq trace =>
    intro created
    rw [trace] at created
    exact kept sq (by rw [trace]) created
  | note o sq trace other new =>
    intro created
    rw [trace] at created
    rcases List.mem_cons.mp created with here | before
    · exact absurd here.symm new
    · exact kept sq (by rw [trace, fetches_cons other new]) before
  | created trace head tail size io =>
    have none : fetches q t.trace = [] := by
      rw [trace]
      exact if_pos rfl
    refine fun _ => ⟨io, ⟨?_, ?_⟩, by rw [tail, head], size⟩
    · rw [none]
      rfl
    · rw [none, head]
      exact (Nat.zero_mod _).symm

section

variable {P : Platform}

theorem irqLoop_of_step {S T : Sys} (step : S.step P .tcIrq = some T) :
    (nvmeTcIrqLoop P S.fw.writes.length).run S.fw = some ((), T.fw) := by
  obtain ⟨fw, env, rfl⟩ := Option.map_eq_some_iff.mp step
  obtain ⟨⟨⟨⟩, u⟩, run, rfl⟩ := Option.map_eq_some_iff.mp env
  simpa only [nvmeTcIrqHandler, Prog.run_bind, Prog.run_look, Option.bind_some] using run

theorem step_fetching {S T : Sys} {e : Event} (step : S.step P e = some T) (sound : S.Sound P) (room : Roomy P S e)
    (h : S.fw.Slots ∧ ∀ q, Fetching S.fw q) : T.fw.Slots ∧ ∀ q, Fetching T.fw q := by
  by_cases irq : e = .tcIrq
  · subst irq
    have run := irqLoop_of_step step
    obtain ⟨slots, created⟩ := slots_of_irqLoop rfl run (room rfl) h.1
    refine ⟨slots, fun q mem => ?_⟩
    obtain ⟨io, ring⟩ := h.2 q ((created q).mp mem)
    exact ⟨io, (ringed_of_irqLoop io rfl run (room rfl) ring).1⟩
  · refine Sys.step_aside (I := fun s => s.Slots ∧ ∀ q, Fetching s q) ?_ ?_ irq step sound h
    · exact fun l s t act h => ⟨act.slots h.1, fun q => (h.2 q).aside act.aside⟩
    · exact fun s t act h => ⟨act.slots h.1, fun q => (h.2 q).aside act.aside⟩

theorem step_count {S T : Sys} {e : Event} (step : S.step P e = some T) (sound : S.Sound P) (room : Roomy P S e) {q : QId}
    (io : q ≠ admQueueId) (ring : Ringed q S.fw) {new : List Obs} (trace : T.fw.trace = new ++ S.fw.trace)
    (kept : .sqCreated q ∉ new) :
    (fetches q T.fw.trace).length = (fetches q S.fw.trace).length + if e = .tcIrq then S.fw.due q else 0 := by
  by_cases irq : e = .tcIrq
  · subst irq
    rw [if_pos rfl]
    exact (ringed_of_irqLoop io rfl (irqLoop_of_step step) (room rfl) ring).2
  · rw [if_neg irq]
    have still : Unfetched q S.fw T.fw :=
      Sys.step_aside (I := Unfetched q S.fw) (fun l s t act h => h.aside act.aside) (fun s t act h => h.aside act.aside)
        irq step sound ⟨[], rfl, fun _ => rfl⟩
    obtain ⟨new', trace', same⟩ := still
    cases List.append_cancel_right (trace.symm.trans trace')
    rw [same kept, Nat.add_zero]

theorem Run.fetching {host ram : Nat → UInt8} {S : Sys} (run : Run P (Roomy P) (Sys.boot host ram) S) :
    S.fw.Slots ∧ ∀ q, Fetching S.fw q := by
  induction run with
  | refl =>
    refine ⟨⟨fun c => by simp [Sys.boot, inUse], fun _ _ _ _ suffix => ?_⟩, fun _ h => nomatch h⟩
    exact nomatch List.suffix_nil.mp suffix
  | step e before room next ih => exact step_fetching next before.sound room ih

end

/-- As long as every announced entry finds a command slot and a descriptor: between steps, the entries
of a created queue have been fetched in ring order up to the last doorbell, each once and into a slot
of its own, and a step fetches those that it hears of. -/
theorem fetched_inOrder (P : Platform) {host ram : Nat → UInt8} {S : Sys} (run : Run P (Roomy P) (Sys.boot host ram) S) :
    OwnSlots S.fw.trace ∧ ∀ q, .sqCreated q ∈ S.fw.trace →
      (RingLaw S.fw q ∧ S.fw.tc.sqTail q = S.fw.tc.sqHead q) ∧
      ∀ e T new, Roomy P S e → S.step P e = some T → T.fw.trace = new ++ S.fw.trace → .sqCreated q ∉ new →
        (fetches q T.fw.trace).length =
          (fetches q S.fw.trace).length + if e = .tcIrq then S.fw.due q else 0 := by
  obtain ⟨slots, fetching⟩ := run.fetching
  refine ⟨slots.own, fun q created => ?_⟩
  obtain ⟨io, ring⟩ := fetching q created
  exact ⟨⟨ring.law, ring.tail⟩, fun e T new room step trace kept => step_count step run.sound room io ring trace kept⟩

/-! More entries than slots. -/

section Overload

variable {P : Platform} {q : QId} {s t : Fw}

theorem FetchOutcome.tc (h : FetchOutcome P q s t) : t.tc = (s.advanceSq q).2.tc := by
  cases h with
  | fetched h => exact h.tc
  | _ => rfl

/-- Every fetch takes a slot. -/
theorem FetchOutcome.slotted (h : FetchOutcome P q s t) :
    (fetches q t.trace).length + s.cmdSlab.used.length ≤ (fetches q s.trace).length + t.cmdSlab.used.length := by
  cases h with
  | fetched h =>
    have used : t.cmdSlab.used.length = s.cmdSlab.used.length + 1 := by
      obtain ⟨slab, slab', clock, used, -, rfl⟩ := h.state
      exact congrArg List.length used
    rw [h.fetches_self, List.length_cons]
    omega
  | skipped => exact le_rfl
  | @lost c slab clock full fresh alloc =>
    have used : slab.used.length = s.cmdSlab.used.length + 1 := congrArg List.length alloc
    change (fetches q s.trace).length + s.cmdSlab.used.length ≤ (fetches q s.trace).length + slab.used.length
    omega

/-- The tail is reached whether or not there are slots. -/
theorem run_nvmeTcFetchLoop {fuel : Nat} (word : s.tc.sqSize q < 2 ^ 16) (inside : s.tc.sqHead q < s.tc.sqSize q)
    (tail : s.tc.sqTail q < s.tc.sqSize q) (enough : Ring.dist (s.tc.sqSize q) (s.tc.sqHead q) (s.tc.sqTail q) < fuel) :
    ∃ t, (nvmeTcFetchLoop P q fuel).run s = some ((), t) ∧ t.tc.sqHead q = s.tc.sqTail q ∧ t.tc.sqSize q = s.tc.sqSize q ∧
      (fetches q t.trace).length + s.cmdSlab.used.length ≤ (fetches q s.trace).length + t.cmdSlab.used.length := by
  induction fuel generalizing s with
  | zero => omega
  | succ fuel ih =>
    simp only [nvmeTcFetchLoop, Prog.run_bind, Prog.run_look, Option.bind_some, Prog.run_ite, decide_eq_true_eq]
    by_cases met : s.tc.sqTail q = s.tc.sqHead q
    · rw [if_neg (not_not.mpr met)]
      exact ⟨s, rfl, met.symm, rfl, le_rfl⟩
    · rw [if_pos met]
      have size : 0 < s.tc.sqSize q := by omega
      obtain ⟨u, fetch, outcome⟩ := run_nvmeTcFetch (P := P) size
      have next := Nat.mod_lt (s.tc.sqHead q + 1) size
      have head : u.tc.sqHead q = (s.tc.sqHead q + 1) % s.tc.sqSize q := by
        rw [outcome.tc]
        refine (Function.update_self ..).trans (Nat.mod_eq_of_lt ?_)
        omega
      have size' : u.tc.sqSize q = s.tc.sqSize q := by rw [outcome.tc]; rfl
      have tail' : u.tc.sqTail q = s.tc.sqTail q := by rw [outcome.tc]; rfl
      have closer := Ring.dist_next inside tail met
      obtain ⟨t, rest, met', size'', slotted⟩ := ih (s := u) (by omega) (by omega) (by omega)
        (by rw [size', head, tail']; omega)
      have one := outcome.slotted
      rw [fetch]
      exact ⟨t, rest, met'.trans tail', size''.trans size', by omega⟩

theorem step_tail {S : Sys} {w : Nat} (writes : S.fw.writes = [w]) (handler : regHandler queues (w * 4 % 2 ^ 16) = .tail q.val)
    (word : S.fw.tc.sqSize q < 2 ^ 16) (inside : S.fw.tc.sqHead q < S.fw.tc.sqSize q)
    (tail : S.fw.regs (doorbellTail q) % 2 ^ 16 < S.fw.tc.sqSize q) :
    ∃ T, S.step P .tcIrq = some T ∧ T.fw.tc.sqHead q = S.fw.regs (doorbellTail q) % 2 ^ 16 ∧
      T.fw.tc.sqSize q = S.fw.tc.sqSize q ∧
      (fetches q T.fw.trace).length + S.fw.cmdSlab.used.length ≤
        (fetches q S.fw.trace).length + T.fw.cmdSlab.used.length := by
  let u : Fw := Fw.setTc { S.fw with writes := [] } fun tc =>
    { tc with sqTail := Function.update tc.sqTail q (S.fw.regs (doorbellTail q) % 2 ^ 16) }
  have tail' : u.tc.sqTail q = S.fw.regs (doorbellTail q) % 2 ^ 16 := Function.update_self ..
  have close := Ring.dist_lt (h := u.tc.sqHead q) (show u.tc.sqTail q < u.tc.sqSize q by rw [tail']; exact tail)
  obtain ⟨t, loop, met, size, slotted⟩ := run_nvmeTcFetchLoop (P := P) (s := u) word inside
    (by rw [tail']; exact tail) (show _ < 2 ^ 16 + 1 from close.trans (Nat.lt_succ_of_lt word))
  have run : (nvmeTcIrqHandler P).run S.fw = some ((), t) := by
    simp only [nvmeTcIrqHandler, Prog.run_bind, Prog.run_look, Option.bind_some, writes, List.length_singleton,
      nvmeTcIrqLoop, Prog.run_swap, List.headD_cons, List.tail_cons, handler, handleReg, nvmeTcTailHandler, q.isLt,
      dite_true, Prog.run_change]
    exact Option.bind_eq_some_iff.mpr ⟨((), t), loop, rfl⟩
  refine ⟨{ S with fw := t }, ?_, met.trans tail', size, slotted⟩
  change ((((nvmeTcIrqHandler P).run S.fw).map (·.2)).map fun fw => { S with fw }) = _
  rw [run]
  rfl

end Overload

/-- A queue of 2048 entries, 1500 of which are announced at once. -/
def overload : List Event :=
  setUp ++ [.hostStore 0x10000 [1], .hostStore 0x10028 [1, 0, 0xFF, 7], .hostWrite (doorbellTail 0 / 4) 1, .tcIrq,
    .dmaDone .rx, .dmaIrq, .hostWrite (doorbellTail 1 / 4) 1500]

theorem entries_skipped : ¬∀ S, Reachable (board (2 ^ 12)) S → ∀ q, .sqCreated q ∈ S.fw.trace → RingLaw S.fw q := by
  intro law
  have runs : ((Sys.boot (fun _ => 0) fun _ => 0).exec (board (2 ^ 12)) overload).map
      (fun S => decide (S.fw.writes = [doorbellTail 1 / 4] ∧ S.fw.tc.sqSize ioQueueId = 2048 ∧ S.fw.tc.sqHead ioQueueId = 0 ∧
        S.fw.regs (doorbellTail 1) = 1500 ∧ (fetches ioQueueId S.fw.trace).length = 0) &&
        S.fw.trace.any fun o => match o with | .sqCreated q => decide (q = ioQueueId) | _ => false) = some true := by
    decide +kernel
  obtain ⟨S, exec, facts⟩ := Option.map_eq_some_iff.mp runs
  obtain ⟨now, made⟩ := Bool.and_eq_true_iff.mp facts
  obtain ⟨writes, size, head, doorbell, none⟩ := of_decide_eq_true now
  have created : .sqCreated ioQueueId ∈ S.fw.trace := by
    obtain ⟨o, mem, eq⟩ := List.any_eq_true.mp made
    split at eq
    · rwa [← of_decide_eq_true eq]
    · cases eq
  have reach : Run (board (2 ^ 12)) (fun _ _ => True) _ S := (Run.refl _).exec exec
  obtain ⟨T, step, head', size', slotted⟩ := step_tail (P := board (2 ^ 12)) (q := ioQueueId) writes (by decide)
    (by rw [size]; decide) (by rw [size, head]; decide)
    (by rw [size, show S.fw.regs (doorbellTail ioQueueId) = 1500 from doorbell]; decide)
  have created' : .sqCreated ioQueueId ∈ T.fw.trace := (Sys.step_history step reach.sound).subset created
  have law' := (law T ⟨_, _, reach.step _ trivial step⟩ _ created').head
  have slots := T.fw.cmdSlab.length_le
  rw [head', size', size, show S.fw.regs (doorbellTail ioQueueId) = 1500 from doorbell] at law'
  rw [none] at slotted
  have few : (fetches ioQueueId T.fw.trace).length ≤ 1024 := by
    have : nvmeCmdSlabSize = 1024 := rfl
    omega
  omega

/-- Two entries announced by one doorbell. -/
theorem twoEntries_fetched : ∃ S, Run (board (2 ^ 12)) (Roomy (board (2 ^ 12))) (Sys.boot (fun _ => 0) fun _ => 0) S ∧
    (fetches ioQueueId S.fw.trace).map (·.hostAddr) = [64, 0] ∧
    (RingLaw S.fw ioQueueId ∧ S.fw.tc.sqTail ioQueueId = S.fw.tc.sqHead ioQueueId) := by
  have runs : ((Sys.boot (fun _ => 0) fun _ => 0).execOk (board (2 ^ 12)) (fun S e => decide (Roomy (board (2 ^ 12)) S e))
      (overload ++ [.hostWrite (doorbellTail 1 / 4) 2, .tcIrq])).map
      (fun S => decide ((fetches ioQueueId S.fw.trace).map (·.hostAddr) = [64, 0]) &&
        S.fw.trace.any fun o => match o with | .sqCreated q => decide (q = ioQueueId) | _ => false) = some true := by
    decide +kernel
  obtain ⟨S, exec, facts⟩ := Option.map_eq_some_iff.mp runs
  obtain ⟨fetched, made⟩ := Bool.and_eq_true_iff.mp facts
  have created : .sqCreated ioQueueId ∈ S.fw.trace := by
    obtain ⟨o, mem, eq⟩ := List.any_eq_true.mp made
    split at eq
    · rwa [← of_decide_eq_true eq]
    · cases eq
  have run : Run (board (2 ^ 12)) (Roomy (board (2 ^ 12))) _ S := (Run.refl _).execOk (fun S e h => of_decide_eq_true h) exec
  exact ⟨S, run, of_decide_eq_true fetched, ((fetched_inOrder _ run).2 _ created).1⟩

end AlkaliFw
