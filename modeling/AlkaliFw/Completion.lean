import AlkaliFw.Return
import AlkaliFw.Board
import AlkaliFw.Ring

/-! The completion ring as the host sees it. Postings are single steps here, the host moves
its head over entries that were posted, and whatever else goes on leaves the ring's registers
alone. The source takes the address zero for a full ring. -/

namespace AlkaliFw
open Resumption

/-- Host address of the `j`-th posting. -/
def NvmeTcPriv.cqSlot (tc : NvmeTcPriv) (q : QId) (j : Nat) : Nat :=
  (tc.cqBase q + j % tc.cqSize q * nvmeTcCqEntrySize) % 2 ^ 64

/-- The entries that were posted, oldest first, and how many of them the host has consumed. -/
structure HostCq where
  posted : List (Nat × NvmeCqEntry) := []
  consumed : Nat := 0

/-- The descriptor that the newest event queued. -/
def Fw.lastQueued (s : Fw) : Option Desc :=
  match s.trace with
  | .queued _ d _ :: _ => some d
  | _ => none

def HostCq.post (v : HostCq) (c : Slot) (t : Fw) : HostCq :=
  match t.lastQueued with
  | some d => { v with posted := v.posted ++ [(d.hostAddr, (t.cmds c).cqBuf)] }
  | none => v

/-- A ring that is not used yet: a queue just created, or the admin queue since the start. -/
inductive CqStart (q : QId) : Fw → Prop where
  | created (p : NvmeCmdPriv) (s : Fw) (io : q ≠ admQueueId) : CqStart q (createCq p q s)
  | admin (s : Fw) (adm : q = admQueueId) (head : s.tc.cqHead q = ({} : NvmeTcPriv).cqHead q)
      (tail : s.tc.cqTail q = ({} : NvmeTcPriv).cqTail q) (phase : s.tc.cqPhase q = ({} : NvmeTcPriv).cqPhase q) :
      CqStart q s

/-- The completion queue `q` is as before. -/
structure SameCq (q : QId) (s t : Fw) : Prop where
  head : t.tc.cqHead q = s.tc.cqHead q
  tail : t.tc.cqTail q = s.tc.cqTail q
  phase : t.tc.cqPhase q = s.tc.cqPhase q
  size : t.tc.cqSize q = s.tc.cqSize q
  base : t.tc.cqBase q = s.tc.cqBase q

/-- Any order of postings, whose states meet a condition, and of head doorbells. -/
inductive CqRun (P : Platform) (ok : Fw → QId → Prop) (q : QId) (s₀ : Fw) : Fw → HostCq → Prop where
  | start : CqRun P ok q s₀ s₀ {}
  | post {s t : Fw} {v : HostCq} (c : Slot) (run : CqRun P ok q s₀ s v) (queue : (s.cmds c).qid = q) (met : ok s q)
      (ret : (nvmeCmdReturn P c).run s = some ((), t)) : CqRun P ok q s₀ t (v.post c t)
  | consume {s t : Fw} {v : HostCq} {k : Nat} (run : CqRun P ok q s₀ s v) (advance : v.consumed ≤ k)
      (posted : k ≤ v.posted.length) (doorbell : s.regs (doorbellHead q) % 2 ^ 16 = k % s.tc.cqSize q)
      (head : (nvmeTcHeadHandler q).run s = some ((), t)) : CqRun P ok q s₀ t { v with consumed := k }
  | other {s t : Fw} {v : HostCq} (run : CqRun P ok q s₀ s v) (same : SameCq q s t) : CqRun P ok q s₀ t v

/-- The law of the ring in one state. The host looks at its ring when the first `m` postings have
arrived there. -/
structure CqLaw (P : Platform) (ok : Fw → QId → Prop) (q : QId) (s : Fw) (v : HostCq) : Prop where
  inOrder : ∀ (j : Nat) w, v.posted[j]? = some w → w.1 = s.tc.cqSlot q j ∧ w.2.p = Ring.phase (s.tc.cqSize q) j
  refused : ∀ c t, (s.cmds c).qid = q → ok s q → (nvmeCmdReturn P c).run s = some ((), t) →
    (t.lastQueued = none ↔ v.posted.length - v.consumed = s.tc.cqSize q - 1)
  unconsumed : ∀ c t d, (s.cmds c).qid = q → ok s q → (nvmeCmdReturn P c).run s = some ((), t) →
    t.lastQueued = some d → ∀ (j : Nat) w, v.consumed ≤ j → v.posted[j]? = some w → d.hostAddr ≠ w.1
  scan : ∀ m, v.consumed ≤ m → m ≤ v.posted.length →
    let found := Ring.memory {} (v.posted.take m) (s.tc.cqSlot q v.consumed)
    (found.p = Ring.phase (s.tc.cqSize q) v.consumed ↔ v.consumed < m) ∧
      (v.consumed < m → v.posted[v.consumed]? = some (s.tc.cqSlot q v.consumed, found))

/-- A posting finds the ring full, or a slot whose address is not zero and a descriptor. -/
def Postable (P : Platform) (s : Fw) (q : QId) : Prop :=
  s.tc.cqFull q ∨ s.tc.cqSlot q (s.tc.cqTail q) ≠ 0 ∧ s.descSlab.used.length < P.nvmeDmaSlabEntries

instance (P : Platform) (s : Fw) (q : QId) : Decidable (Postable P s q) := instDecidableOr

section Posting

variable {P : Platform} {q : QId} {c : Slot} {s t : Fw}

theorem head_mod_size (tail : s.tc.cqTail q < s.tc.cqSize q) :
    (s.tc.cqBase q + s.tc.cqTail q * nvmeTcCqEntrySize) % 2 ^ 64 = s.tc.cqSlot q (s.tc.cqTail q) := by
  rw [NvmeTcPriv.cqSlot, Nat.mod_eq_of_lt tail]

/-- A return that finds the ring full leaves it. -/
theorem refused_of_full (queue : (s.cmds c).qid = q) (ring : 0 < s.tc.cqSize q) (full : s.tc.cqFull q)
    (ret : (nvmeCmdReturn P c).run s = some ((), t)) : t.lastQueued = none ∧ t.tc = s.tc := by
  subst queue
  have addr := run_nvmeTcGetCqAddr ring
  rw [if_pos full] at addr
  simp only [nvmeCmdReturn, lose, Prog.run_bind, ofCmd, Prog.run_look, Option.bind_some, addr, if_true,
    Prog.run_change] at ret
  cases ret
  exact ⟨rfl, rfl⟩

/-- Any other takes the next slot and its phase, given an address and a descriptor. -/
theorem posted_of_postable (queue : (s.cmds c).qid = q) (tail : s.tc.cqTail q < s.tc.cqSize q) (free : ¬s.tc.cqFull q)
    (post : Postable P s q) (ret : (nvmeCmdReturn P c).run s = some ((), t)) :
    ∃ d, t.lastQueued = some d ∧ d.hostAddr = s.tc.cqSlot q (s.tc.cqTail q) ∧ t.tc = s.tc.allot q ∧
      (t.cmds c).cqBuf.p = (s.tc.allot q).cqPhase q := by
  subst queue
  obtain ⟨addr_ne, room⟩ := post.resolve_left free
  have addr := run_nvmeTcGetCqAddr (Nat.zero_lt_of_lt tail)
  rw [if_neg free, head_mod_size tail] at addr
  simp only [nvmeCmdReturn, lose, loseUnless, nvmeDmaXferMemToHost, Prog.run_bind, ofCmd, setCmd, Prog.run_look,
    Option.bind_some, addr, if_neg addr_ne, Prog.run_change] at ret
  generalize hu : (s.setTc _).setCmd c _ = u at ret
  have descs : u.descSlab = s.descSlab := by rw [← hu]; rfl
  have tc : u.tc = s.tc.allot (s.cmds c).qid := by rw [← hu]; rfl
  have bit : (u.cmds c).cqBuf.p = (s.tc.allot (s.cmds c).qid).cqPhase (s.cmds c).qid := by
    rw [← hu, Fw.setCmd]
    dsimp only
    rw [Function.update_self]
    rfl
  rcases run_nvmeDmaXfer P .tx 0x55 (s.tc.cqSlot (s.cmds c).qid (s.tc.cqTail (s.cmds c).qid)) (.cqBuf c)
    nvmeTcCqEntrySize (some (.cqCb, c)) c u with ⟨block, slab, run, -, -⟩ | ⟨-, full⟩
  · rw [run] at ret
    cases ret
    exact ⟨_, rfl, rfl, tc, bit⟩
  · rw [descs] at full
    omega

end Posting

/-- Tail, head and phase count the postings and what the host consumed. -/
structure CqInv (q : QId) (s : Fw) (v : HostCq) : Prop where
  size : 2 ≤ s.tc.cqSize q ∧ s.tc.cqSize q < 2 ^ 16
  tail : s.tc.cqTail q = v.posted.length % s.tc.cqSize q
  head : s.tc.cqHead q = v.consumed % s.tc.cqSize q
  phase : s.tc.cqPhase q = (decide (0 < v.posted.length) && Ring.phase (s.tc.cqSize q) (v.posted.length - 1))
  ahead : v.consumed ≤ v.posted.length
  near : v.posted.length < v.consumed + s.tc.cqSize q
  inOrder : ∀ (j : Nat) w, v.posted[j]? = some w → w.1 = s.tc.cqSlot q j ∧ w.2.p = Ring.phase (s.tc.cqSize q) j

namespace CqInv

variable {P : Platform} {q : QId} {c : Slot} {s t : Fw} {v : HostCq}

theorem start (h : CqStart q s) (size : 2 ≤ s.tc.cqSize q) (word : s.tc.cqSize q < 2 ^ 16) : CqInv q s {} := by
  have zeros : s.tc.cqHead q = 0 ∧ s.tc.cqTail q = 0 ∧ s.tc.cqPhase q = false := by
    cases h with
    | created p s io => exact ⟨Function.update_self .., Function.update_self .., Function.update_self ..⟩
    | admin s adm head tail phase => exact ⟨head, tail, phase⟩
  obtain ⟨head, tail, phase⟩ := zeros
  refine ⟨⟨size, word⟩, ?_, ?_, ?_, le_rfl, ?_, fun j w e => nomatch e⟩
  · rw [tail]
    exact (Nat.zero_mod _).symm
  · rw [head]
    exact (Nat.zero_mod _).symm
  · rw [phase]
    rfl
  · change 0 < 0 + s.tc.cqSize q
    omega

theorem tail_lt (h : CqInv q s v) : s.tc.cqTail q < s.tc.cqSize q := by
  have := h.size
  rw [h.tail]
  exact Nat.mod_lt _ (by omega)

theorem slot_tail (h : CqInv q s v) : s.tc.cqSlot q (s.tc.cqTail q) = s.tc.cqSlot q v.posted.length := by
  rw [NvmeTcPriv.cqSlot, NvmeTcPriv.cqSlot, h.tail, Nat.mod_mod]

/-- The ring is full when all but one of its slots hold unconsumed entries. -/
theorem full_iff (h : CqInv q s v) : s.tc.cqFull q ↔ v.posted.length + 1 = v.consumed + s.tc.cqSize q := by
  obtain ⟨⟨size, word⟩, tail, head, -, ahead, near, -⟩ := h
  unfold NvmeTcPriv.cqFull
  rw [tail, head, Ring.next]
  constructor
  · intro same
    by_contra short
    exact Ring.position_ne (by omega) (by omega) same.symm
  · intro full
    rw [full, Nat.add_mod_right]

/-- The phase that the next posting carries. -/
theorem phase_next (h : CqInv q s v) :
    (s.tc.allot q).cqPhase q = Ring.phase (s.tc.cqSize q) v.posted.length := by
  unfold NvmeTcPriv.allot
  dsimp only
  have tail := h.tail
  have phase := h.phase
  rcases Nat.eq_zero_or_pos v.posted.length with none | some
  · rw [none] at tail phase
    rw [none, if_pos (tail.trans (Nat.zero_mod _)), Function.update_self, phase]
    have := h.size
    exact (Ring.phase_first (by omega)).symm
  · obtain ⟨n, count⟩ := Nat.exists_eq_succ_of_ne_zero (Nat.pos_iff_ne_zero.mp some)
    have before : s.tc.cqPhase q = Ring.phase (s.tc.cqSize q) n := by
      rw [phase, count]
      simp
    rw [count, Nat.succ_eq_add_one] at tail
    rw [count, Nat.succ_eq_add_one, Ring.phase_next, ← tail]
    split
    · rw [Function.update_self, before]
    · exact before

theorem same (h : CqInv q s v) (same : SameCq q s t) : CqInv q t v := by
  obtain ⟨size, tail, head, phase, ahead, near, inOrder⟩ := h
  have slot : t.tc.cqSlot q = s.tc.cqSlot q := by
    unfold NvmeTcPriv.cqSlot
    rw [same.base, same.size]
  refine ⟨?_, ?_, ?_, ?_, ahead, ?_, ?_⟩
  · rwa [same.size]
  · rwa [same.tail, same.size]
  · rwa [same.head, same.size]
  · rwa [same.phase, same.size]
  · rwa [same.size]
  · rwa [slot, same.size]

theorem consume (h : CqInv q s v) {k : Nat} (advance : v.consumed ≤ k) (posted : k ≤ v.posted.length)
    (doorbell : s.regs (doorbellHead q) % 2 ^ 16 = k % s.tc.cqSize q) (head : (nvmeTcHeadHandler q).run s = some ((), t)) :
    CqInv q t { v with consumed := k } := by
  simp only [nvmeTcHeadHandler, q.isLt, dite_true, Prog.run_change] at head
  cases head
  refine ⟨h.size, h.tail, ?_, h.phase, posted, ?_, h.inOrder⟩
  · exact (Function.update_self ..).trans doorbell
  · have near := h.near
    change v.posted.length < k + s.tc.cqSize q
    omega

theorem post (h : CqInv q s v) (queue : (s.cmds c).qid = q) (met : Postable P s q)
    (ret : (nvmeCmdReturn P c).run s = some ((), t)) : CqInv q t (v.post c t) := by
  obtain ⟨size, word⟩ := h.size
  by_cases full : s.tc.cqFull q
  · obtain ⟨none, tc⟩ := refused_of_full queue (by omega) full ret
    have view : v.post c t = v := by
      unfold HostCq.post
      rw [none]
    rw [view]
    exact h.same ⟨by rw [tc], by rw [tc], by rw [tc], by rw [tc], by rw [tc]⟩
  · obtain ⟨d, some', host, tc, bit⟩ := posted_of_postable queue h.tail_lt full met ret
    have view : v.post c t = { v with posted := v.posted ++ [(d.hostAddr, (t.cmds c).cqBuf)] } := by
      unfold HostCq.post
      rw [some']
    have more : v.posted.length + 1 < v.consumed + s.tc.cqSize q := by
      have := mt h.full_iff.mpr full
      have := h.near
      omega
    have slot : t.tc.cqSlot q = s.tc.cqSlot q := by
      rw [tc]
      rfl
    have tail : t.tc.cqTail q = (v.posted.length + 1) % s.tc.cqSize q := by
      have lt := Nat.mod_lt (v.posted.length + 1) (show 0 < s.tc.cqSize q by omega)
      rw [tc, NvmeTcPriv.allot]
      dsimp only
      rw [Function.update_self, h.tail, Ring.next]
      exact Nat.mod_eq_of_lt (by omega)
    rw [view]
    refine ⟨?_, ?_, ?_, ?_, ?_, ?_, ?_⟩
    · rw [tc]
      exact h.size
    · rw [List.length_append, List.length_singleton, tail, tc]
      rfl
    · rw [tc]
      exact h.head
    · rw [tc, h.phase_next]
      simp [NvmeTcPriv.allot]
    · have := h.ahead
      rw [List.length_append, List.length_singleton]
      dsimp only
      omega
    · rw [List.length_append, List.length_singleton, tc]
      exact more
    · intro j w e
      rw [slot, tc]
      rcases Nat.lt_or_ge j v.posted.length with before | after
      · rw [List.getElem?_append_left before] at e
        exact h.inOrder j w e
      · have lt := (List.getElem?_eq_some_iff.mp e).1
        rw [List.length_append, List.length_singleton] at lt
        obtain rfl : j = v.posted.length := by omega
        cases (List.getElem?_concat_length ..).symm.trans e
        exact ⟨host.trans h.slot_tail, bit.trans h.phase_next⟩

end CqInv

section Law

variable {P : Platform} {q : QId}

theorem CqRun.inv {s₀ s : Fw} {v : HostCq} (start : CqStart q s₀) (size : 2 ≤ s₀.tc.cqSize q)
    (word : s₀.tc.cqSize q < 2 ^ 16) (run : CqRun P (Postable P) q s₀ s v) : CqInv q s v := by
  induction run with
  | start => exact .start start size word
  | post c _ queue met ret ih => exact ih.post queue met ret
  | consume _ advance posted doorbell head ih => exact ih.consume advance posted doorbell head
  | other _ same ih => exact ih.same same

theorem slots_apart {size : Nat} (word : size < 2 ^ 16) (base : Nat) :
    ∀ i j, i < size → j < size → (base + i * nvmeTcCqEntrySize) % 2 ^ 64 = (base + j * nvmeTcCqEntrySize) % 2 ^ 64 →
      i = j := by
  intro i j hi hj same
  have cancelled : i * 16 ≡ j * 16 [MOD 2 ^ 64] := Nat.ModEq.add_left_cancel' base same
  clear same
  rw [Nat.ModEq, Nat.mod_eq_of_lt (by omega), Nat.mod_eq_of_lt (by omega)] at cancelled
  omega

theorem CqInv.law {s : Fw} {v : HostCq} (h : CqInv q s v) : CqLaw P (Postable P) q s v := by
  obtain ⟨size, word⟩ := h.size
  refine ⟨h.inOrder, fun c t queue met ret => ?_, fun c t d queue met ret accepted j w later here => ?_,
    fun m low high => ?_⟩
  · have near := h.near
    have behind := h.ahead
    have count : s.tc.cqFull q ↔ v.posted.length - v.consumed = s.tc.cqSize q - 1 := by
      rw [h.full_iff]
      omega
    by_cases full : s.tc.cqFull q
    · exact iff_of_true (refused_of_full queue (by omega) full ret).1 (count.mp full)
    · obtain ⟨d, some', -⟩ := posted_of_postable queue h.tail_lt full met ret
      exact iff_of_false (by rw [some']; exact fun e => nomatch e) (mt count.mpr full)
  · by_cases full : s.tc.cqFull q
    · rw [(refused_of_full queue (by omega) full ret).1] at accepted
      cases accepted
    · obtain ⟨d', some', host, -⟩ := posted_of_postable queue h.tail_lt full met ret
      cases some'.symm.trans accepted
      have lt := (List.getElem?_eq_some_iff.mp here).1
      have near := h.near
      rw [host, h.slot_tail, (h.inOrder j w here).1]
      intro same
      have pos : 0 < s.tc.cqSize q := by omega
      exact Ring.position_ne lt (by omega) (slots_apart word _ _ _ (Nat.mod_lt _ pos) (Nat.mod_lt _ pos) same)
  · have near := h.near
    have length : (v.posted.take m).length = m := by
      rw [List.length_take]
      omega
    have inOrder (j : Nat) (w : Nat × NvmeCqEntry) (e : (v.posted.take m)[j]? = some w) :
        w.1 = (s.tc.cqBase q + j % s.tc.cqSize q * nvmeTcCqEntrySize) % 2 ^ 64 ∧ w.2.p = Ring.phase (s.tc.cqSize q) j := by
      rw [List.getElem?_take] at e
      split at e
      · exact h.inOrder j w e
      · cases e
    obtain ⟨seen, entry⟩ := Ring.memory_scan ({} : NvmeCqEntry) (fun e => e.p) (slots_apart word (s.tc.cqBase q)) rfl inOrder
      (k := v.consumed) (by omega) (by omega)
    rw [length] at seen entry
    refine ⟨seen, fun lt => ?_⟩
    have := entry lt
    rwa [List.getElem?_take_of_lt lt] at this

/-- With an address other than zero and a descriptor for each posting that finds room, the ring of a
queue of 2 to 65535 entries keeps its law through any order of postings and head doorbells. -/
theorem cq_law (P : Platform) {q : QId} {s₀ s : Fw} {v : HostCq} (start : CqStart q s₀) (size : 2 ≤ s₀.tc.cqSize q)
    (word : s₀.tc.cqSize q ≤ 65535) (run : CqRun P (Postable P) q s₀ s v) : CqLaw P (Postable P) q s v :=
  (run.inv start size (by omega)).law

end Law

/-- A queue of two entries at `base`, and a command of that queue. -/
def twoEntries (base : BitVec 32) : Fw :=
  createCq { qid := admQueueId, sqBuf := Function.update (Function.update (fun _ => 0) 10 0x10001) 6 base } ioQueueId
    { cmds := fun _ => { qid := ioQueueId } }

theorem zeroBase_refused : ¬∀ q s₀ s v, CqStart q s₀ → 2 ≤ s₀.tc.cqSize q → s₀.tc.cqSize q ≤ 65535 →
    CqRun (board (2 ^ 12)) (fun _ _ => True) q s₀ s v → CqLaw (board (2 ^ 12)) (fun _ _ => True) q s v := by
  intro law
  have runs : ((nvmeCmdReturn (board (2 ^ 12)) 0).run (twoEntries 0)).map (fun r => decide (r.2.lastQueued = none)) =
      some true := by decide +kernel
  obtain ⟨⟨⟨⟩, t⟩, ret, none⟩ := Option.map_eq_some_iff.mp runs
  have fresh := law ioQueueId (twoEntries 0) _ _ (.created _ _ (by decide)) (by decide) (by decide) .start
  have full := (fresh.refused 0 t rfl trivial ret).mp (of_decide_eq_true none)
  revert full
  decide

theorem onePosting_law : ∃ s v, CqRun (board (2 ^ 12)) (Postable (board (2 ^ 12))) ioQueueId (twoEntries 0x1000) s v ∧
    v.posted.map (fun w => (w.1, w.2.p)) = [(0x1000, true)] ∧ CqLaw (board (2 ^ 12)) (Postable (board (2 ^ 12))) ioQueueId s v := by
  have runs : ((nvmeCmdReturn (board (2 ^ 12)) 0).run (twoEntries 0x1000)).map (fun r =>
      decide ((HostCq.post {} 0 r.2).posted.map (fun w => (w.1, w.2.p)) = [(0x1000, true)])) = some true := by
    decide +kernel
  obtain ⟨⟨⟨⟩, t⟩, ret, posted⟩ := Option.map_eq_some_iff.mp runs
  have run : CqRun (board (2 ^ 12)) (Postable (board (2 ^ 12))) ioQueueId (twoEntries 0x1000) t (HostCq.post {} 0 t) :=
    .post 0 .start rfl (by decide) ret
  exact ⟨t, _, run, of_decide_eq_true posted, cq_law _ (.created _ _ (by decide)) (by decide) (by decide) run⟩

end AlkaliFw
