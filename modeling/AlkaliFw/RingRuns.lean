import AlkaliFw.Identity
import AlkaliFw.RingLife

/-! The rings of the IO queues over whole runs. What the firmware does to the registers of a
queue is a life of its ring, which begins anew with each create command. Entries of a submission
ring are visited by the doorbell interrupt alone; those of a completion ring by two parties, of
which the thread must not be cut short between its accesses. -/

namespace AlkaliFw
open Resumption

def NvmeTcPriv.sqRingRow (tc : NvmeTcPriv) (q : QId) : Ring.Row := ⟨tc.sqBase q, tc.sqSize q, tc.sqHead q, tc.sqTail q⟩

def NvmeTcPriv.cqRingRow (tc : NvmeTcPriv) (q : QId) : Ring.Row := ⟨tc.cqBase q, tc.cqSize q, tc.cqTail q, tc.cqHead q⟩

/-- `cdw10.qsize`, a 0's based value. -/
def SqBuf.lastEntry (b : SqBuf) : Nat := b.cdw10 / 2 ^ 16

/-- The size is a word, the last slot has an address, and no doorbell in `bs` is out of the ring. -/
def SqBuf.Fits (b : SqBuf) (entrySize : Nat) (bs : List Nat) : Prop :=
  b.lastEntry < 65535 ∧ b.prp1 + b.lastEntry * entrySize < 2 ^ 64 ∧ ∀ v ∈ bs, v ≤ b.lastEntry

/-- A create command: its opcode, the row that it writes and its mark in the trace. -/
structure Creation where
  queue : QId
  opc : Nat
  entrySize : Nat
  row : NvmeTcPriv → Ring.Row
  mark : Obs
  create : NvmeCmdPriv → Fw → Fw

def sqCreation (q : QId) : Creation := ⟨q, 0x01, nvmeTcSqEntrySize, (·.sqRingRow q), .sqCreated q, (createSq · q)⟩

def cqCreation (q : QId) : Creation := ⟨q, 0x05, nvmeTcCqEntrySize, (·.cqRingRow q), .cqCreated q, (createCq · q)⟩

/-- The interrupt handler of the DMA engine passes through `s` in some run. -/
def Passed (P : Platform) (s : Fw) : Prop := ∃ S, Reachable P S ∧ s ∈ (nvmeDmaIrqHandler (callback P)).states S.fw

/-- The command in slot `c` is carried out in state `s`. -/
structure Creation.Executed (P : Platform) (C : Creation) (c : Slot) (s : Fw) : Prop where
  passed : Passed P s
  adm : (s.cmds c).qid = admQueueId
  opc : (s.cmds c).sqBuf.opc = C.opc
  queue : (s.cmds c).sqBuf.cdw10 % 2 ^ 16 = C.queue.val

/-- The ring in `t`, since the command in `c` created it in state `s`. -/
structure Creation.Since (P : Platform) (C : Creation) (c : Slot) (s t : Fw) (as bs : List Nat) : Prop where
  executed : C.Executed P c s
  last : ∃ new, t.trace = new ++ (C.create (s.cmds c) s).trace ∧ C.mark ∉ new
  life : Ring.Life C.entrySize (2 ^ 16) (2 ^ 64) (C.row (C.create (s.cmds c) s).tc) (C.row t.tc) as bs

/-- A ring that was created has a life since then. -/
def Creation.Lived (P : Platform) (C : Creation) (t : Fw) : Prop := C.mark ∈ t.trace → ∃ c s as bs, C.Since P c s t as bs

/-- The submission ring of `k + 1` slots at `base`, after the visits `as` and the tail doorbells `bs`. -/
structure SqRing (q : QId) (base k : Nat) (s : Fw) (as bs : List Nat) : Prop where
  law : Ring.Law nvmeTcSqEntrySize (2 ^ 64) base k (s.tc.sqRingRow q) as bs
  next : ∃ t, (nvmeTcGetSqAddr q).run s = some (base + s.tc.sqHead q * nvmeTcSqEntrySize, t) ∧
    t.tc.sqHead q = (s.tc.sqHead q + 1) % (k + 1)

/-- The completion ring, after the visits `as` and the head doorbells `bs`. -/
structure CqRing (q : QId) (base k : Nat) (s : Fw) (as bs : List Nat) : Prop where
  law : Ring.Law nvmeTcCqEntrySize (2 ^ 64) base k (s.tc.cqRingRow q) as bs
  next : ∃ t, (nvmeTcGetCqAddr q).run s =
      some (if s.tc.cqFull q then 0 else base + s.tc.cqTail q * nvmeTcCqEntrySize, t) ∧
    t.tc.cqTail q = if s.tc.cqFull q then s.tc.cqTail q else (s.tc.cqTail q + 1) % (k + 1)

section Rows

variable {q : QId} {p : NvmeCmdPriv} {b : SqBuf} {s t : Fw} {as bs : List Nat}

theorem sqRingRow_create : (createSq p q s).tc.sqRingRow q = ⟨p.sqBuf.prp1, (p.sqBuf.lastEntry + 1) % 2 ^ 16, 0, 0⟩ := by
  simp [NvmeTcPriv.sqRingRow, createSq, Fw.note, Fw.setTc, qsize, SqBuf.lastEntry]

theorem cqRingRow_create : (createCq p q s).tc.cqRingRow q = ⟨p.sqBuf.prp1, (p.sqBuf.lastEntry + 1) % 2 ^ 16, 0, 0⟩ := by
  simp [NvmeTcPriv.cqRingRow, createCq, Fw.note, Fw.setTc, qsize, SqBuf.lastEntry]

theorem word_iff : b.lastEntry + 1 < 2 ^ 16 ↔ b.lastEntry < 65535 := by omega

theorem sqRing_iff (life : Ring.Life nvmeTcSqEntrySize (2 ^ 16) (2 ^ 64) ⟨b.prp1, (b.lastEntry + 1) % 2 ^ 16, 0, 0⟩ (t.tc.sqRingRow q) as bs) :
    SqRing q b.prp1 b.lastEntry t as bs ↔ b.Fits nvmeTcSqEntrySize bs := by
  have law := life.law_iff (by decide) (by decide)
  rw [word_iff] at law
  refine ⟨fun ring => law.mp ring.law, fun fits => ⟨law.mpr fits, ?_⟩⟩
  have ring := law.mpr fits
  have base : t.tc.sqBase q = b.prp1 := ring.row.1
  have size : t.tc.sqSize q = b.lastEntry + 1 := ring.row.2
  have pos : t.tc.sqHead q ≤ b.lastEntry := ring.below.1
  have lt := Nat.mod_lt (t.tc.sqHead q + 1) (show 0 < b.lastEntry + 1 by omega)
  have word := fits.1
  refine ⟨(t.advanceSq q).2, ?_, ?_⟩
  · have exact' := ring.exact _ pos
    simp only [nvmeTcGetSqAddr, Prog.run_bind, Prog.run_look, Option.bind_some, size, Nat.succ_ne_zero, if_false, Prog.run_swap]
    rw [← exact', ← base]
    rfl
  · simp only [Fw.advanceSq, Fw.setTc, Function.update_self, size]
    exact Nat.mod_eq_of_lt (by omega)

theorem cqRing_iff (life : Ring.Life nvmeTcCqEntrySize (2 ^ 16) (2 ^ 64) ⟨b.prp1, (b.lastEntry + 1) % 2 ^ 16, 0, 0⟩ (t.tc.cqRingRow q) as bs) :
    CqRing q b.prp1 b.lastEntry t as bs ↔ b.Fits nvmeTcCqEntrySize bs := by
  have law := life.law_iff (by decide) (by decide)
  rw [word_iff] at law
  refine ⟨fun ring => law.mp ring.law, fun fits => ⟨law.mpr fits, ?_⟩⟩
  have ring := law.mpr fits
  have base : t.tc.cqBase q = b.prp1 := ring.row.1
  have size : t.tc.cqSize q = b.lastEntry + 1 := ring.row.2
  have pos : t.tc.cqTail q ≤ b.lastEntry := ring.below.1
  have lt := Nat.mod_lt (t.tc.cqTail q + 1) (show 0 < b.lastEntry + 1 by omega)
  have word := fits.1
  have run := run_nvmeTcGetCqAddr (q := q) (s := t) (by omega)
  by_cases full : t.tc.cqFull q
  · rw [if_pos full] at run
    exact ⟨t, by rw [run, if_pos full], by rw [if_pos full]⟩
  · rw [if_neg full, base, ring.exact _ pos] at run
    refine ⟨_, by rw [run, if_neg full], ?_⟩
    simp only [if_neg full, Fw.setTc, NvmeTcPriv.allot, Function.update_self, size]
    exact Nat.mod_eq_of_lt (by omega)

end Rows

section Steps

variable {P : Platform} {C : Creation} {q : QId} {c : Slot} {l : Access} {s t : Fw}

/-- No queue was created from `s` to `t`. -/
def Unmarked (s t : Fw) : Prop := ∃ new, t.trace = new ++ s.trace ∧ ∀ o ∈ new, ∀ q, o ≠ .sqCreated q ∧ o ≠ .cqCreated q

theorem Unmarked.same (trace : t.trace = s.trace) : Unmarked s t := ⟨[], trace, nofun⟩

theorem Unmarked.one {o : Obs} (trace : t.trace = o :: s.trace) (other : ∀ q, o ≠ .sqCreated q ∧ o ≠ .cqCreated q) : Unmarked s t := by
  refine ⟨[o], trace, fun x mem => ?_⟩
  rw [List.mem_singleton.mp mem]
  exact other

/-- What a step may do to a ring. -/
inductive Creation.Step (P : Platform) (C : Creation) (s t : Fw) : Prop where
  | same (row : C.row t.tc = C.row s.tc) (trace : ∃ new, t.trace = new ++ s.trace ∧ C.mark ∉ new)
  | visit (row : C.row t.tc = (C.row s.tc).next (2 ^ 16)) (trace : ∃ new, t.trace = new ++ s.trace ∧ C.mark ∉ new)
  | bell (v : Nat) (row : C.row t.tc = { C.row s.tc with bell := v }) (trace : ∃ new, t.trace = new ++ s.trace ∧ C.mark ∉ new)
  | created (c : Slot) (executed : C.Executed P c s) (state : t = C.create (s.cmds c) s)

theorem Creation.Lived.step (h : C.Lived P s) (step : C.Step P s t) : C.Lived P t := by
  have further {old : List Obs} (last : ∃ new, s.trace = new ++ old ∧ C.mark ∉ new)
      (trace : ∃ new, t.trace = new ++ s.trace ∧ C.mark ∉ new) : ∃ new, t.trace = new ++ old ∧ C.mark ∉ new := by
    obtain ⟨last, e, fresh⟩ := last
    obtain ⟨new, e', fresh'⟩ := trace
    refine ⟨new ++ last, by rw [e', e, List.append_assoc], fun mem => ?_⟩
    rcases List.mem_append.mp mem with h | h
    · exact fresh' h
    · exact fresh h
  have before (trace : ∃ new, t.trace = new ++ s.trace ∧ C.mark ∉ new) (mem : C.mark ∈ t.trace) : C.mark ∈ s.trace := by
    obtain ⟨new, e, fresh⟩ := trace
    rw [e] at mem
    exact (List.mem_append.mp mem).resolve_left fresh
  intro mem
  cases step with
  | same row trace =>
    obtain ⟨c, r, as, bs, executed, last, life⟩ := h (before trace mem)
    exact ⟨c, r, as, bs, executed, further last trace, row ▸ life⟩
  | visit row trace =>
    obtain ⟨c, r, as, bs, executed, last, life⟩ := h (before trace mem)
    exact ⟨c, r, _, bs, executed, further last trace, row ▸ life.visit⟩
  | bell v row trace =>
    obtain ⟨c, r, as, bs, executed, last, life⟩ := h (before trace mem)
    exact ⟨c, r, as, _, executed, further last trace, row ▸ life.bell v⟩
  | created c executed state => exact ⟨c, s, [], [], executed, ⟨[], state ▸ rfl, List.not_mem_nil⟩, state ▸ .start⟩

theorem Unmarked.sq (h : Unmarked s t) (q : QId) : ∃ new, t.trace = new ++ s.trace ∧ (sqCreation q).mark ∉ new := by
  obtain ⟨new, e, other⟩ := h
  exact ⟨new, e, fun mem => (other _ mem q).1 rfl⟩

theorem Unmarked.cq (h : Unmarked s t) (q : QId) : ∃ new, t.trace = new ++ s.trace ∧ (cqCreation q).mark ∉ new := by
  obtain ⟨new, e, other⟩ := h
  exact ⟨new, e, fun mem => (other _ mem q).2 rfl⟩

/-- The rings stay as they are. -/
structure SameRings (s t : Fw) : Prop where
  rows : ∀ q, t.tc.sqRingRow q = s.tc.sqRingRow q ∧ t.tc.cqRingRow q = s.tc.cqRingRow q
  trace : Unmarked s t

theorem SameRings.silent (rows : ∀ q, t.tc.sqRingRow q = s.tc.sqRingRow q ∧ t.tc.cqRingRow q = s.tc.cqRingRow q) (trace : t.trace = s.trace) :
    SameRings s t := ⟨rows, .same trace⟩

theorem SameRings.noted {o : Obs} (tc : t.tc = s.tc) (trace : t.trace = o :: s.trace) (other : ∀ q, o ≠ .sqCreated q ∧ o ≠ .cqCreated q) :
    SameRings s t := ⟨fun _ => tc ▸ ⟨rfl, rfl⟩, .one trace other⟩

theorem SameRings.sq (h : SameRings s t) : (sqCreation q).Step P s t := .same (h.rows q).1 (h.trace.sq q)

theorem SameRings.cq (h : SameRings s t) : (cqCreation q).Step P s t := .same (h.rows q).2 (h.trace.cq q)

/-- The updates that leave the rings alone. -/
inductive Deletion : (NvmeCmdPriv → QId → Fw → Fw) → Prop where
  | deleteSq : Deletion deleteSq
  | deleteCq : Deletion deleteCq

theorem CmdActs.sameRings (act : CmdActs P c Deletion l s t) : SameRings s t := by
  cases act with
  | queue update =>
    cases update with
    | deleteSq => exact .silent (fun _ => ⟨rfl, rfl⟩) rfl
    | deleteCq => exact .silent (fun _ => ⟨rfl, rfl⟩) rfl
  | noDescriptor => exact .noted rfl rfl fun _ => ⟨nofun, nofun⟩
  | put => exact .noted rfl rfl fun _ => ⟨nofun, nofun⟩
  | cmdFree => exact .noted rfl rfl fun _ => ⟨nofun, nofun⟩
  | lost => exact .noted rfl rfl fun _ => ⟨nofun, nofun⟩
  | prpAlloc => exact .noted rfl rfl fun _ => ⟨nofun, nofun⟩
  | noPrpBuffer => exact .noted rfl rfl fun _ => ⟨nofun, nofun⟩
  | prpFree => exact .noted rfl rfl fun _ => ⟨nofun, nofun⟩
  | sent => exact .noted rfl rfl fun _ => ⟨nofun, nofun⟩
  | buffer => exact .noted rfl rfl fun _ => ⟨nofun, nofun⟩
  | poolFree => exact .noted rfl rfl fun _ => ⟨nofun, nofun⟩
  | _ => exact .silent (fun _ => ⟨rfl, rfl⟩) rfl

theorem CmdActs.own (act : CmdActs P c Deletion l s t) : CmdAct P c l s t := by
  refine act.mono fun f deletion => ?_
  cases deletion with
  | deleteSq => exact .deleteSq
  | deleteCq => exact .deleteCq

theorem sameRings_get (ch : Chan) : SameRings s (s.get ch) := by
  unfold Fw.get
  split
  · exact .silent (fun _ => ⟨rfl, rfl⟩) rfl
  · exact .noted rfl rfl fun _ => ⟨nofun, nofun⟩

theorem Outside.sameRings (act : Outside P s t) : SameRings s t := by
  cases act with
  | done finish =>
    obtain ⟨d, -, ⟨host, ram, prpMem, cmds, rfl⟩, -⟩ := Fw.finished_of_finish finish
    exact .noted (o := .finished _ d) rfl rfl fun _ => ⟨nofun, nofun⟩
  | _ => exact .silent (fun _ => ⟨rfl, rfl⟩) rfl

theorem sameRings_cc : SameRings s s.ccHandler := by
  unfold Fw.ccHandler
  dsimp only
  split
  · exact .silent (fun _ => ⟨rfl, rfl⟩) rfl
  · split <;> exact .silent (fun _ => ⟨rfl, rfl⟩) rfl

theorem silent (trace : t.trace = s.trace) : ∃ new, t.trace = new ++ s.trace ∧ C.mark ∉ new := ⟨[], trace, nofun⟩

theorem TcAct.sq (io : q ≠ admQueueId) (act : TcAct l s t) : (sqCreation q).Step P s t := by
  cases act with
  | cc => exact sameRings_cc.sq
  | aqa =>
    refine .same ?_ (silent rfl)
    simp [sqCreation, NvmeTcPriv.sqRingRow, Fw.aqaHandler, Fw.setTc, Function.update_of_ne io]
  | asq =>
    refine .same ?_ (silent rfl)
    simp [sqCreation, NvmeTcPriv.sqRingRow, Fw.asqHandler, Fw.setTc, Function.update_of_ne io]
  | @tail q' v =>
    by_cases here : q' = q
    · subst here
      refine .bell v ?_ (silent rfl)
      simp [sqCreation, NvmeTcPriv.sqRingRow, Fw.setTc]
    · refine .same ?_ (silent rfl)
      simp [sqCreation, NvmeTcPriv.sqRingRow, Fw.setTc, Function.update_of_ne (Ne.symm here)]
  | _ => exact .same rfl (silent rfl)

theorem TcAct.cq (io : q ≠ admQueueId) (act : TcAct l s t) : (cqCreation q).Step P s t := by
  cases act with
  | cc => exact sameRings_cc.cq
  | aqa =>
    refine .same ?_ (silent rfl)
    simp [cqCreation, NvmeTcPriv.cqRingRow, Fw.aqaHandler, Fw.setTc, Function.update_of_ne io]
  | acq =>
    refine .same ?_ (silent rfl)
    simp [cqCreation, NvmeTcPriv.cqRingRow, Fw.acqHandler, Fw.setTc, Function.update_of_ne io]
  | @head q' v =>
    by_cases here : q' = q
    · subst here
      refine .bell v ?_ (silent rfl)
      simp [cqCreation, NvmeTcPriv.cqRingRow, Fw.setTc]
    · refine .same ?_ (silent rfl)
      simp [cqCreation, NvmeTcPriv.cqRingRow, Fw.setTc, Function.update_of_ne (Ne.symm here)]
  | _ => exact .same rfl (silent rfl)

theorem FetchAct.sq (act : FetchAct P l s t) : (sqCreation q).Step P s t := by
  cases act with
  | advance q' =>
    by_cases here : q' = q
    · subst here
      refine .visit ?_ (silent rfl)
      simp [sqCreation, NvmeTcPriv.sqRingRow, Fw.advanceSq, Fw.setTc, Ring.Row.next]
    · refine .same ?_ (silent rfl)
      simp [sqCreation, NvmeTcPriv.sqRingRow, Fw.advanceSq, Fw.setTc, Function.update_of_ne (Ne.symm here)]
  | look => exact .same rfl (silent rfl)
  | fill => exact .same rfl (silent rfl)
  | cmdAlloc q' => exact SameRings.sq (.noted (o := .cmdAlloc _ q') rfl rfl fun _ => by simp)
  | skipped q' => exact SameRings.sq (.noted (o := .skipped q') rfl rfl fun _ => by simp)
  | noDescriptor c => exact SameRings.sq (.noted (o := .noDescriptor c) rfl rfl fun _ => by simp)
  | fetch => exact SameRings.sq (.noted (o := .queued .rx _ _) rfl rfl fun _ => by simp)
  | lost c why => exact SameRings.sq (.noted (o := .lost c why) rfl rfl fun _ => by simp)

theorem FetchAct.cq (act : FetchAct P l s t) : (cqCreation q).Step P s t := by
  cases act with
  | look => exact .same rfl (silent rfl)
  | advance => exact .same rfl (silent rfl)
  | fill => exact .same rfl (silent rfl)
  | cmdAlloc q' => exact SameRings.cq (.noted (o := .cmdAlloc _ q') rfl rfl fun _ => by simp)
  | skipped q' => exact SameRings.cq (.noted (o := .skipped q') rfl rfl fun _ => by simp)
  | noDescriptor c => exact SameRings.cq (.noted (o := .noDescriptor c) rfl rfl fun _ => by simp)
  | fetch => exact SameRings.cq (.noted (o := .queued .rx _ _) rfl rfl fun _ => by simp)
  | lost c why => exact SameRings.cq (.noted (o := .lost c why) rfl rfl fun _ => by simp)

end Steps

section Rings

variable {P : Platform} {q : QId} {c : Slot} {l : Access} {s t u : Fw}

/-- Both rings of the queue live. -/
structure Rings (P : Platform) (q : QId) (s : Fw) : Prop where
  sq : (sqCreation q).Lived P s
  cq : (cqCreation q).Lived P s
  fit : Fitted s

theorem Rings.step (h : Rings P q s) (sq : (sqCreation q).Step P s t) (cq : (cqCreation q).Step P s t) (fit : Fitted t) : Rings P q t :=
  ⟨h.sq.step sq, h.cq.step cq, fit⟩

theorem Rings.same (h : Rings P q s) (same : SameRings s t) (fit : Fitted t) : Rings P q t := h.step same.sq same.cq fit

/-- Base, size and tail of a completion ring. -/
def NvmeTcPriv.cqSlots (tc : NvmeTcPriv) (q : QId) : Nat × Nat × Nat := (tc.cqBase q, tc.cqSize q, tc.cqTail q)

/-- What others may do before an access: the rings live on, and no slot is taken between the accesses of one allotment. -/
structure RingApart (P : Platform) (q : QId) (l : Access) (s t : Fw) : Prop where
  lives : Rings P q s → Rings P q t
  alone : l = .ring q → t.tc.cqSlots q = s.tc.cqSlots q

theorem RingApart.refl (s : Fw) : RingApart P q l s s := ⟨id, fun _ => rfl⟩

theorem RingApart.trans (h : RingApart P q l s t) (h' : RingApart P q l t u) : RingApart P q l s u where
  lives hs := h'.lives (h.lives hs)
  alone own := (h'.alone own).trans (h.alone own)

/-- Code that lets others act and keeps the rings alive. -/
abbrev Preserving {α : Type} (P : Platform) (q : QId) (p : Code α) (s : Fw) : Prop :=
  p.Safe (RingApart P q) (fun _ => Rings P q) (fun _ => Rings P q) s

theorem Preserving.run {p : Code Unit} (h : Preserving P q p s) (run : p.run s = some ((), t)) : Rings P q t := by
  have alone : p.Safe Prog.Quiet (fun _ _ => True) (fun _ => Rings P q) s := by
    refine Prog.Safe.weaken h (fun l u v e => ?_) fun _ _ _ => trivial
    cases e
    exact .refl u
  exact (Prog.safe_quiet_iff p s).mp alone () t run

/-- Between the accesses of an allotment in `q'`: what it has read is still so. -/
structure Allotting (P : Platform) (q q' : QId) (known : Nat × Nat × Nat → Prop) (s : Fw) : Prop where
  rings : Rings P q s
  read : q' = q → known (s.tc.cqSlots q')

theorem stable_rings (l : Access) : Prog.Stable (RingApart P q) (fun _ => Rings P q) l (Rings P q) :=
  ⟨fun _ _ h r => r.lives h, fun _ h => h⟩

theorem stable_allotting (q' : QId) (known : Nat × Nat × Nat → Prop) :
    Prog.Stable (RingApart P q) (fun _ => Rings P q) (.ring q') (Allotting P q q' known) := by
  refine ⟨fun u v h r => ⟨r.lives h.rings, ?_⟩, fun u h => h.rings⟩
  rintro rfl
  rw [r.alone rfl]
  exact h.read rfl

/-- One more fact is read. -/
theorem Allotting.more {q' : QId} {known : Nat × Nat × Nat → Prop} (h : Allotting P q q' known s) (more : Nat × Nat × Nat → Prop) (fact : more (s.tc.cqSlots q')) :
    Allotting P q q' (fun r => known r ∧ more r) s := ⟨h.rings, fun own => ⟨h.read own, fact⟩⟩

theorem Allotting.flip {q' : QId} {known : Nat × Nat × Nat → Prop} (h : Allotting P q q' known s) (phase : QId → Bool) :
    Allotting P q q' known (s.setTc fun tc => { tc with cqPhase := phase }) :=
  ⟨h.rings.same (.silent (fun _ => ⟨rfl, rfl⟩) rfl) h.rings.fit, h.read⟩

/-- The answer of an allotment in `q'` is the slot that the ring of `q` visits, or nothing. -/
def Allotted (P : Platform) (q q' : QId) (a : Nat) (s : Fw) : Prop :=
  Rings P q s ∧ (q' = q → a ≠ 0 → .cqCreated q ∈ s.trace → ∃ c r as bs, (cqCreation q).Since P c r s (a :: as) bs)

theorem Allotting.taken {q' : QId} {tail size base index : Nat}
    (h : Allotting P q q' (fun r => (((r.2.2 = tail) ∧ r.2.1 = size) ∧ r.1 = base) ∧ r.2.2 = index) s) :
    Allotted P q q' ((base + index * nvmeTcCqEntrySize) % 2 ^ 64)
      (s.setTc fun tc => { tc with cqTail := Function.update tc.cqTail q' ((tail + 1) % size % 2 ^ 16) }) := by
  by_cases own : q' = q
  · obtain ⟨⟨⟨tailEq, sizeEq⟩, baseEq⟩, indexEq⟩ := h.read own
    subst own
    have tailEq : s.tc.cqTail q' = tail := tailEq
    have sizeEq : s.tc.cqSize q' = size := sizeEq
    have baseEq : s.tc.cqBase q' = base := baseEq
    have indexEq : s.tc.cqTail q' = index := indexEq
    have row : (cqCreation q').row (s.setTc fun tc => { tc with cqTail := Function.update tc.cqTail q' ((tail + 1) % size % 2 ^ 16) }).tc =
        ((cqCreation q').row s.tc).next (2 ^ 16) := by
      simp [cqCreation, NvmeTcPriv.cqRingRow, Fw.setTc, Ring.Row.next, tailEq, sizeEq]
    refine ⟨h.rings.step (.same rfl (silent rfl)) (.visit row (silent rfl)) h.rings.fit, fun _ _ mem => ?_⟩
    obtain ⟨c, r, as, bs, executed, last, life⟩ := h.rings.cq mem
    have slot : ((cqCreation q').row s.tc).slot (cqCreation q').entrySize (2 ^ 64) = (base + index * nvmeTcCqEntrySize) % 2 ^ 64 := by
      simp [cqCreation, NvmeTcPriv.cqRingRow, Ring.Row.slot, baseEq, indexEq]
    exact ⟨c, r, as, bs, executed, last, row ▸ slot ▸ life.visit⟩
  · refine ⟨h.rings.step (.same rfl (silent rfl)) (.same ?_ (silent rfl)) h.rings.fit, fun same => absurd same own⟩
    simp [cqCreation, NvmeTcPriv.cqRingRow, Fw.setTc, Function.update_of_ne (Ne.symm own)]

theorem allots_nvmeTcGetCqAddr (q' : QId) (h : Rings P q s) :
    (nvmeTcGetCqAddr q').Safe (RingApart P q) (fun _ => Rings P q) (Allotted P q q') s := by
  refine Prog.safe_bind (Prog.safe_look (stable_rings _) h fun s hs => ?_)
  have start : Allotting P q q' (fun r => r.2.2 = s.tc.cqTail q') s := ⟨hs, fun _ => rfl⟩
  generalize s.tc.cqTail q' = tail at start ⊢
  refine Prog.safe_bind (Prog.safe_look (stable_allotting q' _) start fun s hs => ?_)
  have start := hs.more (fun r => r.2.1 = s.tc.cqSize q') rfl
  generalize s.tc.cqSize q' = size at start ⊢
  have last {s : Fw} (hs : Allotting P q q' (fun r => r.2.2 = tail ∧ r.2.1 = size) s) : (do
      let base ← .look (.ring q') fun s => s.tc.cqBase q'
      let index ← .look (.ring q') fun s => s.tc.cqTail q'
      .change (.ring q') (·.setTc fun tc => { tc with cqTail := Function.update tc.cqTail q' ((tail + 1) % size % 2 ^ 16) })
      pure ((base + index * nvmeTcCqEntrySize) % 2 ^ 64) : Code Nat).Safe (RingApart P q) (fun _ => Rings P q) (Allotted P q q') s := by
    refine Prog.safe_bind (Prog.safe_look (stable_allotting q' _) hs fun s hs => ?_)
    have known := hs.more (fun r => r.1 = s.tc.cqBase q') rfl
    refine Prog.safe_bind (Prog.safe_look (stable_allotting q' _) known fun s hs => ?_)
    have known := hs.more (fun r => r.2.2 = s.tc.cqTail q') rfl
    exact Prog.safe_bind (Prog.safe_change (stable_allotting q' _) known fun s hs => Prog.safe_pure hs.taken)
  refine Prog.safe_ite (fun _ => Prog.safe_stuck) fun _ => Prog.safe_bind (Prog.safe_look (stable_allotting q' _) start fun s hs => ?_)
  refine Prog.safe_ite (fun _ => ?_) fun _ => Prog.safe_pure ⟨hs.rings, fun _ none => absurd rfl none⟩
  refine Prog.safe_bind (Prog.safe_look (stable_allotting q' _) hs fun s hs => ?_)
  refine Prog.safe_bind (Prog.safe_when (fun _ => ?_) fun _ => last hs)
  refine Prog.safe_bind (Prog.safe_look (stable_allotting q' _) hs fun s hs => ?_)
  exact Prog.safe_change (stable_allotting q' _) hs fun s hs => last (hs.flip _)

/-- Past the allotment a return does not touch a ring. -/
def Ringless (P : Platform) (c : Slot) (l : Access) (s t : Fw) : Prop := FineAct P c l s t ∧ SameRings s t

theorem preserving_nvmeCmdReturn (h : Rings P q s) : Preserving P q (nvmeCmdReturn P c) s := by
  refine Prog.safe_bind (Prog.safe_look (stable_rings _) h fun s hs => Prog.safe_bind ?_)
  refine (allots_nvmeTcGetCqAddr _ hs).imp fun a u allotted => ?_
  refine Prog.Acts.safe (G := Fitted) (R := Ringless P c) ?_ (fun _ hu => hu.fit) (fun _ u v act hu => ?_)
    (fun _ _ _ r => r.lives) (fun _ _ _ _ hu => hu) allotted.1
  · have look (l : Access) (s : Fw) : Ringless P c l s s := ⟨.look l s, .silent (fun _ => ⟨rfl, rfl⟩) rfl⟩
    have lost (why : Loss) (s : Fw) : Ringless P c .other s (s.note (.lost c why)) :=
      ⟨.own (.lost why s), .noted rfl rfl fun _ => ⟨nofun, nofun⟩⟩
    refine Prog.acts_ite (fun _ => Prog.acts_change (lost _)) fun _ => Prog.acts_look_bind (look _) fun _ _ => ?_
    refine Prog.acts_bind (Prog.acts_change fun s => ⟨.own (.cmd s ?_), .silent (fun _ => ⟨rfl, rfl⟩) rfl⟩) fun _ =>
      Prog.acts_bind ?_ fun ok => Prog.acts_when fun _ => Prog.acts_change (lost _)
    · exact ⟨fun _ => rfl, fun _ => rfl, fun _ => rfl, fun _ => ⟨rfl, rfl, rfl⟩, fun _ h => ⟨h.len, h.cb⟩⟩
    · exact (over_nvmeDmaXfer P c (C := fun _ => False) _ _ _ _ _ _
        (fun _ _ _ alloc => ⟨.own (.fill alloc), .silent (fun _ => ⟨rfl, rfl⟩) rfl⟩)
        (fun s => ⟨.own (.noDescriptor s), .noted rfl rfl fun _ => ⟨nofun, nofun⟩⟩) fun s block q =>
        ⟨.entry s rfl rfl rfl, .noted rfl rfl fun _ => ⟨nofun, nofun⟩⟩).acts (fun _ _ _ h => h) fun _ => False.elim
  · exact hu.same act.2 (fitted_closed.fine c _ _ _ act.1 hu.fit)

theorem Rings.act (h : Rings P q s) (act : CmdActs P c Deletion l s t) : Rings P q t :=
  h.same act.sameRings (fitted_closed.fine c _ _ _ (.own act.own) h.fit)

/-- Code that creates no queue. -/
theorem MadeOf.preserving {p : Code Unit} (made : MadeOf P c Deletion p) (h : Rings P q s) : Preserving P q p s := by
  refine Prog.Over.safe made (fun _ hs => hs.fit) (fun l u v act hu => hu.act act) (fun _ _ _ r => r.lives) (fun _ _ _ _ hu => hu) ?_ h
  rintro _ rfl s hs
  exact preserving_nvmeCmdReturn hs

theorem Rings.createSq {q' : QId} (h : Rings P q s) (passed : Passed P s) (adm : (s.cmds c).qid = admQueueId) (opc : (s.cmds c).sqBuf.opc = 0x01)
    (queue : (s.cmds c).sqBuf.cdw10 % 2 ^ 16 = q'.val) : Rings P q (createSq (s.cmds c) q' s) := by
  by_cases here : q' = q
  · subst here
    exact h.step (.created c ⟨passed, adm, opc, queue⟩ rfl) (.same rfl ⟨[.sqCreated q'], rfl, fun mem => nomatch List.mem_singleton.mp mem⟩) h.fit
  · refine h.step (.same ?_ ⟨[.sqCreated q'], rfl, fun mem => here ?_⟩)
      (.same rfl ⟨[.sqCreated q'], rfl, fun mem => nomatch List.mem_singleton.mp mem⟩) h.fit
    · simp [sqCreation, NvmeTcPriv.sqRingRow, AlkaliFw.createSq, Fw.note, Fw.setTc, Function.update_of_ne (Ne.symm here)]
    · cases List.mem_singleton.mp mem
      rfl

theorem Rings.createCq {q' : QId} (h : Rings P q s) (passed : Passed P s) (adm : (s.cmds c).qid = admQueueId) (opc : (s.cmds c).sqBuf.opc = 0x05)
    (queue : (s.cmds c).sqBuf.cdw10 % 2 ^ 16 = q'.val) : Rings P q (createCq (s.cmds c) q' s) := by
  by_cases here : q' = q
  · subst here
    exact h.step (.same rfl ⟨[.cqCreated q'], rfl, fun mem => nomatch List.mem_singleton.mp mem⟩) (.created c ⟨passed, adm, opc, queue⟩ rfl) h.fit
  · refine h.step (.same rfl ⟨[.cqCreated q'], rfl, fun mem => nomatch List.mem_singleton.mp mem⟩)
      (.same ?_ ⟨[.cqCreated q'], rfl, fun mem => here ?_⟩) h.fit
    · simp [cqCreation, NvmeTcPriv.cqRingRow, AlkaliFw.createCq, Fw.note, Fw.setTc, Function.update_of_ne (Ne.symm here)]
    · cases List.mem_singleton.mp mem
      rfl

theorem Rings.queueCommand {update : NvmeCmdPriv → QId → Fw → Fw} (h : Rings P q s)
    (updated : ∀ q', (s.cmds c).sqBuf.cdw10 % 2 ^ 16 = q'.val → Rings P q (update (s.cmds c) q' s))
    (run : (queueCommand P c update).run s = some ((), t)) : Rings P q t := by
  simp only [AlkaliFw.queueCommand, Prog.run_bind, ofCmd, Prog.run_look, Option.bind_some, id] at run
  split at run
  · exact (preserving_nvmeCmdReturn h).run run
  · split at run
    · exact (preserving_nvmeCmdReturn (updated _ rfl)).run run
    · cases run

/-- A handler that creates a queue does so in the state in which it is dispatched. -/
theorem rings_dispatch (h : Rings P q s) (passed : Passed P s) (run : (dispatch P c).run s = some ((), t)) : Rings P q t := by
  have other {p : Code Unit} (made : MadeOf P c Deletion p) (run : p.run s = some ((), t)) : Rings P q t := (made.preserving h).run run
  simp only [dispatch, Prog.run_bind, ofCmd, Prog.run_look, Option.bind_some] at run
  split at run
  · rename_i adm
    simp only [handleAdm, Prog.run_bind, ofCmd, Prog.run_look, Option.bind_some] at run
    split at run
    · exact other (made_nvmeCmdAdmGetLog P c) run
    · exact other (made_nvmeCmdAdmIdentify P c) run
    · exact other (made_nvmeCmdAdmSetFeatures P c) run
    · rename_i opc
      exact h.queueCommand (fun q' queue => h.createSq passed adm opc queue) run
    · rename_i opc
      exact h.queueCommand (fun q' queue => h.createCq passed adm opc queue) run
    · exact other (made_queueCommand P c .deleteSq) run
    · exact other (made_queueCommand P c .deleteCq) run
    · exact other (made_nvmeCmdVendor P c false) run
    · exact other (made_nvmeCmdVendor P c true) run
    · exact other (Prog.over_ite (fun _ => made_nvmeCmdVendor P c false) fun _ => made_nvmeCmdReturn P c) run
  · exact other (made_handleIo P c) run

/-- The DMA handler, outside of the returns and of the dispatch of new commands. -/
theorem over_dmaIrq {R : Access → Fw → Fw → Prop} (status : ∀ ch s, R .other s (s.setCh ch fun c => { c with valid := false }))
    (get : ∀ ch s, R .other s (s.get ch)) (descFree : ∀ b s, R .other s (Fw.note { s with descSlab := s.descSlab.free b } (.descFree b)))
    (restart : ∀ ch s, R .other s (s.restart ch)) (handled : ∀ c s, R (.cmd c) s (s.handled c))
    (act : ∀ c l s t, CmdActs P c Deletion l s t → R l s t) :
    (nvmeDmaIrqHandler (callback P)).Over Fitted R fun p => ∃ c, p = nvmeCmdReturn P c ∨ p = dispatch P c := by
  refine over_nvmeDmaIrqHandler status get descFree restart fun cb c loc => ?_
  by_cases handler : cb = .nvmeCmdHandler
  · rw [handler]
    exact Prog.over_bind (Prog.over_change fun s => handled c s) fun _ => Prog.over_call ⟨c, .inr rfl⟩
  · exact Prog.Over.imp (made_callback (U := Deletion) P c handler loc) (act c) fun _ ret => ⟨c, .inl ret⟩

/-- An action of the DMA handler, outside of a return and of the dispatch of a new command. -/
def Upkeep (_ : Access) (s t : Fw) : Prop := SameRings s t ∧ (Fitted s → Fitted t)

theorem over_upkeep : (nvmeDmaIrqHandler (callback P)).Over Fitted Upkeep fun p => ∃ c, p = nvmeCmdReturn P c ∨ p = dispatch P c := by
  refine over_dmaIrq (fun ch s => ⟨.silent (fun _ => ⟨rfl, rfl⟩) rfl, id⟩) (fun ch s => ⟨sameRings_get ch, fitted_closed.get (P := P) ch s⟩)
    (fun b s => ⟨.noted rfl rfl fun _ => ⟨nofun, nofun⟩, id⟩) (fun ch s => ⟨.silent (fun _ => ⟨rfl, rfl⟩) rfl, id⟩)
    (fun c s => ⟨?_, fitted_closed.handled (P := P) c s⟩) fun c l s t act => ⟨act.sameRings, fitted_closed.fine c _ _ _ (.own act.own)⟩
  exact .noted (o := .handled c _ _) rfl rfl fun _ => ⟨nofun, nofun⟩

theorem rings_dmaIrq {S : Sys} (reach : Reachable P S) (h : Rings P q S.fw)
    (run : (nvmeDmaIrqHandler (callback P)).run S.fw = some ((), t)) : Rings P q t := by
  refine over_upkeep.run_states (V := Passed P) (fun _ hs => hs.fit) (fun _ u v act hu => hu.same act.1 (act.2 hu.fit)) ?_
    (fun u passed => ⟨S, reach, passed⟩) h run
  rintro _ u v ⟨c, rfl | rfl⟩ run passed hu
  · exact (preserving_nvmeCmdReturn hu).run run
  · exact rings_dispatch hu passed run

end Rings

section Runs

variable {P : Platform} {q : QId} {l : Access} {s t : Fw} {S T : Sys} {e : Event}

/-- A DMA interrupt that comes between the thread's accesses to the completion ring of `q` takes no slot of it. -/
def Unbroken (P : Platform) (q : QId) (S : Sys) (e : Event) : Prop :=
  e = .dmaIrq → S.call.bind Call.label = some (.ring q) → ∀ T, S.step P e = some T → T.fw.tc.cqSlots q = S.fw.tc.cqSlots q

theorem TcAct.cqSlots (io : q ≠ admQueueId) (act : TcAct l s t) : t.tc.cqSlots q = s.tc.cqSlots q := by
  cases act with
  | cc =>
    unfold Fw.ccHandler
    dsimp only
    split
    · rfl
    · split <;> rfl
  | aqa => simp [NvmeTcPriv.cqSlots, Fw.aqaHandler, Fw.setTc, Function.update_of_ne io]
  | acq => simp [NvmeTcPriv.cqSlots, Fw.acqHandler, Fw.setTc, Function.update_of_ne io]
  | _ => rfl

theorem FetchAct.cqSlots (act : FetchAct P l s t) : t.tc.cqSlots q = s.tc.cqSlots q := by
  cases act <;> rfl

theorem Outside.cqSlots (act : Outside P s t) : t.tc.cqSlots q = s.tc.cqSlots q := by
  cases act with
  | done finish =>
    obtain ⟨d, -, ⟨host, ram, prpMem, cmds, rfl⟩, -⟩ := Fw.finished_of_finish finish
    rfl
  | _ => rfl

theorem Outside.rings (act : Outside P s t) (h : Rings P q s) : Rings P q t :=
  h.same act.sameRings (fitted_closed.outside s t act h.fit)

/-- What the others do beside the thread; only the DMA interrupt may take a slot. -/
theorem rings_env (io : q ≠ admQueueId) (reach : Reachable P S) (h : Rings P q S.fw) (env : S.fw.env P e = some t) :
    Rings P q t ∧ (e ≠ .dmaIrq → t.tc.cqSlots q = S.fw.tc.cqSlots q) := by
  have outside (act : Outside P S.fw t) : Rings P q t ∧ (e ≠ .dmaIrq → t.tc.cqSlots q = S.fw.tc.cqSlots q) :=
    ⟨act.rings h, fun _ => act.cqSlots⟩
  cases e with
  | hostWrite reg value =>
    cases env
    exact outside (.hostWrite reg value S.fw)
  | hostStore addr bytes =>
    cases env
    exact outside (.hostStore addr bytes S.fw)
  | apuStore addr bytes =>
    cases env
    exact outside (.apuStore addr bytes S.fw)
  | dmaDone ch => exact outside (.done env)
  | tcIrq =>
    obtain ⟨⟨⟨⟩, _⟩, run, rfl⟩ := Option.map_eq_some_iff.mp env
    have both := Prog.Over.run (I := fun u => Rings P q u ∧ u.tc.cqSlots q = S.fw.tc.cqSlots q) (made_nvmeTcIrqHandler P)
      (fun _ hu => hu.1.fit) (fun l u v act hu => ?_) ?_ ⟨h, rfl⟩ run
    · exact ⟨both.1, fun _ => both.2⟩
    · exact ⟨hu.1.step (act.sq io) (act.cq io) (fitted_closed.tc (P := P) l u v act hu.1.fit), (act.cqSlots io).trans hu.2⟩
    · rintro _ u v ⟨q', rfl⟩ fetch hu
      refine (acts_nvmeTcFetch P q').run (I := fun u => Rings P q u ∧ u.tc.cqSlots q = S.fw.tc.cqSlots q) (fun _ hu => hu.1.fit)
        (fun l u v act hu => ?_) hu fetch
      exact ⟨hu.1.step act.sq act.cq (fitted_closed.fetch l u v act hu.1.fit), act.cqSlots.trans hu.2⟩
  | dmaIrq =>
    obtain ⟨⟨⟨⟩, _⟩, run, rfl⟩ := Option.map_eq_some_iff.mp env
    exact ⟨rings_dmaIrq reach h run, fun other => absurd rfl other⟩
  | reply i withData => cases env
  | poll => cases env

/-- The rings live, whatever is left of a call. -/
structure Sys.Living (P : Platform) (q : QId) (S : Sys) : Prop where
  rings : Rings P q S.fw
  call : ∀ call ∈ S.call, Preserving P q call.rest S.fw

theorem Sys.Living.goesOn {call : Call} {rest : Code Unit} (next : call.next l rest = some T.call) (preserving : Preserving P q rest T.fw) :
    T.Living P q := by
  rcases Call.next_rest next with ⟨none, a, rfl⟩ | ⟨call', some', -, -, rfl⟩
  · exact ⟨preserving, fun call' here => by rw [none] at here; cases here⟩
  · refine ⟨?_, fun call'' here => ?_⟩
    · cases e : call'.rest with
      | pure a =>
        rw [e] at preserving
        exact preserving
      | act m f k =>
        rw [e] at preserving
        exact (Prog.Safe.here (R := RingApart P q) (RingApart.refl _) preserving).1
      | stuck =>
        rw [e] at next
        cases next
    · rw [some'] at here
      cases here
      exact preserving

theorem Sys.Living.step (io : q ≠ admQueueId) (reach : Reachable P S) (h : S.Living P q) (unbroken : Unbroken P q S e)
    (step : S.step P e = some T) : T.Living P q := by
  rcases Sys.step_cases step with ⟨fw, env, rfl⟩ | ⟨i, withData, -, start⟩ | ⟨-, poll⟩
  · have next := rings_env io reach h.rings env
    refine ⟨next.1, fun call here => ?_⟩
    have preserving := h.call call here
    cases rest : call.rest with
    | pure a => exact next.1
    | stuck => trivial
    | act l f k =>
      rw [rest] at preserving
      refine Prog.Safe.before (fun _ _ _ => RingApart.trans) preserving ⟨fun _ => next.1, fun own => ?_⟩
      by_cases irq : e = .dmaIrq
      · refine unbroken irq ?_ _ step
        rw [here, Option.bind_some, Call.label, rest, own]
      · exact next.2 irq
  · unfold Sys.startCall at start
    split at start
    · rename_i m idle request
      obtain ⟨next, first, rfl⟩ := Option.map_eq_some_iff.mp start
      have act : Outside P S.fw { S.fw with apu := S.fw.apu.eraseIdx i } := .reply i S.fw
      exact .goesOn first ((made_rpmsgEndpointCb P _).preserving (act.rings h.rings))
    · cases start
  · obtain ⟨call, l, f, k, here, rest, fw, next⟩ := Sys.pollStep_act poll
    have preserving := h.call call here
    rw [rest] at preserving
    refine .goesOn next ?_
    rw [fw]
    exact (Prog.Safe.here (R := RingApart P q) (RingApart.refl _) preserving).2

theorem Run.reachable {ok : Sys → Event → Prop} {host ram : Nat → UInt8} (run : Run P ok (Sys.boot host ram) S) : Reachable P S := by
  refine ⟨host, ram, ?_⟩
  induction run with
  | refl => exact .refl _
  | step e _ _ next ih => exact .step e ih trivial next

theorem Run.living (io : q ≠ admQueueId) {host ram : Nat → UInt8} (run : Run P (Unbroken P q) (Sys.boot host ram) S) : S.Living P q := by
  induction run with
  | refl => exact ⟨⟨nofun, nofun, fitted_boot host ram⟩, nofun⟩
  | step e before met next ih => exact ih.step io before.reachable met next

end Runs

def Obs.createdSq? : Obs → Option QId
  | .sqCreated q => some q
  | _ => none

def Obs.createdCq? : Obs → Option QId
  | .cqCreated q => some q
  | _ => none

theorem mem_sqCreated {q : QId} {trace : List Obs} (h : q ∈ trace.filterMap Obs.createdSq?) : .sqCreated q ∈ trace := by
  obtain ⟨o, mem, created⟩ := List.mem_filterMap.mp h
  cases o with
  | sqCreated q' =>
    cases created
    exact mem
  | _ => cases created

theorem mem_cqCreated {q : QId} {trace : List Obs} (h : q ∈ trace.filterMap Obs.createdCq?) : .cqCreated q ∈ trace := by
  obtain ⟨o, mem, created⟩ := List.mem_filterMap.mp h
  cases o with
  | cqCreated q' =>
    cases created
    exact mem
  | _ => cases created

end AlkaliFw
