import AlkaliFw.Cmd
import AlkaliFw.Prp

/-! What the data path hands to the DMA engine. A run of `transfer_chunk` submits one chunk
and moves the transfer on by its length; the walk over a PRP list is a sequence of those,
and ends with the request for the next list or with the release of the list buffer. -/

namespace AlkaliFw
open Resumption Prp

structure DataChunk where
  ch : Chan
  host : Nat
  addr : Nat
  len : Nat
  callback : Option (Cb × Slot)
  deriving DecidableEq

/-- A request for `len` bytes of a PRP list, into a block of `prp_slab`. -/
structure ListFetch where
  host : Nat
  block : Nat
  len : Nat
  deriving DecidableEq

namespace Obs

def dataChunk? (c : Slot) : Obs → Option DataChunk
  | .queued ch ⟨callback, host, .ram addr, len, _, _, owner, _⟩ _ =>
    if owner = c then some ⟨ch, host, addr, len, callback⟩ else none
  | _ => none

def listFetch? (c : Slot) : Obs → Option ListFetch
  | .queued .rx ⟨some (.prpCb, d), host, .prp block, len, _, _, owner, _⟩ _ =>
    if d = c ∧ owner = c then some ⟨host, block, len⟩ else none
  | _ => none

/-- Submissions for `c`, and allocations that failed for it. -/
def about (c : Slot) : Obs → Bool
  | .queued _ d _ => d.owner = c
  | .noDescriptor o => o = c
  | .noPrpBuffer o => o = c
  | _ => false

theorem dataChunk?_of_not_about {c : Slot} {o : Obs} (h : o.about c = false) : o.dataChunk? c = none := by
  unfold dataChunk?
  split
  · exact if_neg (by simpa [about] using h)
  · rfl

theorem listFetch?_of_not_about {c : Slot} {o : Obs} (h : o.about c = false) : o.listFetch? c = none := by
  unfold listFetch?
  split
  · refine if_neg fun both => ?_
    simp [about, both.2] at h
  · rfl

end Obs

/-- Data chunks submitted for `c`, in the order of submission. -/
def dataChunks (c : Slot) (trace : List Obs) : List DataChunk := (trace.filterMap (Obs.dataChunk? c)).reverse

def listFetches (c : Slot) (trace : List Obs) : List ListFetch := (trace.filterMap (Obs.listFetch? c)).reverse

@[simp] theorem dataChunks_append (c : Slot) (new old : List Obs) :
    dataChunks c (new ++ old) = dataChunks c old ++ dataChunks c new := by
  simp [dataChunks]

@[simp] theorem listFetches_append (c : Slot) (new old : List Obs) :
    listFetches c (new ++ old) = listFetches c old ++ listFetches c new := by
  simp [listFetches]

theorem dataChunks_others {c : Slot} {new : List Obs} (h : ∀ o ∈ new, o.about c = false) :
    dataChunks c new = [] := by
  rw [dataChunks, List.filterMap_eq_nil_iff.mpr fun o ho => Obs.dataChunk?_of_not_about (h o ho)]
  rfl

theorem listFetches_others {c : Slot} {new : List Obs} (h : ∀ o ∈ new, o.about c = false) :
    listFetches c new = [] := by
  rw [listFetches, List.filterMap_eq_nil_iff.mpr fun o ho => Obs.listFetch?_of_not_about (h o ho)]
  rfl

/-- No allocation failed for `c`. -/
def Served (c : Slot) (trace : List Obs) : Prop := .noDescriptor c ∉ trace ∧ .noPrpBuffer c ∉ trace

theorem served_append (c : Slot) (new old : List Obs) :
    Served c (new ++ old) ↔ Served c new ∧ Served c old := by
  simp only [Served, List.mem_append, not_or]
  tauto

def Dir.chan : Dir → Chan
  | .fromHost => .rx
  | .toHost => .tx

/-- The chunk of the DMA engine for a chunk of the transfer that `p` describes. The last
one carries the callback. -/
def chunkOf (c : Slot) (p : NvmeCmdPriv) (k : Chunk) : DataChunk where
  ch := p.dir.chan
  host := k.host
  addr := (p.xferBuf + k.off) % 2 ^ 32
  len := k.len
  callback := if k.off + k.len = p.xferLen then p.xferCb.map (·, c) else none

/-- `off` bytes of the transfer that `p` describes are submitted. -/
def NvmeCmdPriv.at (p : NvmeCmdPriv) (off size : Nat) : NvmeCmdPriv :=
  { p with xferLen := p.xferLen - off, xferBuf := (p.xferBuf + off) % 2 ^ 32, prpSize := size }

/-- What the data path of `c` may leave in the trace. -/
def Obs.moves (c : Slot) : Obs → Prop
  | .queued _ d _ => d.owner = c
  | .noDescriptor o | .noPrpBuffer o | .lost o _ | .prpAlloc o _ | .prpFree o _ => o = c
  | _ => False

/-- The events `new` submit chunks `ds` and list requests `fs`, less those that an allocation
failed for. -/
structure Submits (c : Slot) (new : List Obs) (ds : List DataChunk) (fs : List ListFetch) : Prop where
  moves : ∀ o ∈ new, o.moves c
  data : (dataChunks c new).Sublist ds
  lists : (listFetches c new).Sublist fs
  all : Served c new → dataChunks c new = ds ∧ listFetches c new = fs

theorem Submits.append {c : Slot} {new old : List Obs} {ds es : List DataChunk} {fs gs : List ListFetch}
    (later : Submits c new es gs) (first : Submits c old ds fs) : Submits c (new ++ old) (ds ++ es) (fs ++ gs) where
  moves o ho := (List.mem_append.mp ho).elim (later.moves o) (first.moves o)
  data := by
    rw [dataChunks_append]
    exact first.data.append later.data
  lists := by
    rw [listFetches_append]
    exact first.lists.append later.lists
  all served := by
    obtain ⟨hnew, hold⟩ := (served_append c new old).mp served
    simp [first.all hold, later.all hnew]

theorem Submits.nothing {c : Slot} {new : List Obs} (h : ∀ o ∈ new, o.moves c ∧ o.dataChunk? c = none ∧ o.listFetch? c = none) :
    Submits c new [] [] := by
  have data : dataChunks c new = [] := by
    rw [dataChunks, List.filterMap_eq_nil_iff.mpr fun o ho => (h o ho).2.1]
    rfl
  have lists : listFetches c new = [] := by
    rw [listFetches, List.filterMap_eq_nil_iff.mpr fun o ho => (h o ho).2.2]
    rfl
  exact ⟨fun o ho => (h o ho).1, data ▸ .slnil, lists ▸ .slnil, fun _ => ⟨data, lists⟩⟩

theorem Submits.of_failed {c : Slot} {new : List Obs} {ds : List DataChunk} {fs : List ListFetch}
    (h : Submits c new [] []) (failed : ¬Served c new) : Submits c new ds fs :=
  ⟨h.moves, h.data.trans (List.nil_sublist _), h.lists.trans (List.nil_sublist _), fun served => absurd served failed⟩

theorem submits_chunk (c : Slot) (d : DataChunk) (tag block : Nat) (q : QId) (p : NvmeCmdPriv) :
    Submits c [.queued d.ch ⟨d.callback, d.host, .ram d.addr, d.len, tag, block, c, q⟩ p] [d] [] := by
  have data : dataChunks c [.queued d.ch ⟨d.callback, d.host, .ram d.addr, d.len, tag, block, c, q⟩ p] = [d] := by
    simp [dataChunks, Obs.dataChunk?]
  have lists : listFetches c [.queued d.ch ⟨d.callback, d.host, .ram d.addr, d.len, tag, block, c, q⟩ p] = [] := by
    simp [listFetches, Obs.listFetch?]
  exact ⟨fun o ho => by simp [List.mem_singleton.mp ho, Obs.moves], data ▸ .refl _, lists ▸ .slnil, fun _ => ⟨data, lists⟩⟩

theorem submits_list (c : Slot) (f : ListFetch) (tag block : Nat) (q : QId) (p : NvmeCmdPriv) :
    Submits c [.queued .rx ⟨some (.prpCb, c), f.host, .prp f.block, f.len, tag, block, c, q⟩ p] [] [f] := by
  have lists : listFetches c [.queued .rx ⟨some (.prpCb, c), f.host, .prp f.block, f.len, tag, block, c, q⟩ p] = [f] := by
    simp [listFetches, Obs.listFetch?]
  exact ⟨fun o ho => by simp [List.mem_singleton.mp ho, Obs.moves], .slnil, lists ▸ .refl _, fun _ => ⟨rfl, lists⟩⟩

theorem submits_none (c : Slot) : Submits c [.noDescriptor c] [] [] :=
  .nothing fun o ho => by simp [List.mem_singleton.mp ho, Obs.moves, Obs.dataChunk?, Obs.listFetch?]

theorem submits_lost (c : Slot) (why : Loss) : Submits c [.lost c why, .noDescriptor c] [] [] :=
  .nothing fun o ho => by
    rcases List.mem_pair.mp ho with rfl | rfl <;> simp [Obs.moves, Obs.dataChunk?, Obs.listFetch?]

theorem submits_prpAlloc (c : Slot) (b : Nat) : Submits c [.prpAlloc c b] [] [] :=
  .nothing fun o ho => by simp [List.mem_singleton.mp ho, Obs.moves, Obs.dataChunk?, Obs.listFetch?]

theorem submits_prpFree (c : Slot) (b : Nat) : Submits c [.prpFree c b] [] [] :=
  .nothing fun o ho => by simp [List.mem_singleton.mp ho, Obs.moves, Obs.dataChunk?, Obs.listFetch?]

/-- From `s` to `t` chunks and list requests were submitted for `c`, whose record became
`p`. All that the data path leaves alone is as before. -/
structure Moved (P : Platform) (c : Slot) (s t : Fw) (p : NvmeCmdPriv) (ds : List DataChunk) (fs : List ListFetch) : Prop where
  cmds : t.cmds = Function.update s.cmds c p
  frame : t =
    { s with
      cmds := t.cmds, ch := t.ch, descSlab := t.descSlab, prpSlab := t.prpSlab
      clock := t.clock, trace := t.trace }
  trace : ∃ new, t.trace = new ++ s.trace ∧ Submits c new ds fs ∧
    (s.descSlab.used.length + (ds.length + fs.length) ≤ P.nvmeDmaSlabEntries → Served c new) ∧
    (P.nvmeDmaSlabEntries ≤ s.descSlab.used.length → Submits c new [] [])
  descs : s.descSlab.used.length ≤ t.descSlab.used.length ∧
    t.descSlab.used.length ≤ s.descSlab.used.length + (ds.length + fs.length)

namespace Moved

variable {P : Platform} {c : Slot} {s t u : Fw} {p q : NvmeCmdPriv} {ds es : List DataChunk} {fs gs : List ListFetch}

theorem cmd (h : Moved P c s t p ds fs) : t.cmds c = p := by
  rw [h.cmds, Function.update_self]

theorem tc (h : Moved P c s t p ds fs) : t.tc = s.tc := by rw [h.frame]

theorem prpMem (h : Moved P c s t p ds fs) : t.prpMem = s.prpMem := by rw [h.frame]

theorem pool (h : Moved P c s t p ds fs) : t.pool = s.pool := by rw [h.frame]

/-- Neither the record nor the descriptors change. -/
theorem quiet {new : List Obs} (cmds : t.cmds = s.cmds)
    (frame : t =
      { s with
        cmds := t.cmds, ch := t.ch, descSlab := t.descSlab, prpSlab := t.prpSlab
        clock := t.clock, trace := t.trace })
    (trace : t.trace = new ++ s.trace) (submits : Submits c new [] []) (served : Served c new)
    (descs : t.descSlab = s.descSlab) : Moved P c s t (s.cmds c) [] [] :=
  ⟨by rw [cmds, Function.update_eq_self], frame, ⟨new, trace, submits, fun _ => served, fun _ => submits⟩, by
    rw [descs]
    exact ⟨le_rfl, le_rfl⟩⟩

theorem refl (c : Slot) (s : Fw) : Moved P c s s (s.cmds c) [] [] :=
  quiet rfl rfl (List.nil_append _).symm (.nothing fun _ h => nomatch h) (by simp [Served]) rfl

theorem trans (h : Moved P c s t p ds fs) (g : Moved P c t u q es gs) :
    Moved P c s u q (ds ++ es) (fs ++ gs) where
  cmds := by rw [g.cmds, h.cmds, Function.update_idem]
  frame := by rw [g.frame, h.frame]
  trace := by
    obtain ⟨new, e, f, room, full⟩ := h.trace
    obtain ⟨new', e', f', room', full'⟩ := g.trace
    have descs := h.descs
    refine ⟨new' ++ new, by rw [e', e, List.append_assoc], f'.append f, fun enough => ?_, fun none => ?_⟩
    · rw [List.length_append, List.length_append] at enough
      exact (served_append c new' new).mpr ⟨room' (by omega), room (by omega)⟩
    · exact (full' (by omega)).append (full none)
  descs := by
    have first := h.descs
    have later := g.descs
    rw [List.length_append, List.length_append]
    omega

end Moved

section

variable (P : Platform) (c : Slot)

/-- Both branches of `transfer_chunk` submit to the channel of the direction. -/
theorem xferDir_eq (dir : Dir) (loc : Local) (host n : Nat) (callback : Option (Cb × Slot)) :
    (if dir = .toHost then nvmeDmaXferMemToHost P loc host n callback c
      else nvmeDmaXferHostToMem P host loc n callback c) =
    nvmeDmaXfer P dir.chan (if dir = .toHost then 0x55 else 0xAA) host loc n callback c := by
  cases dir <;> rfl

/-- One chunk at offset `off` of the transfer that `p` describes. -/
theorem run_transferChunk (host n : Nat) {p : NvmeCmdPriv} {off size : Nat} {s : Fw}
    (at' : s.cmds c = p.at off size) (hoff : off ≤ p.xferLen) (hn : n ≤ p.xferLen - off) (hlen : p.xferLen < 2 ^ 32) :
    ∃ t, (transferChunk P c host (s.cmds c).xferBuf n).run s = some ((), t) ∧
      Moved P c s t (p.at (off + n) size) [chunkOf c p ⟨host, off, n⟩] [] ∧ t.prpSlab = s.prpSlab := by
  have last : (p.xferLen - off = n) = (off + n = p.xferLen) := by
    apply propext
    omega
  have wrap : (p.xferLen - off + 2 ^ 32 - n) % 2 ^ 32 = p.xferLen - (off + n) := by omega
  have sum : ((p.xferBuf + off) % 2 ^ 32 + n) % 2 ^ 32 = (p.xferBuf + (off + n)) % 2 ^ 32 := by omega
  simp only [transferChunk, xferDir_eq, Prog.run_bind, ofCmd, setCmd, Prog.run_look, Option.bind_some]
  simp only [at', NvmeCmdPriv.at, last, chunkOf]
  generalize hcb : (if off + n = p.xferLen then p.xferCb.map (·, c) else none) = callback
  rcases run_nvmeDmaXfer P p.dir.chan _ host (.ram ((p.xferBuf + off) % 2 ^ 32)) n callback c s with
    ⟨block, slab, run, free, used⟩ | ⟨run, full⟩
  · rw [run]
    simp only [Option.bind_some, loseUnless, Prog.run_when, Prog.run_change]
    simp only [Bool.true_eq_false, if_false, ite_self, Option.bind_some]
    have submits := submits_chunk c ⟨p.dir.chan, host, (p.xferBuf + off) % 2 ^ 32, n, callback⟩
      (if p.dir = .toHost then 0x55 else 0xAA) block (s.cmds c).qid (s.cmds c)
    refine ⟨_, rfl, ⟨?_, rfl, ⟨_, rfl, submits, fun _ => by simp [Served], fun h => absurd h (by omega)⟩, ?_⟩, rfl⟩
    · rw [← wrap, ← sum]
      simp [Fw.setCmd, Fw.put, Fw.setCh, Fw.note, at', NvmeCmdPriv.at]
    · simp [Fw.setCmd, Fw.put, Fw.setCh, Fw.note, used]
  · rw [run]
    simp only [Option.bind_some, loseUnless, lose, Prog.run_when, Prog.run_change, if_true]
    cases callback with
    | none =>
      refine ⟨_, rfl, ⟨?_, rfl, ⟨_, rfl, (submits_none c).of_failed (by simp [Served]), fun h => ?_,
        fun _ => submits_none c⟩, ?_⟩, rfl⟩
      · rw [← wrap, ← sum]
        simp [Fw.setCmd, Fw.note, at', NvmeCmdPriv.at]
      · simp only [List.length_singleton, List.length_nil] at h
        omega
      · simp [Fw.setCmd, Fw.note]
    | some cb =>
      refine ⟨_, rfl, ⟨?_, rfl, ⟨_, rfl, (submits_lost c _).of_failed (by simp [Served]), fun h => ?_,
        fun _ => submits_lost c _⟩, ?_⟩, rfl⟩
      · rw [← wrap, ← sum]
        simp [Fw.setCmd, Fw.note, at', NvmeCmdPriv.at]
      · simp only [List.length_singleton, List.length_nil] at h
        omega
      · simp [Fw.setCmd, Fw.note]

/-- The request for a list of the pages that remain. -/
theorem run_prpFetch (b host mps : Nat) {p : NvmeCmdPriv} {off size : Nat} {s : Fw}
    (at' : s.cmds c = p.at off size) :
    ∃ t, (prpFetch P c b host mps).run s = some ((), t) ∧
      Moved P c s t (p.at off (calcPrpSize host mps (p.xferLen - off))) []
        [⟨host, b, calcPrpSize host mps (p.xferLen - off)⟩] := by
  simp only [prpFetch, nvmeDmaXferHostToMem, Prog.run_bind, ofCmd, setCmd, Prog.run_look, Prog.run_change,
    Option.bind_some, Fw.setCmd, Function.update_self, at']
  simp only [NvmeCmdPriv.at]
  generalize hs : ({ s with cmds := _ } : Fw) = s'
  have same : s'.descSlab = s.descSlab := by rw [← hs]
  rcases run_nvmeDmaXfer P .rx 0xAA host (.prp b) (calcPrpSize host mps (p.xferLen - off)) (some (.prpCb, c)) c s'
    with ⟨block, slab, run, free, used⟩ | ⟨run, full⟩
  · rw [same] at free
    have submits := submits_list c ⟨host, b, calcPrpSize host mps (p.xferLen - off)⟩ 0xAA block (s'.cmds c).qid
      (s'.cmds c)
    rw [same] at used
    rw [run]
    rw [← hs] at submits ⊢
    simp only [Option.bind_some, loseUnless, Prog.run_when, Bool.true_eq_false, if_false]
    refine ⟨_, rfl, rfl, rfl, ⟨_, rfl, submits, fun _ => by simp [Served], fun h => absurd h (by omega)⟩, ?_⟩
    simp [Fw.put, Fw.setCh, Fw.note, used]
  · rw [same] at full
    rw [run, ← hs]
    simp only [Option.bind_some, loseUnless, lose, Prog.run_when, Prog.run_change, if_true]
    refine ⟨_, rfl, rfl, rfl, ⟨_, rfl, (submits_lost c _).of_failed (by simp [Served]), fun h => ?_,
      fun _ => submits_lost c _⟩, ?_⟩
    · simp only [List.length_singleton, List.length_nil] at h
      omega
    · simp [Fw.note]

/-- A block for the list, or the event that there was none. -/
theorem run_prpAlloc (s : Fw) :
    (nvmePrpSlabSize ≤ s.prpSlab.used.length ∧
      (prpAlloc P c).run s = some (none, Fw.note { s with clock := s.clock + 1 } (.noPrpBuffer c))) ∨
    ∃ b t, (prpAlloc P c).run s = some (some b, t) ∧ Moved P c s t (s.cmds c) [] [] := by
  by_cases free : s.prpSlab.used.length < nvmePrpSlabSize
  · right
    have pick := P.slabPick_free s.clock nvmePrpSlabSize s.prpSlab.used free
    generalize hb : P.slabPick s.clock nvmePrpSlabSize s.prpSlab.used = b at pick
    let got : Fw := { s with prpSlab := s.prpSlab.add b pick, clock := s.clock + 1 }
    refine ⟨b, got.note (.prpAlloc c b), ?_, .quiet rfl rfl rfl (submits_prpAlloc c b) (by simp [Served]) rfl⟩
    simp only [prpAlloc, Prog.run_swap, Platform.kMemSlabAlloc, dif_pos free]
    subst hb
    rfl
  · refine .inl ⟨Nat.not_lt.mp free, ?_⟩
    simp only [prpAlloc, Prog.run_swap, Platform.kMemSlabAlloc, dif_neg free]

end
end AlkaliFw
