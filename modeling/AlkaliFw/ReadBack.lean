import AlkaliFw.Contents

/-! What is read from the ramdisk is what was written to it. The write and the read are two commands among others, whose
transfers go on at the same time; those only must not write to the blocks, nor to the pages that the read fills. -/

namespace AlkaliFw
open Resumption QueuedCopies

section Runs

variable {P : Platform} {ok ok' : Sys → Event → Prop} {R S T : Sys}

theorem Run.imp (run : Run P ok S T) (weaker : ∀ S e, ok S e → ok' S e) : Run P ok' S T := by
  induction run with
  | refl => exact .refl _
  | step e _ met next ih => exact ih.step e (weaker _ _ met) next

theorem Run.trans (run : Run P ok R S) (more : Run P ok S T) : Run P ok R T := by
  induction more with
  | refl => exact run
  | step e _ met next ih => exact ih.step e met next

/-- A step of a run. -/
def Goes (P : Platform) (ok : Sys → Event → Prop) (S T : Sys) : Prop := ∃ e, ok S e ∧ S.step P e = some T

theorem run_iff : Run P ok S T ↔ Relation.ReflTransGen (Goes P ok) S T := by
  constructor
  · intro run
    induction run with
    | refl => exact .refl
    | step e _ met next ih => exact ih.tail ⟨e, met, next⟩
  · intro reach
    induction reach with
    | refl => exact .refl S
    | tail _ next ih =>
      obtain ⟨e, met, step⟩ := next
      exact ih.step e met step

theorem steady_boot (host ram : Nat → UInt8) : (Sys.boot host ram).Steady P where
  sound := (Run.refl (P := P) (Sys.boot host ram) : Run P (fun _ _ => True) _ _).sound
  narrow := by
    refine ⟨⟨fun _ => ⟨Nat.two_pow_pos 32, Nat.two_pow_pos 32⟩, fun _ _ _ mem => ?_, fun _ mem => ?_⟩, fun _ e => ?_⟩
    · cases mem
    · cases mem
    · cases e
  engine := by
    have engine := (Run.refl (P := P) (Sys.boot host ram) : Run P (fun _ _ => True) _ _).engine
    exact ⟨engine.tracked, engine.freed⟩

variable (words : ∀ b, P.respBuf b < 2 ^ 32)
include words

theorem Sys.Steady.step {e : Event} (h : S.Steady P) (step : S.step P e = some T) : T.Steady P where
  sound := Sys.step_sound step h.sound
  narrow := (h.narrow.step words h.sound step).1
  engine := engine_holds.step step h.sound h.engine

theorem Run.steady (run : Run P ok S T) (h : S.Steady P) : T.Steady P := by
  induction run with
  | refl => exact h
  | step e _ _ next ih => exact ih.step words next

theorem Run.grown (run : Run P ok S T) (h : S.Steady P) : S.fw.trace <:+ T.fw.trace := by
  induction run with
  | refl => exact List.suffix_rfl
  | step e before _ next ih => exact ih.trans (Sys.step_history next (before.steady words h).sound)

/-- Chunks that were all submitted in a run and moved are found where they went, as of the time at which they were moved. -/
theorem Run.chunk_held {ch : Chan} {c : Slot} {spans : List (Nat × Nat)} (run : Run P ok S T) (h : S.Steady P)
    (fixed : ch = .rx → ∀ x ∈ region spans, P.Fixed x) (avoids : ∀ S e, ok S e → Avoids ch (·.carriesData c) spans S e)
    (taken : opened c (S.since T) = true) (moved : (T.fw.ch ch).unmoved.filter (·.carriesData c) = [])
    (apart : (chunksOf ch c (past c T.fw.trace)).Pairwise fun i j => Clear (i.target ch) i.len (j.target ch) j.len)
    {d : Desc} (mem : d ∈ chunksOf ch c (past c T.fw.trace)) (inside : ∀ x, d.target ch ≤ x → x < d.target ch + d.len → x ∈ region spans) :
    ∃ U, Run P ok S U ∧ Run P ok U T ∧
      ∀ x, d.target ch ≤ x → x < d.target ch + d.len → T.fw.dest ch x = U.fw.source ch (d.origin ch + (x - d.target ch)) := by
  obtain ⟨old, grown⟩ := run.grown words h
  have done : (copier ch c S).done T = chunksOf ch c (past c T.fw.trace) := by
    have since := since_eq grown.symm
    rw [since] at taken
    simp only [copier, moved, since, made]
    rw [← grown, past_append_opened taken, List.length_nil, List.drop_zero]
  have start : (copier ch c S).done S = [] := by
    simp only [copier, since_self, past, made, chunksOf, List.filterMap_nil, List.filter_nil, List.drop_nil]
  have each (U V : Sys) (reach : Relation.ReflTransGen (Goes P ok) S U) (next : Goes P ok U V) :
      (copier ch c S).Step (region spans) U V := by
    obtain ⟨e, met, step⟩ := next
    have before := run_iff.mpr reach
    have steady := before.steady words h
    have motion : Motion P ch U V e := steady.motion words step
    exact motion.copies (steady.engine.1 ch) ((steady.step words step).engine.1 ch) (before.grown words h) fixed (avoids U e met)
  have disjoint : ((copier ch c S).done T).Pairwise fun i j => Disjoint ((copier ch c S).area i) ((copier ch c S).area j) := by
    rw [done]
    refine apart.imp fun {i j} clear => Set.disjoint_left.mpr fun x here there => ?_
    obtain ⟨low, high⟩ := here
    obtain ⟨low', high'⟩ := there
    unfold Clear at clear
    omega
  obtain ⟨U, before, after, copied⟩ := Copier.holds_of_done start each (run_iff.mp run) disjoint (done ▸ mem) fun x here =>
    inside x here.1 here.2
  exact ⟨U, run_iff.mpr before, run_iff.mpr after, fun x low high => copied x ⟨low, high⟩⟩

/-- What no event writes to stays. -/
theorem Run.kept {ch : Chan} {spans : List (Nat × Nat)} (run : Run P ok S T) (h : S.Steady P)
    (fixed : ch = .rx → ∀ x ∈ region spans, P.Fixed x) (avoids : ∀ S e, ok S e → Avoids ch (fun _ => false) spans S e) :
    ∀ x ∈ region spans, T.fw.dest ch x = S.fw.dest ch x := by
  induction run with
  | refl => exact fun _ _ => rfl
  | step e before met next ih =>
    intro x mem
    refine Eq.trans ?_ (ih x mem)
    have motion : Motion P ch _ _ e := (before.steady words h).motion words next
    cases motion with
    | moved d programmed head trace transferred =>
      exact transferred.outside x fun w written => outside_of_clear (avoids _ _ met rfl d programmed rfl w written) mem
    | beside e new trace none dest => exact dest spans _ fixed (avoids _ _ met) x mem

end Runs

section Pieces

variable {ch : Chan} {c : Slot} {h : List Obs} {off stop base size : Nat} {xs : List Piece}

theorem Laid.le (laid : Laid off xs stop) : off ≤ stop := by
  induction xs generalizing off with
  | nil => exact Nat.le_of_eq laid
  | cons x xs ih =>
    obtain ⟨rfl, rest⟩ := laid
    exact (Nat.le_add_right ..).trans (ih rest)

theorem Laid.bounds (laid : Laid off xs stop) : ∀ x ∈ xs, off ≤ x.off ∧ x.off + x.len ≤ stop := by
  induction xs generalizing off with
  | nil => exact fun _ mem => by cases mem
  | cons x xs ih =>
    obtain ⟨rfl, rest⟩ := laid
    intro y mem
    rcases List.mem_cons.mp mem with rfl | later
    · exact ⟨le_rfl, rest.le⟩
    · obtain ⟨low, high⟩ := ih rest y later
      exact ⟨(Nat.le_add_right ..).trans low, high⟩

theorem Laid.ordered (laid : Laid off xs stop) : xs.Pairwise fun x y => x.off + x.len ≤ y.off := by
  induction xs generalizing off with
  | nil => exact .nil
  | cons x xs ih =>
    obtain ⟨rfl, rest⟩ := laid
    exact List.pairwise_cons.mpr ⟨fun y mem => (rest.bounds y mem).1, ih rest⟩

theorem Laid.covers (laid : Laid off xs stop) {k : Nat} (low : off ≤ k) (high : k < stop) :
    ∃ x ∈ xs, x.off ≤ k ∧ k < x.off + x.len := by
  induction xs generalizing off with
  | nil =>
    have same : off = stop := laid
    omega
  | cons x xs ih =>
    obtain ⟨rfl, rest⟩ := laid
    by_cases here : k < x.off + x.len
    · exact ⟨x, List.mem_cons_self, low, here⟩
    · obtain ⟨y, mem, found⟩ := ih rest (by omega)
      exact ⟨y, List.mem_cons_of_mem _ mem, found⟩

theorem past_of {o : Obs} {tr : List Obs} (mem : o ∈ past c tr) : o.of = some c := by
  induction tr with
  | nil => cases mem
  | cons x tr ih =>
    rw [past] at mem
    split at mem
    · rename_i own
      split at mem
      · rw [List.mem_singleton.mp mem]
        exact own
      · rcases List.mem_cons.mp mem with rfl | later
        · exact own
        · exact ih later
    · exact ih mem

/-- The chunks of a command carry its pieces. -/
theorem chunks_pieces (own : ∀ o ∈ h, o.of = some c) :
    (chunksOf ch c h).map (fun d => (d.addr, d.len)) = ((parts ch h).map fun x => (x.addr, x.len)).reverse := by
  rw [parts, List.map_reverse, List.reverse_reverse]
  induction h with
  | nil => rfl
  | cons o h ih =>
    have rest := ih fun x mem => own x (List.mem_cons_of_mem _ mem)
    rw [chunks_cons, List.map_append, rest]
    cases o with
    | queued at' d p =>
      have owner := Option.some.inj (own _ List.mem_cons_self)
      obtain ⟨cb, host, loc, len, tag, desc, e, q⟩ := d
      obtain rfl : e = c := owner
      by_cases here : at' = ch
      · cases loc with
        | ram a =>
          have chunk : chunksOf ch e [.queued at' ⟨cb, host, .ram a, len, tag, desc, e, q⟩ p] = [⟨cb, host, .ram a, len, tag, desc, e, q⟩] := by
            simp [chunksOf, Obs.queued?, here, Desc.carriesData]
          rw [chunk, List.filterMap_cons_some (by rw [Obs.piece?, if_pos here])]
          rfl
        | _ =>
          rw [List.filterMap_cons_none rfl]
          simp [chunksOf, Obs.queued?, here, Desc.carriesData]
      · have none : Obs.piece? ch (.queued at' ⟨cb, host, loc, len, tag, desc, e, q⟩ p) = none := by
          cases loc with
          | ram a => exact if_neg here
          | _ => rfl
        rw [List.filterMap_cons_none none]
        simp [chunksOf, Obs.queued?, here]
    | _ => rfl

/-- Chunks of a transfer within 32-bit memory lie one after the other, and all of it is in one of them. -/
theorem Covers.placed (covers : Covers ch (past c h) base size size) (small : base + size < 2 ^ 32)
    (narrow : ∀ d ∈ chunksOf ch c (past c h), d.addr < 2 ^ 32) :
    ((chunksOf ch c (past c h)).Pairwise fun i j => Clear i.addr i.len j.addr j.len) ∧
      (∀ d ∈ chunksOf ch c (past c h), base ≤ d.addr ∧ d.addr + d.len ≤ base + size) ∧
      ∀ k < size, ∃ d ∈ chunksOf ch c (past c h), d.addr ≤ base + k ∧ base + k < d.addr + d.len := by
  have same : (chunksOf ch c (past c h)).map (fun d => (d.addr, d.len)) = ((parts ch (past c h)).map fun x => (x.addr, x.len)).reverse :=
    chunks_pieces fun _ => past_of
  have place : ∀ x ∈ parts ch (past c h), x.addr = base + x.off := by
    intro x mem
    have word := (covers.piece x mem).2
    have bound := (covers.laid.bounds x mem).2
    have here : (x.addr, x.len) ∈ (chunksOf ch c (past c h)).map fun d => (d.addr, d.len) := by
      rw [same]
      exact List.mem_reverse.mpr (List.mem_map_of_mem mem)
    obtain ⟨d, chunk, e⟩ := List.mem_map.mp here
    have lt := narrow d chunk
    have addr : d.addr = x.addr := (Prod.ext_iff.mp e).1
    omega
  have piece (d : Desc) (mem : d ∈ chunksOf ch c (past c h)) : ∃ x ∈ parts ch (past c h), d.addr = base + x.off ∧ d.len = x.len := by
    have here : (d.addr, d.len) ∈ ((parts ch (past c h)).map fun x => (x.addr, x.len)).reverse := by
      rw [← same]
      exact List.mem_map_of_mem (f := fun d : Desc => (d.addr, d.len)) mem
    obtain ⟨x, part, e⟩ := List.mem_map.mp (List.mem_reverse.mp here)
    obtain ⟨addr, len⟩ := Prod.ext_iff.mp e
    exact ⟨x, part, addr.symm.trans (place x part), len.symm⟩
  refine ⟨?_, fun d mem => ?_, fun k lt => ?_⟩
  · have ordered : ((parts ch (past c h)).map fun x => (x.addr, x.len)).Pairwise fun i j => i.1 + i.2 ≤ j.1 := by
      refine List.pairwise_map.mpr (covers.laid.ordered.imp_of_mem fun {x y} mem mem' le => ?_)
      rw [place x mem, place y mem']
      omega
    have reversed := List.pairwise_reverse.mpr ordered
    rw [← same] at reversed
    exact (List.pairwise_map.mp reversed).imp fun le => .inr (.inr (.inr le))
  · obtain ⟨x, part, addr, len⟩ := piece d mem
    obtain ⟨-, high⟩ := covers.laid.bounds x part
    omega
  · obtain ⟨x, part, low, high⟩ := covers.laid.covers (Nat.zero_le k) lt
    have here : (x.addr, x.len) ∈ (chunksOf ch c (past c h)).map fun d => (d.addr, d.len) := by
      rw [same]
      exact List.mem_reverse.mpr (List.mem_map_of_mem part)
    obtain ⟨d, chunk, e⟩ := List.mem_map.mp here
    obtain ⟨addr, len⟩ := Prod.ext_iff.mp e
    have at' := place x part
    dsimp only at addr len
    exact ⟨d, chunk, by omega, by omega⟩

end Pieces

section Blocks

/-- The bytes of some blocks, in the RPU's memory. -/
def blockSpan (slba nlb : Nat) : Nat × Nat := (ramdiskBuffer + slba * blkSize, nlb * blkSize)

/-- The pages that the data of a command goes to. -/
def readPages (c : Slot) (s : Fw) : List (Nat × Nat) := (chunksOf .tx c (past c s.trace)).map fun d => (d.hostAddr, d.len)

/-- The record of a read or a write of blocks. -/
structure BlockCmd (opc slba nlb : Nat) (p : NvmeCmdPriv) : Prop where
  queue : p.qid ≠ admQueueId
  opc : p.sqBuf.opc = opc
  slba : p.sqBuf.slba = slba
  nlb : p.sqBuf.nlb = nlb

instance (opc slba nlb : Nat) (p : NvmeCmdPriv) : Decidable (BlockCmd opc slba nlb p) :=
  decidable_of_iff (p.qid ≠ admQueueId ∧ p.sqBuf.opc = opc ∧ p.sqBuf.slba = slba ∧ p.sqBuf.nlb = nlb)
    ⟨fun ⟨q, o, s, n⟩ => ⟨q, o, s, n⟩, fun h => ⟨h.queue, h.opc, h.slba, h.nlb⟩⟩

instance (c : Slot) (s : Fw) : Decidable (Succeeds c s) :=
  decidable_of_iff ((s.cmds c).xferCb ≠ none ∧ ((s.cmds c).cqBuf.sc = 0 ∧ (s.cmds c).cqBuf.sct = 0) ∧
      ∃ d ∈ (s.ch .tx).fifo, d.owner = c ∧ d.callback = some (.cqCb, c))
    ⟨fun ⟨x, y, z⟩ => ⟨x, y, z⟩, fun h => ⟨h.data, h.status, h.entry⟩⟩

variable {P : Platform} {c : Slot} {S : Sys} {slba nlb : Nat} {ok : Sys → Event → Prop} {host ram : Nat → UInt8}

theorem BlockCmd.demand_write {p : NvmeCmdPriv} (asked : BlockCmd 0x01 slba nlb p) (range : slba + nlb ≤ blkCnt) :
    p.demand P = .data .fromHost (blockSpan slba nlb).1 (blockSpan slba nlb).2 := by
  rw [demand_io asked.queue, ioDemand, asked.opc]
  simp only [blockDemand, asked.slba, asked.nlb, if_pos range, blockSpan]

theorem BlockCmd.demand_read {p : NvmeCmdPriv} (asked : BlockCmd 0x02 slba nlb p) (range : slba + nlb ≤ blkCnt) :
    p.demand P = .data .toHost (blockSpan slba nlb).1 (blockSpan slba nlb).2 := by
  rw [demand_io asked.queue, ioDemand, asked.opc]
  simp only [blockDemand, asked.slba, asked.nlb, if_pos range, blockSpan]

theorem blocks_small (range : slba + nlb ≤ blkCnt) : (blockSpan slba nlb).1 + (blockSpan slba nlb).2 < 2 ^ 32 := by
  have cnt : blkCnt = 786432 := rfl
  have size : blkSize = 512 := rfl
  have base : ramdiskBuffer = 1744830464 := rfl
  simp only [blockSpan, size, base]
  omega

/-- When the entry of a block command has been submitted, its data has been moved, to or from the blocks that it names. -/
theorem Succeeds.moved (run : Run P ok (Sys.boot host ram) S) (accepting : ∀ S e, ok S e → Accepting P S e) (success : Succeeds c S.fw) :
    (∀ ch, (S.fw.ch ch).unmoved.filter (·.carriesData c) = []) ∧
      ((S.fw.cmds c).demand P ≠ .refused → Performed P c (S.fw.cmds c) (past c S.fw.trace)) := by
  have ledger := run.ledger fun S e met => (accepting S e met).1
  have accepted := run.events fun S e met => (accepting S e met).2
  obtain ⟨d, mem, owner, cb⟩ := success.entry
  obtain ⟨standing, queue⟩ := ledger.waiting mem owner cb
  have entered := standing.entered queue cb
  have served : Served c (past c S.fw.trace) := served_of_accepted accepted
  obtain ⟨q, posted, -, sqBuf, xferCb, -⟩ := entered.record
  have psdt : (S.fw.cmds c).sqBuf.psdt = 0 := by
    have event := accepted _ (mem_past posted)
    rw [Obs.Accepted, owner] at event
    have zero := event cb (xferCb ▸ success.data)
    rwa [sqBuf] at zero
  obtain ⟨⟨tx, rx⟩, -⟩ := entered.settled.moved served fun _ => psdt
  have finished := entered.finished run.engine.tracked tx rx
  refine ⟨fun ch => ?_, fun meant => entered.settled.performed served fun refused => ?_⟩
  · have all := (run.engine.tracked ch).unmoved
    have same := finished ch
    rw [all, List.filter_append] at same
    have none := List.append_cancel_right (same.trans (List.nil_append _).symm)
    rwa [List.filter_reverse, List.reverse_eq_nil_iff] at none
  · rcases refused with not | ⟨-, no⟩
    · exact meant not
    · exact no psdt

/-- The chunks of such a command lie in the blocks, apart from one another, and every byte of the blocks is in one. -/
theorem Succeeds.chunks_placed {ch : Chan} {dir : Dir} (run : Run P ok (Sys.boot host ram) S) (steady : S.Steady P)
    (accepting : ∀ S e, ok S e → Accepting P S e) (success : Succeeds c S.fw) (range : slba + nlb ≤ blkCnt)
    (asked : (S.fw.cmds c).demand P = .data dir (blockSpan slba nlb).1 (blockSpan slba nlb).2) (side : dir.chan = ch) :
    ((chunksOf ch c (past c S.fw.trace)).Pairwise fun i j => Clear i.addr i.len j.addr j.len) ∧
      (∀ d ∈ chunksOf ch c (past c S.fw.trace), (blockSpan slba nlb).1 ≤ d.addr ∧ d.addr + d.len ≤ (blockSpan slba nlb).1 + (blockSpan slba nlb).2) ∧
      ∀ k < (blockSpan slba nlb).2, ∃ d ∈ chunksOf ch c (past c S.fw.trace),
        d.addr ≤ (blockSpan slba nlb).1 + k ∧ (blockSpan slba nlb).1 + k < d.addr + d.len := by
  have performed := (success.moved run accepting).2 (by rw [asked]; simp)
  simp only [Performed, asked, side] at performed
  refine performed.placed (blocks_small range) fun d mem => ?_
  obtain ⟨queued, data⟩ := List.mem_filter.mp mem
  obtain ⟨o, event, same⟩ := List.mem_filterMap.mp queued
  cases o with
  | queued ch' e p =>
    rw [Obs.queued?] at same
    split at same <;> cases same
    exact steady.narrow.fw.queued _ _ _ (mem_past event) _ (Desc.carriesData_iff.mp data).2
  | _ => cases same

end Blocks

/-- Host memory with commands that create the IO queues, then a write and a read of block 5, each over two pages. -/
def writeThenRead : Nat → UInt8 := fun a =>
  if a = 0x10000 then 5 else if a = 0x1001A then 3 else if a = 0x10028 then 1 else if a = 0x1002A then 15
  else if a = 0x10040 then 1 else if a = 0x1005A then 4 else if a = 0x10068 then 1 else if a = 0x1006A then 15
  else if a = 0x40000 then 1 else if a = 0x40019 then 0x0F else if a = 0x4001A then 5 else if a = 0x40022 then 6 else if a = 0x40028 then 5
  else if a = 0x40040 then 2 else if a = 0x40058 then 0x80 else if a = 0x40059 then 0x0E else if a = 0x4005A then 7 else if a = 0x40062 then 8
  else if a = 0x40068 then 5
  else if 0x50000 ≤ a then UInt8.ofNat a else 0

def queuesCreated : List Event :=
  setUp ++ [.hostWrite (doorbellTail 0 / 4) 2, .tcIrq, .dmaDone .rx, .dmaIrq, .dmaDone .rx, .dmaIrq, .dmaDone .tx, .dmaIrq,
    .dmaDone .tx, .dmaIrq]

def dataMoves (ch : Chan) (tail : Nat) : List Event :=
  [.hostWrite (doorbellTail 1 / 4) tail, .tcIrq, .dmaDone .rx, .dmaIrq, .dmaDone ch, .dmaIrq, .dmaDone ch, .dmaIrq]

theorem board_fixed {x : Nat} (mem : x ∈ region [blockSpan 5 1]) : (board (2 ^ 12)).Fixed x := by
  obtain ⟨r, here, low, -⟩ := mem
  rw [List.mem_singleton.mp here] at low
  have base : (blockSpan 5 1).1 = 1744833024 := rfl
  have size : nvmeCmdIdentifyRespSize = 4096 := rfl
  rw [base] at low
  have buffer : ∀ b, (board (2 ^ 12)).respBuf b = 65536 := fun _ => rfl
  have short : ∀ b, ∀ w ∈ respData (board (2 ^ 12)) b, w.1 + w.2.length ≤ 4096 := by
    intro b
    cases b <;> decide
  refine fun b => ⟨.inr ?_, fun w here => .inr ?_⟩
  · rw [buffer, size]
    omega
  · have := short b w here
    rw [buffer]
    omega

end AlkaliFw
