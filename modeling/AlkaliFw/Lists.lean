import AlkaliFw.Span

/-! The requests for PRP lists and what `prp_cb` reads of them, for any lists. Between a
request and its callback other commands go on and the host may set another page size; the
record of the command stays. -/

namespace AlkaliFw
open Resumption Prp

/-- A page size that `nvme_tc_cc_handler` sets; `CC.MPS` has four bits. -/
def Paged (s : Fw) : Prop := ∃ mps < 16, s.tc.memoryPageSize = 2 ^ (mps + 12)

theorem paged_ccHandler (s : Fw) : Paged s.ccHandler := by
  refine ⟨nvmeTcGetField (s.regs nvmeTcRegCc) 7 4, Nat.mod_lt _ (by decide), ?_⟩
  unfold Fw.ccHandler
  dsimp only
  split
  · simp only [Fw.setTc, Fw.sysWrite32]
  · split <;> simp only [Fw.setTc, Fw.sysWrite32]

theorem Paged.pos {s : Fw} (h : Paged s) : 0 < s.tc.memoryPageSize := by
  obtain ⟨mps, -, size⟩ := h
  rw [size]
  exact Nat.two_pow_pos _

variable (P : Platform) (c : Slot)

/-- `f` was submitted last for `c`, which left `t`. -/
inductive Requested : Fw → ListFetch → Prop where
  | first {a : Bool} {s t : Fw} {new : List Obs} {f : ListFetch} (paged : Paged s) (len : (s.cmds c).xferLen < 2 ^ 32)
      (buf : (s.cmds c).xferBuf < 2 ^ 32) (run : (nvmeCmdTransferData P c).run s = some (a, t))
      (trace : t.trace = new ++ s.trace) (submitted : f ∈ listFetches c new) : Requested t f
  | next {t u v : Fw} {new : List Obs} {f g : ListFetch} (before : Requested t f) (paged : Paged u)
      (kept : u.cmds c = t.cmds c) (run : (prpCb P c (.prp f.block)).run u = some ((), v))
      (trace : v.trace = new ++ u.trace) (submitted : g ∈ listFetches c new) : Requested v g

/-- Were the block as long as the request, `prp_cb` would not read beyond it. -/
def Within (f : ListFetch) (u : Fw) : Prop :=
  ((prpCb { P with nvmePrpListSize := f.len } c (.prp f.block)).run u).isSome

/-- The request is for an entry at least and fits a block, and whatever arrives, `prp_cb`
reads nothing else. -/
def Bounded (t : Fw) (f : ListFetch) : Prop :=
  (8 ≤ f.len ∧ f.len ≤ P.nvmePrpListSize) ∧ ∀ u, Paged u → u.cmds c = t.cmds c → Within P c f u

/-- A list at `base` for the `left` bytes that remain: an entry before the end of its page, and
no more than a block of `size` bytes holds. -/
structure ListFits (mps size base left : Nat) : Prop where
  entry : 8 ≤ mps - base % mps
  word : left + mps ≤ 2 ^ 32
  block : min (8 * pages mps left) (mps - base % mps) ≤ size

theorem calcPrpSize_of_le (base : Nat) {mps left : Nat} (hmps : 2 ^ 12 ≤ mps) (le : left + mps ≤ 2 ^ 32) :
    calcPrpSize base mps left = min (8 * pages mps left) (mps - base % mps) := by
  have few : pages mps left ≤ 2 ^ 20 := by
    rw [pages_le_iff (by omega)]
    calc left ≤ 2 ^ 20 * 2 ^ 12 := by omega
      _ ≤ 2 ^ 20 * mps := Nat.mul_le_mul_left _ hmps
  have whole : (left + mps - 1) % 2 ^ 32 / mps = pages mps left := by
    rw [Nat.mod_eq_of_lt (by omega), pages]
  simp only [calcPrpSize, whole]
  rw [Nat.mod_eq_of_lt (show pages mps left * 8 < 2 ^ 32 by omega)]
  split <;> omega

/-- The pages are counted in 32 bits. -/
theorem calcPrpSize_of_lt (base : Nat) {mps left : Nat} (mpos : 0 < mps) (small : mps ≤ 2 ^ 32) (word : left < 2 ^ 32)
    (lt : 2 ^ 32 < left + mps) : calcPrpSize base mps left = 0 := by
  have none : (left + mps - 1) % 2 ^ 32 / mps = 0 := by
    rw [show left + mps - 1 = left + mps - 1 - 2 ^ 32 + 2 ^ 32 by omega, Nat.add_mod_right,
      Nat.mod_eq_of_lt (by omega), Nat.div_eq_zero_iff]
    omega
  simp only [calcPrpSize, none, Nat.zero_mul, Nat.zero_mod]
  have := Nat.mod_lt base mpos
  rw [if_pos (by omega)]

/-- Of the pages that follow, there are two at least. -/
theorem calcPrpSize_bounds_iff (base : Nat) {mps left size : Nat} (hmps : 2 ^ 12 ≤ mps) (small : mps ≤ 2 ^ 32)
    (word : left < 2 ^ 32) (more : mps < left) :
    8 ≤ calcPrpSize base mps left ∧ calcPrpSize base mps left ≤ size ↔ ListFits mps size base left := by
  by_cases le : left + mps ≤ 2 ^ 32
  · rw [calcPrpSize_of_le base hmps le]
    have two : 1 < pages mps left := (lt_pages_iff (by omega) left 1).mpr (by omega)
    constructor
    · rintro ⟨entry, block⟩
      exact ⟨by omega, le, block⟩
    · rintro ⟨entry, -, block⟩
      exact ⟨by omega, block⟩
  · rw [calcPrpSize_of_lt base (by omega) small word (by omega)]
    constructor
    · intro h
      exact absurd h.1 (by decide)
    · intro h
      exact absurd h.word le

section

variable {P c} {p : NvmeCmdPriv} {s t u : Fw} {mps off size : Nat}

/-- The transfer that `p` describes has moved on, and has requested a list for what remains if any. -/
def Asks (P : Platform) (c : Slot) (p : NvmeCmdPriv) (mps : Nat) (s t : Fw) : Prop :=
  ∃ (off size : Nat) (ds : List DataChunk) (fs : List ListFetch), off ≤ p.xferLen ∧ Moved P c s t (p.at off size) ds fs ∧
    ∀ f ∈ fs, f.len = size ∧ f.len = calcPrpSize f.host mps (p.xferLen - off) ∧ mps < p.xferLen - off

theorem Asks.nothing {ds : List DataChunk} (hoff : off ≤ p.xferLen) (moved : Moved P c s t (p.at off size) ds []) :
    Asks P c p mps s t :=
  ⟨off, size, ds, [], hoff, moved, fun _ h => nomatch h⟩

theorem Asks.after {ds : List DataChunk} {q : NvmeCmdPriv} (moved : Moved P c s t q ds []) (asks : Asks P c p mps t u) :
    Asks P c p mps s u := by
  obtain ⟨off, size, ds', fs, hoff, moved', lists⟩ := asks
  exact ⟨off, size, _, fs, hoff, moved.trans moved', lists⟩

theorem asks_prpFetch (b host : Nat) (at' : s.cmds c = p.at off size) (hoff : off ≤ p.xferLen) (more : mps < p.xferLen - off) :
    ∃ t, (prpFetch P c b host mps).run s = some ((), t) ∧ Asks P c p mps s t := by
  obtain ⟨t, run, moved⟩ := run_prpFetch P c b host mps at'
  refine ⟨t, run, off, _, [], _, hoff, moved, fun f hf => ?_⟩
  rw [List.mem_singleton.mp hf]
  exact ⟨rfl, rfl, more⟩

theorem asks_prpLoop (b prpSize fuel i : Nat) (at' : s.cmds c = p.at off size) (hoff : off ≤ p.xferLen)
    (hlen : p.xferLen < 2 ^ 32) (run : (prpLoop P c b mps prpSize fuel i).run s = some ((), t)) : Asks P c p mps s t := by
  induction fuel generalizing i off s with
  | zero => cases run
  | succ fuel ih =>
    have left : (s.cmds c).xferLen = p.xferLen - off := by rw [at', NvmeCmdPriv.at]
    simp only [prpLoop, Prog.run_bind, ofCmd, Prog.run_look, Option.bind_some, left] at run
    by_cases more : p.xferLen - off > 0
    · rw [if_pos more] at run
      by_cases fits : (i + 1) * 8 ≤ P.nvmePrpListSize
      · by_cases link : i + 1 = prpSize / 8 ∧ p.xferLen - off > mps
        · simp only [if_pos link, prpEntry, if_pos fits, Prog.run_bind, Prog.run_look, Option.bind_some] at run
          obtain ⟨u, run', asks⟩ := asks_prpFetch (P := P) b (le (s.prpMem b) (8 * i) 8) at' hoff link.2
          rw [run'] at run
          cases run
          exact asks
        · simp only [if_neg link, prpEntry, if_pos fits, Prog.run_bind, Prog.run_look, Option.bind_some] at run
          have some' : (if mps > p.xferLen - off then p.xferLen - off else mps) ≤ p.xferLen - off := by split <;> omega
          obtain ⟨u, run', moved, -⟩ := run_transferChunk P c (le (s.prpMem b) (8 * i) 8) _ at' hoff some' hlen
          rw [run'] at run
          exact Asks.after moved (ih (i + 1) moved.cmd (by omega) run)
      · simp only [prpEntry, if_neg fits] at run
        split at run <;> cases run
    · rw [if_neg more] at run
      cases run
      have freed : Moved P c s (Fw.note { s with prpSlab := s.prpSlab.free b } (.prpFree c b)) (s.cmds c) [] [] :=
        .quiet rfl rfl rfl (submits_prpFree c b) (by simp [Served]) rfl
      exact .nothing hoff (at' ▸ freed)

/-- The first request of a command, unless it ends without one. -/
theorem asks_transferDataWithPrps (mps : s.tc.memoryPageSize ≠ 0) (hbuf : (s.cmds c).xferBuf < 2 ^ 32)
    (hlen : (s.cmds c).xferLen < 2 ^ 32) (run : (transferDataWithPrps P c).run s = some ((), t)) :
    Asks P c (s.cmds c) s.tc.memoryPageSize s t ∨
      t.tc.memoryPageSize = s.tc.memoryPageSize ∧ ∃ new, t.trace = new ++ s.trace ∧ listFetches c new = [] := by
  simp only [transferDataWithPrps, Prog.run_bind, ofCmd, Prog.run_look, Option.bind_some, if_neg mps] at run
  generalize hn : (if s.tc.memoryPageSize - (s.cmds c).sqBuf.prp1 % s.tc.memoryPageSize > (s.cmds c).xferLen then
    (s.cmds c).xferLen else s.tc.memoryPageSize - (s.cmds c).sqBuf.prp1 % s.tc.memoryPageSize) = n at run
  have le : n ≤ (s.cmds c).xferLen := by
    rw [← hn]
    split <;> omega
  obtain ⟨u, run', moved, -⟩ := run_transferChunk P c (s.cmds c).sqBuf.prp1 n (NvmeCmdPriv.at_zero hbuf).symm
    (Nat.zero_le _) (by omega) hlen
  rw [Nat.zero_add] at moved
  have left : (u.cmds c).xferLen = (s.cmds c).xferLen - n := by rw [moved.cmd, NvmeCmdPriv.at]
  rw [run'] at run
  simp only [Option.bind_some, left] at run
  split at run
  · cases run
    exact .inl (.nothing le moved)
  split at run
  · rename_i more
    rcases run_prpAlloc P c u with ⟨-, alloc⟩ | ⟨b, v, alloc, grabbed⟩
    · right
      simp only [Prog.run_bind, alloc, Option.bind_some] at run
      have returned := returned_of_run P run
      obtain ⟨new, trace, submits, -⟩ := moved.trace
      obtain ⟨after, trace', apart⟩ := returned.trace
      refine ⟨by rw [returned.page, ← moved.tc]; rfl, after ++ .noPrpBuffer c :: new, ?_, ?_⟩
      · rw [trace', Fw.note, trace, List.append_assoc, List.cons_append]
      · have nothing : listFetches c after = [] := by
          rw [listFetches, List.filterMap_eq_nil_iff.mpr fun o ho => (Obs.returns_submits_no_data c (apart o ho)).2]
          rfl
        have before := List.sublist_nil.mp submits.lists
        rw [listFetches_append, nothing, List.append_nil, ← List.singleton_append, listFetches_append, before]
        rfl
    · left
      have at' := grabbed.cmd.trans moved.cmd
      obtain ⟨w, run'', asks⟩ := asks_prpFetch (P := P) b (v.cmds c).sqBuf.prp2 at' le more
      simp only [Prog.run_bind, alloc, Option.bind_some, Prog.run_look, run''] at run
      cases run
      exact .after moved (.after grabbed asks)
  · left
    obtain ⟨v, run'', moved', -⟩ := run_transferChunk P c (u.cmds c).sqBuf.prp2 ((s.cmds c).xferLen - n) moved.cmd le
      (Nat.le_refl _) hlen
    simp only [Prog.run_bind, Prog.run_look, Option.bind_some, left, run''] at run
    cases run
    exact .after moved (.nothing (by omega) moved')

/-- What a request says of the record that waits for it. -/
structure Awaits (c : Slot) (t : Fw) (f : ListFetch) : Prop where
  paged : Paged t
  size : (t.cmds c).prpSize = f.len
  len : f.len = calcPrpSize f.host t.tc.memoryPageSize (t.cmds c).xferLen
  more : t.tc.memoryPageSize < (t.cmds c).xferLen
  word : (t.cmds c).xferLen < 2 ^ 32
  buf : (t.cmds c).xferBuf < 2 ^ 32

theorem Asks.waits {new : List Obs} {f : ListFetch} (asks : Asks P c p s.tc.memoryPageSize s t) (paged : Paged s)
    (hlen : p.xferLen < 2 ^ 32) (trace : t.trace = new ++ s.trace) (submitted : f ∈ listFetches c new) : Awaits c t f := by
  obtain ⟨off, size, ds, fs, hoff, moved, lists⟩ := asks
  obtain ⟨new', trace', submits, -⟩ := moved.trace
  obtain rfl := List.append_cancel_right (trace.symm.trans trace')
  obtain ⟨len, calc', more⟩ := lists f (submits.lists.mem submitted)
  have page := congrArg NvmeTcPriv.memoryPageSize moved.tc
  refine ⟨?_, ?_, ?_, ?_, ?_, ?_⟩
  · unfold Paged
    rw [page]
    exact paged
  · rw [moved.cmd, NvmeCmdPriv.at, len]
  · rw [moved.cmd, NvmeCmdPriv.at, page]
    exact calc'
  · rw [moved.cmd, NvmeCmdPriv.at, page]
    exact more
  · rw [moved.cmd, NvmeCmdPriv.at]
    exact Nat.lt_of_le_of_lt (Nat.sub_le _ _) hlen
  · rw [moved.cmd, NvmeCmdPriv.at]
    exact Nat.mod_lt _ (by decide)

theorem Requested.waits {f : ListFetch} (requested : Requested P c t f) : Awaits c t f := by
  induction requested with
  | @first a s t new f paged len buf run trace submitted =>
    by_cases psdt : (s.cmds c).sqBuf.psdt = 0
    · rw [run_nvmeCmdTransferData psdt] at run
      obtain ⟨r, ran, e⟩ := Option.map_eq_some_iff.mp run
      cases e
      rcases asks_transferDataWithPrps paged.pos.ne' buf len ran with asks | ⟨-, new', trace', none⟩
      · exact asks.waits paged len trace submitted
      · obtain rfl := List.append_cancel_right (trace.symm.trans trace')
        rw [none] at submitted
        cases submitted
    · rw [run_nvmeCmdTransferData_rejected psdt] at run
      cases run
      obtain rfl : new = [] := by simpa using trace
      cases submitted
  | @next t u v new f g before paged kept run trace submitted ih =>
    have word : (u.cmds c).xferLen < 2 ^ 32 := by
      rw [kept]
      exact ih.word
    have buf : (u.cmds c).xferBuf < 2 ^ 32 := by
      rw [kept]
      exact ih.buf
    simp only [prpCb, Prog.run_bind, ofCmd, Prog.run_look, Option.bind_some, if_neg paged.pos.ne'] at run
    exact (asks_prpLoop f.block _ _ 0 (NvmeCmdPriv.at_zero buf).symm (Nat.zero_le _) word run).waits paged word trace submitted

/-- The loop takes entries up to the last one that was requested, and ends there. -/
theorem prpLoop_inside (b prpSize fuel i : Nat) (at' : s.cmds c = p.at off size) (hoff : off ≤ p.xferLen)
    (hlen : p.xferLen < 2 ^ 32) (mpos : 0 < mps) (fits : prpSize / 8 * 8 ≤ P.nvmePrpListSize)
    (inside : i + 1 ≤ prpSize / 8 ∨ p.xferLen = off) (enough : p.xferLen - off < fuel) :
    ((prpLoop P c b mps prpSize fuel i).run s).isSome := by
  induction fuel generalizing i off s with
  | zero => exact absurd enough (Nat.not_lt_zero _)
  | succ fuel ih =>
    have left : (s.cmds c).xferLen = p.xferLen - off := by rw [at', NvmeCmdPriv.at]
    simp only [prpLoop, Prog.run_bind, ofCmd, Prog.run_look, Option.bind_some, left]
    by_cases more : p.xferLen - off > 0
    · have here : (i + 1) * 8 ≤ P.nvmePrpListSize := by
        have := inside.resolve_right (by omega)
        omega
      rw [if_pos more]
      by_cases link : i + 1 = prpSize / 8 ∧ p.xferLen - off > mps
      · simp only [if_pos link, prpEntry, if_pos here, Prog.run_bind, Prog.run_look, Option.bind_some]
        obtain ⟨u, run, -⟩ := run_prpFetch P c b (le (s.prpMem b) (8 * i) 8) mps at'
        rw [run]
        rfl
      · simp only [if_neg link, prpEntry, if_pos here, Prog.run_bind, Prog.run_look, Option.bind_some]
        generalize hn : (if mps > p.xferLen - off then p.xferLen - off else mps) = n
        have some' : 0 < n ∧ n ≤ p.xferLen - off ∧ (n = p.xferLen - off ∨ n = mps) := by
          rw [← hn]
          split <;> omega
        obtain ⟨u, run, moved, -⟩ := run_transferChunk P c (le (s.prpMem b) (8 * i) 8) n at' hoff some'.2.1 hlen
        rw [run]
        refine ih (i + 1) moved.cmd (by omega) ?_ (by omega)
        by_cases last : i + 1 = prpSize / 8
        · exact .inr (by omega)
        · exact .inl (by omega)
    · rw [if_neg more]
      rfl

/-- For a request of an entry at least, `prp_cb` keeps to it, whatever the page size has become. -/
theorem Awaits.within {f : ListFetch} (waits : Awaits c t f) (entry : 8 ≤ f.len) (paged : Paged u)
    (kept : u.cmds c = t.cmds c) : Within P c f u := by
  have buf : (u.cmds c).xferBuf < 2 ^ 32 := by
    rw [kept]
    exact waits.buf
  have size : (u.cmds c).prpSize = f.len := by
    rw [kept]
    exact waits.size
  have word : (u.cmds c).xferLen < 2 ^ 32 := by
    rw [kept]
    exact waits.word
  simp only [Within, prpCb, Prog.run_bind, ofCmd, Prog.run_look, Option.bind_some, if_neg paged.pos.ne', size]
  exact prpLoop_inside f.block f.len _ 0 (NvmeCmdPriv.at_zero buf).symm (Nat.zero_le _) word paged.pos
    (Nat.div_mul_le_self _ _) (.inl (by omega)) (by omega)

end

/-- Any list request of any command, for any page sizes, lengths and lists. -/
theorem listRequest_bounded_iff {t : Fw} {f : ListFetch} (requested : Requested P c t f) :
    Bounded P c t f ↔ ListFits t.tc.memoryPageSize P.nvmePrpListSize f.host (t.cmds c).xferLen := by
  have waits := requested.waits
  obtain ⟨k, lt, page⟩ := waits.paged
  have hmps : 2 ^ 12 ≤ t.tc.memoryPageSize := by
    rw [page]
    exact Nat.pow_le_pow_right (by decide) (by omega)
  have small : t.tc.memoryPageSize ≤ 2 ^ 32 := by
    rw [page]
    exact Nat.pow_le_pow_right (by decide) (by omega)
  rw [← calcPrpSize_bounds_iff f.host hmps small waits.word waits.more, ← waits.len]
  constructor
  · exact fun bounded => bounded.1
  · exact fun bounds => ⟨bounds, fun u paged kept => waits.within bounds.1 paged kept⟩

/-- Three pages behind `prp1`, listed at `prp2`. -/
def listedPages (prp2 : BitVec 32) : Fw where
  tc := { memoryPageSize := 2 ^ 12 }
  cmds _ :=
    { qid := admQueueId
      xferBase := dtInst1MmioSramBaseAddress, xferBuf := dtInst1MmioSramBaseAddress
      xferSize := 3 * 2 ^ 12, xferLen := 3 * 2 ^ 12
      xferCb := some .nvmeCmdReturnCb
      sqBuf := Function.update (fun _ => 0) 8 prp2 }

theorem requested_listedPages (prp2 : BitVec 32) : ∃ t f, Requested (board (2 ^ 12)) 0 t f ∧ f.host = prp2.toNat ∧
    t.tc.memoryPageSize = 2 ^ 12 ∧ (t.cmds 0).xferLen = 2 ^ 13 := by
  have base : dtInst1MmioSramBaseAddress < 2 ^ 32 := by decide
  have transfers : Transfers 0 (listedPages prp2) (2 ^ 12) 0 prp2.toNat (3 * 2 ^ 12) :=
    ⟨rfl, rfl, by simp [listedPages, SqBuf.prp2], rfl, base⟩
  rcases run_transferDataWithPrps_list (board (2 ^ 12)) 0 transfers (by decide) (by decide) rfl (by decide) with
    ⟨full, -⟩ | ⟨b, t, run, moved⟩
  · exact absurd full (by simp [listedPages, nvmePrpSlabSize])
  · obtain ⟨new, trace, submits, served, -⟩ := moved.trace
    have lists := (submits.all (served (by simp [listedPages, board]))).2
    have mem : (⟨prp2.toNat, b, calcPrpSize prp2.toNat (2 ^ 12) (3 * 2 ^ 12 - (2 ^ 12 - 0 % 2 ^ 12))⟩ : ListFetch) ∈
        listFetches 0 new := by
      rw [lists]
      exact List.mem_cons_self
    refine ⟨t, _, .first (a := false) ⟨0, by decide, rfl⟩ (by simp [listedPages]) base ?_ trace mem, rfl, ?_, ?_⟩
    · have psdt : ((listedPages prp2).cmds 0).sqBuf.psdt = 0 := by simp [listedPages, SqBuf.psdt]
      rw [run_nvmeCmdTransferData psdt, run]
      rfl
    · rw [moved.tc]
      rfl
    · rw [moved.cmd]
      simp only [NvmeCmdPriv.at, listedPages]
      decide

/-- An aligned list of two entries. -/
theorem alignedList_bounded : ∃ t f, Requested (board (2 ^ 12)) 0 t f ∧ f.host = 0x20000 ∧ Bounded (board (2 ^ 12)) 0 t f := by
  obtain ⟨t, f, requested, host, page, left⟩ := requested_listedPages 0x20000
  refine ⟨t, f, requested, host, (listRequest_bounded_iff _ _ requested).mpr ?_⟩
  rw [host, page, left]
  exact ⟨by decide, by decide, by decide⟩

/-- The list starts four bytes before the end of a page. -/
theorem lastBytes_beyond : ¬∀ (P : Platform) (c : Slot) (t : Fw) (f : ListFetch), Requested P c t f → Bounded P c t f := by
  intro claim
  obtain ⟨t, f, requested, host, page, left⟩ := requested_listedPages 0x20ffc
  have entry := (claim _ _ t f requested).1.1
  rw [requested.waits.len, host, page, left] at entry
  exact absurd entry (by decide)

end AlkaliFw
