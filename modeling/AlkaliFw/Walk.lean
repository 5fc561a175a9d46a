import AlkaliFw.Board
import AlkaliFw.Return
import AlkaliFw.Transfer

/-! The walk over a PRP description, from `nvme_cmd_transfer_data` through the invocations
of `prp_cb`. Between two of them the requested list arrives in its block and other commands
go on; the record of the command stays. -/

namespace AlkaliFw
open Resumption Prp

theorem le_congr {f g : Nat → UInt8} {a b : Nat} (n : Nat) (h : ∀ i < n, f (a + i) = g (b + i)) :
    le f a n = le g b n := by
  induction n generalizing a b with
  | zero => rfl
  | succ n ih =>
    have first := h 0 n.succ_pos
    have rest : ∀ i < n, f (a + 1 + i) = g (b + 1 + i) := by
      intro i hi
      have := h (i + 1) (by omega)
      rwa [show a + (i + 1) = a + 1 + i by omega, show b + (i + 1) = b + 1 + i by omega] at this
    simp only [Nat.add_zero] at first
    rw [le, le, first, ih rest]

/-- What `calc_prp_size` means: the entries of the pages that remain, within one page. -/
theorem calcPrpSize_eq (base : Nat) {mps len : Nat} (hmps : 2 ^ 12 ≤ mps) (small : mps < 2 ^ 31) (hlen : len ≤ 2 ^ 31) :
    calcPrpSize base mps len = min (8 * pages mps len) (mps - base % mps) := by
  have few : pages mps len ≤ 2 ^ 19 := by
    rw [pages_le_iff (by omega)]
    calc len ≤ 2 ^ 19 * 2 ^ 12 := by omega
      _ ≤ 2 ^ 19 * mps := Nat.mul_le_mul_left _ hmps
  have whole : (len + mps - 1) % 2 ^ 32 / mps = pages mps len := by
    rw [Nat.mod_eq_of_lt (by omega), pages]
  simp only [calcPrpSize, whole]
  rw [Nat.mod_eq_of_lt (show pages mps len * 8 < 2 ^ 32 by omega)]
  split <;> omega

section Loop

variable (P : Platform) (c : Slot) {mps : Nat}

/-- Entry `i` of the list in block `b`. -/
def listEntry (s : Fw) (b i : Nat) : Nat := le (s.prpMem b) (8 * i) 8

/-- One round of the loop that takes a data entry. -/
theorem run_prpLoop_step (b prpSize fuel i : Nat) {p : NvmeCmdPriv} {off size : Nat} {s : Fw} (at' : s.cmds c = p.at off size)
    (mpos : 0 < mps) (hlen : p.xferLen < 2 ^ 32) (left : 0 < p.xferLen - off)
    (data : ¬(i + 1 = prpSize / 8 ∧ mps < p.xferLen - off)) (fits : (i + 1) * 8 ≤ P.nvmePrpListSize) :
    ∃ t, (prpLoop P c b mps prpSize (fuel + 1) i).run s = (prpLoop P c b mps prpSize fuel (i + 1)).run t ∧
      Moved P c s t (p.at (off + min mps (p.xferLen - off)) size)
        [chunkOf c p ⟨listEntry s b i, off, min mps (p.xferLen - off)⟩] [] := by
  have len : (if mps > p.xferLen - off then p.xferLen - off else mps) = min mps (p.xferLen - off) := by
    split <;> omega
  obtain ⟨t, run, moved, slab⟩ := run_transferChunk P c (listEntry s b i) (min mps (p.xferLen - off)) at'
    (by omega) (by omega) hlen
  refine ⟨t, ?_, moved⟩
  have hleft : (s.cmds c).xferLen = p.xferLen - off := by rw [at', NvmeCmdPriv.at]
  simp only [prpLoop, Prog.run_bind, ofCmd, Prog.run_look, Option.bind_some, hleft, if_pos left, if_neg data,
    prpEntry, if_pos fits, len]
  simp only [listEntry] at run
  rw [run]
  rfl

/-- The data entries of a list: all but the last one, or all if they describe the rest. -/
theorem run_prpLoop (b prpSize : Nat) {p : NvmeCmdPriv} {off size : Nat} {s : Fw} (at' : s.cmds c = p.at off size)
    (mpos : 0 < mps) (hlen : p.xferLen < 2 ^ 32) (m fuel : Nat) (few : m ≤ pages mps (p.xferLen - off))
    (data : m < prpSize / 8 ∨ m = prpSize / 8 ∧ p.xferLen - off ≤ m * mps)
    (fits : m * 8 ≤ P.nvmePrpListSize) :
    ∃ t, (prpLoop P c b mps prpSize (fuel + m) 0).run s = (prpLoop P c b mps prpSize fuel m).run t ∧
      Moved P c s t (p.at (off + min (m * mps) (p.xferLen - off)) size)
        ((pieces mps off (p.xferLen - off) ((List.range m).map (listEntry s b))).map (chunkOf c p)) [] := by
  induction m generalizing fuel with
  | zero =>
    refine ⟨s, rfl, ?_⟩
    have whole : p.at (off + min (0 * mps) (p.xferLen - off)) size = s.cmds c := by
      rw [at', Nat.zero_mul, Nat.zero_min, Nat.add_zero]
    rw [whole]
    exact Moved.refl c s
  | succ m ih =>
    have more : m * mps < p.xferLen - off := (lt_pages_iff mpos _ _).mp (by omega)
    have next := Nat.add_one_mul m mps
    obtain ⟨t, run, moved⟩ := ih (fuel + 1) (by omega) (.inl (by omega)) (by omega)
    have off' : off + min (m * mps) (p.xferLen - off) = off + m * mps := by omega
    rw [off'] at moved
    obtain ⟨u, run', moved'⟩ := run_prpLoop_step P c b prpSize fuel m moved.cmd mpos hlen (by omega) (by omega) (by omega)
    refine ⟨u, ?_, ?_⟩
    · rw [← Nat.add_assoc, Nat.add_right_comm, run, run']
    · have both := moved.trans moved'
      have entry : listEntry t b m = listEntry s b m := by rw [listEntry, moved.prpMem, listEntry]
      have rest : p.xferLen - (off + m * mps) = p.xferLen - off - m * mps := by omega
      rw [List.range_succ, List.map_append, pieces_append]
      simp only [List.length_map, List.length_range, List.map_append, List.map_cons, List.map_nil, pieces,
        Nat.min_eq_left more.le]
      have moved_on : off + min ((m + 1) * mps) (p.xferLen - off) =
          off + m * mps + min mps (p.xferLen - off - m * mps) := by omega
      rw [entry, rest] at both
      rw [moved_on]
      exact both

/-- `prp_cb` on a list that describes the rest of the transfer. -/
theorem run_prpCb_last (b : Nat) {p : NvmeCmdPriv} {off n : Nat} {s : Fw} (at' : s.cmds c = p.at off (8 * n))
    (page : s.tc.memoryPageSize = mps) (mpos : 0 < mps) (hlen : p.xferLen < 2 ^ 32)
    (hn : n = pages mps (p.xferLen - off)) (fits : 8 * n ≤ P.nvmePrpListSize) :
    ∃ t, (prpCb P c (.prp b)).run s = some ((), t) ∧
      Moved P c s t (p.at (off + (p.xferLen - off)) (8 * n))
        ((pieces mps off (p.xferLen - off) ((List.range n).map (listEntry s b))).map (chunkOf c p)) [] := by
  have enough : p.xferLen - off ≤ n * mps := (pages_le_iff mpos _ _).mp hn.ge
  have fuel : p.xferLen - off + 1 = (p.xferLen - off - n) + 1 + n := by
    have := pages_le mpos (p.xferLen - off)
    omega
  obtain ⟨t, run, moved⟩ := run_prpLoop P c b (8 * n) at' mpos hlen n (p.xferLen - off - n + 1)
    hn.le (.inr ⟨by omega, enough⟩) (by omega)
  rw [Nat.min_eq_right enough] at moved
  have size : (s.cmds c).prpSize = 8 * n := by rw [at', NvmeCmdPriv.at]
  have left : (s.cmds c).xferLen = p.xferLen - off := by rw [at', NvmeCmdPriv.at]
  have nothing : (t.cmds c).xferLen = 0 := by
    rw [moved.cmd, NvmeCmdPriv.at]
    simp only
    omega
  simp only [prpCb, Prog.run_bind, ofCmd, Prog.run_look, Option.bind_some, page, if_neg mpos.ne', size, left,
    fuel, run]
  simp only [prpLoop, Prog.run_bind, ofCmd, Prog.run_look, Option.bind_some, nothing, gt_iff_lt, Nat.lt_irrefl,
    if_false, Prog.run_change]
  have freed : Moved P c t (Fw.note { t with prpSlab := t.prpSlab.free b } (.prpFree c b)) (t.cmds c) [] [] :=
    .quiet rfl rfl rfl (submits_prpFree c b) (by simp [Served]) rfl
  rw [moved.cmd] at freed
  exact ⟨_, rfl, by simpa using moved.trans freed⟩

/-- `prp_cb` on a list whose last entry is the address of another one. -/
theorem run_prpCb_link (b : Nat) {p : NvmeCmdPriv} {off k : Nat} {s : Fw} (at' : s.cmds c = p.at off (8 * (k + 1)))
    (page : s.tc.memoryPageSize = mps) (mpos : 0 < mps) (hlen : p.xferLen < 2 ^ 32)
    (more : k + 1 < pages mps (p.xferLen - off)) (fits : 8 * (k + 1) ≤ P.nvmePrpListSize) :
    ∃ t, (prpCb P c (.prp b)).run s = some ((), t) ∧
      Moved P c s t (p.at (off + k * mps) (calcPrpSize (listEntry s b k) mps (p.xferLen - (off + k * mps))))
        ((pieces mps off (p.xferLen - off) ((List.range k).map (listEntry s b))).map (chunkOf c p))
        [⟨listEntry s b k, b, calcPrpSize (listEntry s b k) mps (p.xferLen - (off + k * mps))⟩] := by
  have beyond : (k + 1) * mps < p.xferLen - off := (lt_pages_iff mpos _ _).mp more
  have next := Nat.add_one_mul k mps
  have fuel : p.xferLen - off + 1 = (p.xferLen - off - k) + 1 + k := by
    have := pages_le mpos (p.xferLen - off)
    omega
  have slots : 8 * (k + 1) / 8 = k + 1 := by omega
  obtain ⟨t, run, moved⟩ := run_prpLoop P c b (8 * (k + 1)) at' mpos hlen k
    (p.xferLen - off - k + 1) (by omega) (.inl (by omega)) (by omega)
  rw [show min (k * mps) (p.xferLen - off) = k * mps by omega] at moved
  have size : (s.cmds c).prpSize = 8 * (k + 1) := by rw [at', NvmeCmdPriv.at]
  have left : (s.cmds c).xferLen = p.xferLen - off := by rw [at', NvmeCmdPriv.at]
  have rest : (t.cmds c).xferLen = p.xferLen - (off + k * mps) := by rw [moved.cmd, NvmeCmdPriv.at]
  have entry : listEntry t b k = listEntry s b k := by rw [listEntry, moved.prpMem, listEntry]
  obtain ⟨u, run', moved'⟩ := run_prpFetch P c b (listEntry s b k) mps moved.cmd
  refine ⟨u, ?_, by simpa using moved.trans moved'⟩
  simp only [prpCb, Prog.run_bind, ofCmd, Prog.run_look, Option.bind_some, page, if_neg mpos.ne', size, left,
    fuel, run]
  have some' : 0 < p.xferLen - (off + k * mps) := by omega
  have more' : mps < p.xferLen - (off + k * mps) := by omega
  have fits' : (k + 1) * 8 ≤ P.nvmePrpListSize := by omega
  rw [listEntry] at entry
  simp only [prpLoop, Prog.run_bind, ofCmd, Prog.run_look, Option.bind_some, rest, slots, gt_iff_lt, some', more',
    true_and, if_true, prpEntry, if_pos fits', entry, run']

end Loop

section First

variable (P : Platform) (c : Slot) {mps : Nat} {s : Fw} {prp1 prp2 len room : Nat}

theorem NvmeCmdPriv.at_zero {p : NvmeCmdPriv} (h : p.xferBuf < 2 ^ 32) : p.at 0 p.prpSize = p := by
  cases p
  simp only [NvmeCmdPriv.at, Nat.sub_zero, Nat.add_zero] at h ⊢
  rw [Nat.mod_eq_of_lt h]

/-- The command `c` of `s` is to transfer `len` bytes described by `prp1` and `prp2`. -/
structure Transfers (c : Slot) (s : Fw) (mps prp1 prp2 len : Nat) : Prop where
  page : s.tc.memoryPageSize = mps
  prp1 : (s.cmds c).sqBuf.prp1 = prp1
  prp2 : (s.cmds c).sqBuf.prp2 = prp2
  xferLen : (s.cmds c).xferLen = len
  xferBuf : (s.cmds c).xferBuf < 2 ^ 32

theorem run_transferDataWithPrps_one (h : Transfers c s mps prp1 prp2 len) (mpos : 0 < mps) (pos : 0 < len)
    (hlen : len < 2 ^ 32) (fits : len ≤ mps - prp1 % mps) :
    ∃ t, (transferDataWithPrps P c).run s = some ((), t) ∧
      Moved P c s t ((s.cmds c).at len (s.cmds c).prpSize) [chunkOf c (s.cmds c) ⟨prp1, 0, len⟩] [] := by
  have whole : (if mps - prp1 % mps > len then len else mps - prp1 % mps) = len := by split <;> omega
  obtain ⟨t, run, moved, slab⟩ := run_transferChunk P c prp1 len
    (NvmeCmdPriv.at_zero h.xferBuf).symm (Nat.zero_le _) (by rw [h.xferLen]; omega) (by rw [h.xferLen]; omega)
  rw [Nat.zero_add] at moved
  have done : (t.cmds c).xferLen = 0 := by
    rw [moved.cmd, NvmeCmdPriv.at]
    simp only [h.xferLen, Nat.sub_self]
  refine ⟨t, ?_, moved⟩
  simp only [transferDataWithPrps, Prog.run_bind, ofCmd, Prog.run_look, Option.bind_some, h.page, h.prp1,
    if_neg mpos.ne', h.xferLen, whole, run, done, if_true]
  rfl

theorem run_transferDataWithPrps_two (h : Transfers c s mps prp1 prp2 len) (mpos : 0 < mps)
    (hlen : len < 2 ^ 32) (hroom : room = mps - prp1 % mps) (more : room < len) (fits : len - room ≤ mps) :
    ∃ t, (transferDataWithPrps P c).run s = some ((), t) ∧
      Moved P c s t ((s.cmds c).at len (s.cmds c).prpSize)
        [chunkOf c (s.cmds c) ⟨prp1, 0, room⟩, chunkOf c (s.cmds c) ⟨prp2, room, len - room⟩] [] := by
  have hmod := Nat.mod_lt prp1 mpos
  obtain ⟨t, run, moved, slab⟩ := run_transferChunk P c prp1 room
    (NvmeCmdPriv.at_zero h.xferBuf).symm (Nat.zero_le _) (by rw [h.xferLen]; omega) (by rw [h.xferLen]; omega)
  rw [Nat.zero_add] at moved
  obtain ⟨u, run', moved', -⟩ := run_transferChunk P c prp2 (len - room) moved.cmd (by rw [h.xferLen]; omega)
    (by rw [h.xferLen]) (by rw [h.xferLen]; omega)
  have left : (t.cmds c).xferLen = len - room := by
    rw [moved.cmd, NvmeCmdPriv.at]
    simp only [h.xferLen]
  have prp2' : (t.cmds c).sqBuf.prp2 = prp2 := by rw [moved.cmd, ← h.prp2, NvmeCmdPriv.at]
  rw [show room + (len - room) = len by omega] at moved'
  refine ⟨u, ?_, moved.trans moved'⟩
  simp only [transferDataWithPrps, Prog.run_bind, ofCmd, Prog.run_look, Option.bind_some, h.page, h.prp1,
    if_neg mpos.ne', h.xferLen, ← hroom, if_neg (show ¬room > len by omega), run, left, prp2',
    if_neg (show ¬len - room = 0 by omega), if_neg (show ¬len - room > mps by omega), run']

/-- Without a free block the command is returned; with one the first list is requested. -/
theorem run_transferDataWithPrps_list (h : Transfers c s mps prp1 prp2 len) (mpos : 0 < mps)
    (hlen : len < 2 ^ 32) (hroom : room = mps - prp1 % mps) (more : mps < len - room) :
    (nvmePrpSlabSize ≤ s.prpSlab.used.length ∧
      ∃ t : Fw, s.trace <:+ t.trace ∧
        (transferDataWithPrps P c).run s = (nvmeCmdReturn P c).run (t.note (.noPrpBuffer c))) ∨
    ∃ b t, (transferDataWithPrps P c).run s = some ((), t) ∧
      Moved P c s t ((s.cmds c).at room (calcPrpSize prp2 mps (len - room)))
        [chunkOf c (s.cmds c) ⟨prp1, 0, room⟩] [⟨prp2, b, calcPrpSize prp2 mps (len - room)⟩] := by
  have hmod := Nat.mod_lt prp1 mpos
  obtain ⟨t, run, moved, slab⟩ := run_transferChunk P c prp1 room
    (NvmeCmdPriv.at_zero h.xferBuf).symm (Nat.zero_le _) (by rw [h.xferLen]; omega) (by rw [h.xferLen]; omega)
  rw [Nat.zero_add] at moved
  have left : (t.cmds c).xferLen = len - room := by
    rw [moved.cmd, NvmeCmdPriv.at]
    simp only [h.xferLen]
  have prp2' : (t.cmds c).sqBuf.prp2 = prp2 := by rw [moved.cmd, ← h.prp2, NvmeCmdPriv.at]
  simp only [transferDataWithPrps, Prog.run_bind, ofCmd, Prog.run_look, Option.bind_some, h.page, h.prp1,
    if_neg mpos.ne', h.xferLen, ← hroom, if_neg (show ¬room > len by omega), run, left,
    if_neg (show ¬len - room = 0 by omega), if_pos (show len - room > mps by omega)]
  rcases run_prpAlloc P c t with ⟨full, alloc⟩ | ⟨b, t', alloc, grabbed⟩
  · left
    rw [slab] at full
    obtain ⟨new, e, -, -⟩ := moved.trace
    refine ⟨full, { t with clock := t.clock + 1 }, ⟨new, e.symm⟩, ?_⟩
    simp only [Prog.run_bind, alloc, Option.bind_some]
  · right
    rw [moved.cmd] at grabbed
    obtain ⟨u, run', moved'⟩ := run_prpFetch P c b prp2 mps grabbed.cmd
    refine ⟨b, u, ?_, by simpa [h.xferLen] using (moved.trans grabbed).trans moved'⟩
    have prp2'' : (t'.cmds c).sqBuf.prp2 = prp2 := by rw [grabbed.cmd, ← h.prp2, NvmeCmdPriv.at]
    simp only [Prog.run_bind, alloc, Option.bind_some, ofCmd, Prog.run_look, prp2'', run']
    rfl

/-- Whatever the PRPs are, the first chunk goes out. -/
theorem Transfers.submits (h : Transfers c s mps prp1 prp2 len) (mpos : 0 < mps) (pos : 0 < len)
    (hlen : len < 2 ^ 32) (descs : s.descSlab.used.length + 2 ≤ P.nvmeDmaSlabEntries)
    (blocks : s.prpSlab.used.length < nvmePrpSlabSize) :
    ∃ t new, (transferDataWithPrps P c).run s = some ((), t) ∧ t.trace = new ++ s.trace ∧ Served c new ∧
      dataChunks c new ≠ [] := by
  by_cases one : len ≤ mps - prp1 % mps
  · obtain ⟨t, run, moved⟩ := run_transferDataWithPrps_one P c h mpos pos hlen one
    obtain ⟨new, trace, submits, room, -⟩ := moved.trace
    have served := room (by simp; omega)
    exact ⟨t, new, run, trace, served, by simp [submits.all served]⟩
  by_cases two : len - (mps - prp1 % mps) ≤ mps
  · obtain ⟨t, run, moved⟩ := run_transferDataWithPrps_two P c h mpos hlen rfl (by omega) two
    obtain ⟨new, trace, submits, room, -⟩ := moved.trace
    have served := room (by simp; omega)
    exact ⟨t, new, run, trace, served, by simp [submits.all served]⟩
  · rcases run_transferDataWithPrps_list P c h mpos hlen rfl (by omega) with ⟨full, -⟩ | ⟨b, t, run, moved⟩
    · omega
    · obtain ⟨new, trace, submits, room, -⟩ := moved.trace
      have served := room (by simp; omega)
      exact ⟨t, new, run, trace, served, by simp [submits.all served]⟩

end First

theorem Obs.returns_submits_no_data (c : Slot) {o : Obs} (h : o.returns c) : o.dataChunk? c = none ∧ o.listFetch? c = none := by
  unfold returns at h
  split at h
  · rename_i d p
    obtain ⟨_, _, loc, _⟩ := d
    obtain rfl : loc = .cqBuf c := h.1
    exact ⟨rfl, rfl⟩
  · exact ⟨rfl, rfl⟩
  · exact ⟨rfl, rfl⟩
  · exact h.elim

section Walk

variable (P : Platform) (c : Slot) (host : Nat → UInt8) {α : Type} (prog : Code α)

/-- The list that `f` asks for has arrived between `t` and `u`; `host` is what it holds. -/
structure Delivered (f : ListFetch) (t u : Fw) : Prop where
  cmd : u.cmds c = t.cmds c
  page : u.tc.memoryPageSize = t.tc.memoryPageSize
  list : ∀ i < f.len, u.prpMem f.block i = host (f.host + i)

/-- A transfer that `prog` begins in `s`: after `k` invocations of `prp_cb` the trace has
grown by `new`. -/
inductive Walk (s : Fw) : (k : Nat) → (new : List Obs) → Fw → Prop where
  | start {a : α} {new : List Obs} {t : Fw} (run : prog.run s = some (a, t))
      (trace : t.trace = new ++ s.trace) : Walk s 0 new t
  | list {k : Nat} {new others more : List Obs} {t u v : Fw} {f : ListFetch} (walk : Walk s k new t)
      (pending : (listFetches c new)[k]? = some f) (delivered : Delivered c host f t u)
      (between : u.trace = others ++ t.trace) (apart : ∀ o ∈ others, o.about c = false)
      (run : (prpCb P c (.prp f.block)).run u = some ((), v)) (trace : v.trace = more ++ u.trace) :
      Walk s (k + 1) (more ++ (others ++ new)) v

/-- Where a transfer that `p` describes is after some invocations of `prp_cb`: a list of the
chain is on its way, or every chunk is submitted. -/
inductive Stage (p : NvmeCmdPriv) (mps : Nat) (cs : List Chunk) (lists : List Nat) (t : Fw) :
    (k : Nat) → List DataChunk → List ListFetch → Prop where
  | waiting {done : List Chunk} {fetched : List ListFetch} {off ptr b : Nat} {es ptrs : List Nat}
      (cmd : t.cmds c = p.at off (calcPrpSize ptr mps (p.xferLen - off)))
      (chain : Chain (fun a => le host a 8) mps ptr (pages mps (p.xferLen - off)) es ptrs)
      (chunks : cs = done ++ pieces mps off (p.xferLen - off) es)
      (names : lists = fetched.map (·.host) ++ ptrs) :
      Stage p mps cs lists t fetched.length (done.map (chunkOf c p))
        (fetched ++ [⟨ptr, b, calcPrpSize ptr mps (p.xferLen - off)⟩])
  | finished {fetched : List ListFetch} (names : lists = fetched.map (·.host)) :
      Stage p mps cs lists t fetched.length (cs.map (chunkOf c p)) fetched

variable {P c host prog}

theorem Stage.done_of_no_list {p : NvmeCmdPriv} {mps : Nat} {cs : List Chunk} {t : Fw} :
    Stage c host p mps cs [] t 0 (cs.map (chunkOf c p)) [] :=
  .finished (List.map_nil).symm

theorem Delivered.entry {f : ListFetch} {t u : Fw} (h : Delivered c host f t u) {i : Nat}
    (hi : 8 * (i + 1) ≤ f.len) : listEntry u f.block i = le host (f.host + 8 * i) 8 := by
  refine le_congr 8 fun j hj => ?_
  rw [h.list (8 * i + j) (by omega), Nat.add_assoc]

theorem Delivered.entries {f : ListFetch} {t u : Fw} (h : Delivered c host f t u) {n : Nat} (hn : 8 * n ≤ f.len) :
    (List.range n).map (listEntry u f.block) = read (fun a => le host a 8) f.host n := by
  refine List.map_congr_left fun i hi => h.entry ?_
  have := List.mem_range.mp hi
  omega

/-- One invocation of `prp_cb` on the list that was waited for. -/
theorem Stage.step {p : NvmeCmdPriv} {mps : Nat} {cs : List Chunk} {lists : List Nat} {t u : Fw} {k : Nat}
    {ds : List DataChunk} {fs : List ListFetch} {f : ListFetch} (stage : Stage c host p mps cs lists t k ds fs)
    (hmps : 2 ^ 12 ≤ mps) (small : mps < 2 ^ 31) (size : mps ≤ P.nvmePrpListSize) (hlen : p.xferLen ≤ 2 ^ 31)
    (pending : fs[k]? = some f) (delivered : Delivered c host f t u) (page : t.tc.memoryPageSize = mps) :
    ∃ v q es gs, (prpCb P c (.prp f.block)).run u = some ((), v) ∧ Moved P c u v q es gs ∧
      Stage c host p mps cs lists v (k + 1) (ds ++ es) (fs ++ gs) := by
  cases stage with
  | finished => simp at pending
  | @waiting done fetched off ptr b es ptrs cmd chain chunks names =>
    obtain rfl : ⟨ptr, b, calcPrpSize ptr mps (p.xferLen - off)⟩ = f := by simpa using pending
    have at' := delivered.cmd.trans cmd
    have page' := delivered.page.trans page
    have count (f : ListFetch) : fetched.length + 1 = (fetched ++ [f]).length := by
      rw [List.length_append, List.length_singleton]
    have csize := calcPrpSize_eq ptr hmps small (show p.xferLen - off ≤ 2 ^ 31 by omega)
    generalize hn : pages mps (p.xferLen - off) = n at chain csize
    cases chain with
    | last aligned fits =>
      rw [Nat.min_eq_left fits] at csize
      have entries := delivered.entries (n := n) (by rw [csize])
      rw [csize] at at'
      obtain ⟨v, run, moved⟩ := run_prpCb_last P c b at' page' (by omega) (by omega) hn.symm (by omega)
      rw [entries] at moved
      refine ⟨v, _, _, _, run, moved, ?_⟩
      rw [← List.map_append, ← chunks, List.append_nil]
      rw [count ⟨ptr, b, calcPrpSize ptr mps (p.xferLen - off)⟩]
      exact .finished (by rw [names, List.map_append, List.map_singleton])
    | @link _ _ m es' ptrs' aligned slots more rest =>
      rw [← slots, Nat.min_eq_right (by omega)] at csize
      have entries := delivered.entries (n := m) (by simp only [csize]; omega)
      have link := delivered.entry (i := m) (by rw [csize])
      rw [csize] at at'
      obtain ⟨v, run, moved⟩ := run_prpCb_link P c b at' page' (by omega) (by omega)
        (by rw [hn]; exact more) (by omega)
      rw [entries, link] at moved
      refine ⟨v, _, _, _, run, moved, ?_⟩
      have beyond : (m + 1) * mps < p.xferLen - off := (lt_pages_iff (by omega) _ _).mp (by rw [hn]; exact more)
      have grow := Nat.add_one_mul m mps
      have left := pages_sub (show 0 < mps by omega) (p.xferLen - off) m
      rw [hn, show p.xferLen - off - m * mps = p.xferLen - (off + m * mps) by omega] at left
      rw [← left] at rest
      rw [← List.map_append]
      rw [count ⟨ptr, b, calcPrpSize ptr mps (p.xferLen - off)⟩]
      refine .waiting moved.cmd rest ?_ (by rw [names, List.map_append, List.map_singleton, List.append_assoc]; rfl)
      rw [chunks, pieces_append, length_read, List.append_assoc,
        Nat.min_eq_left (show m * mps ≤ p.xferLen - off by omega), Nat.sub_sub]

theorem run_nvmeCmdTransferData {s : Fw} (psdt : (s.cmds c).sqBuf.psdt = 0) :
    (nvmeCmdTransferData P c).run s = ((transferDataWithPrps P c).run s).map fun r => (false, r.2) := by
  simp only [nvmeCmdTransferData, Prog.run_bind, ofCmd, Prog.run_look, Option.bind_some, psdt, ne_eq,
    not_true_eq_false, if_false]
  cases (transferDataWithPrps P c).run s <;> rfl

theorem run_nvmeCmdTransferData_rejected {s : Fw} (psdt : (s.cmds c).sqBuf.psdt ≠ 0) :
    (nvmeCmdTransferData P c).run s = some (true, s) := by
  simp only [nvmeCmdTransferData, Prog.run_bind, ofCmd, Prog.run_look, Option.bind_some, if_pos psdt]
  rfl

/-- The walk starts on the reference description, if a list block can be had. -/
theorem Stage.start {s : Fw} {mps prp1 prp2 len : Nat} {cs : List Chunk} {lists : List Nat}
    (h : Transfers c s mps prp1 prp2 len) (psdt : (s.cmds c).sqBuf.psdt = 0) (mpos : 0 < mps) (pos : 0 < len)
    (hlen : len ≤ 2 ^ 31) (describes : Describes (fun a => le host a 8) mps prp1 prp2 len cs lists) :
    (∃ t q ds fs, (nvmeCmdTransferData P c).run s = some (false, t) ∧ Moved P c s t q ds fs ∧
      Stage c host (s.cmds c) mps cs lists t 0 ds fs) ∨
    (nvmePrpSlabSize ≤ s.prpSlab.used.length ∧ ∀ a t new, (nvmeCmdTransferData P c).run s = some (a, t) →
      t.trace = new ++ s.trace → ¬Served c new) := by
  rw [run_nvmeCmdTransferData psdt]
  cases describes with
  | one fits =>
    obtain ⟨t, run, moved⟩ := run_transferDataWithPrps_one P c h mpos pos (by omega) fits
    exact .inl ⟨t, _, _, _, by rw [run]; rfl, moved, Stage.done_of_no_list⟩
  | two hroom more fits =>
    obtain ⟨t, run, moved⟩ := run_transferDataWithPrps_two P c h mpos (by omega) hroom more fits
    exact .inl ⟨t, _, _, _, by rw [run]; rfl, moved, Stage.done_of_no_list⟩
  | @list room es lists hroom more chain =>
    rcases run_transferDataWithPrps_list P c h mpos (by omega) hroom more with
      ⟨full, t, ⟨grown, old⟩, run⟩ | ⟨b, t, run, moved⟩
    · refine .inr ⟨full, fun a u new run' trace served => ?_⟩
      rw [run] at run'
      obtain ⟨⟨_, v⟩, ret, e⟩ := Option.map_eq_some_iff.mp run'
      cases e
      obtain ⟨after, e, -⟩ := (returned_of_run P ret).trace
      have longer : t.note (.noPrpBuffer c) = { t with trace := (.noPrpBuffer c :: grown) ++ s.trace } := by
        rw [Fw.note, List.cons_append, old]
      rw [longer, trace, ← List.append_assoc] at e
      have : new = after ++ .noPrpBuffer c :: grown := List.append_cancel_right e
      exact served.2 (by simp [this])
    · refine .inl ⟨t, _, _, _, by rw [run]; rfl, moved, ?_⟩
      rw [← h.xferLen] at moved chain ⊢
      have waiting : Stage c host (s.cmds c) mps
          ([⟨prp1, 0, room⟩] ++ pieces mps room ((s.cmds c).xferLen - room) es) lists t ([] : List ListFetch).length
          ([⟨prp1, 0, room⟩].map (chunkOf c (s.cmds c)))
          ([] ++ [⟨prp2, b, calcPrpSize prp2 mps ((s.cmds c).xferLen - room)⟩]) :=
        .waiting moved.cmd chain rfl rfl
      exact waiting

/-- Every walk of a served command follows the reference description. -/
theorem Walk.stage {s t : Fw} {mps prp1 prp2 len k : Nat} {cs : List Chunk} {lists : List Nat} {new : List Obs}
    (walk : Walk P c host (nvmeCmdTransferData P c) s k new t) (served : Served c new) (h : Transfers c s mps prp1 prp2 len)
    (psdt : (s.cmds c).sqBuf.psdt = 0) (hmps : 2 ^ 12 ≤ mps) (small : mps < 2 ^ 31)
    (size : mps ≤ P.nvmePrpListSize) (pos : 0 < len) (hlen : len ≤ 2 ^ 31)
    (describes : Describes (fun a => le host a 8) mps prp1 prp2 len cs lists) :
    t.tc.memoryPageSize = mps ∧
      Stage c host (s.cmds c) mps cs lists t k (dataChunks c new) (listFetches c new) := by
  induction walk with
  | start run trace =>
    rcases Stage.start (P := P) h psdt (by omega) pos hlen describes with
      ⟨t', q, ds, fs, run', moved, stage⟩ | ⟨-, unserved⟩
    · obtain ⟨-, rfl⟩ := Prod.mk.inj (Option.some.inj (run.symm.trans run'))
      obtain ⟨new', e, submits, -, -⟩ := moved.trace
      obtain rfl := List.append_cancel_right (trace.symm.trans e)
      obtain ⟨rfl, rfl⟩ := submits.all served
      exact ⟨by rw [moved.tc, h.page], stage⟩
    · exact absurd served (unserved _ _ _ run trace)
  | @list k new others more t u v f walk pending delivered between apart run trace ih =>
    obtain ⟨servedMore, servedRest⟩ := (served_append c more _).mp served
    obtain ⟨page, stage⟩ := ih ((served_append c others new).mp servedRest).2
    obtain ⟨v', q, es, gs, run', moved, stage'⟩ := stage.step hmps small size (by rw [h.xferLen]; omega) pending
      delivered page
    obtain ⟨-, rfl⟩ := Prod.mk.inj (Option.some.inj (run.symm.trans run'))
    obtain ⟨new', e, submits, -, -⟩ := moved.trace
    obtain rfl := List.append_cancel_right (trace.symm.trans e)
    obtain ⟨rfl, rfl⟩ := submits.all servedMore
    rw [dataChunks_append, listFetches_append, dataChunks_append, listFetches_append, dataChunks_others apart,
      listFetches_others apart, List.append_nil, List.append_nil]
    exact ⟨by rw [moved.tc, delivered.page, page], stage'⟩

theorem Stage.sofar {p : NvmeCmdPriv} {mps : Nat} {cs : List Chunk} {lists : List Nat} {t : Fw} {k : Nat}
    {ds : List DataChunk} {fs : List ListFetch} (stage : Stage c host p mps cs lists t k ds fs) :
    k ≤ lists.length ∧ fs.map (·.host) = lists.take (k + 1) ∧ ds <+: cs.map (chunkOf c p) ∧
      (k = lists.length → ds = cs.map (chunkOf c p)) ∧ (k < lists.length → ∃ f, fs[k]? = some f) := by
  cases stage with
  | finished names =>
    rw [names, List.length_map, List.take_of_length_le (by simp)]
    exact ⟨le_rfl, rfl, List.prefix_refl _, fun _ => rfl, fun h => absurd h (Nat.lt_irrefl _)⟩
  | waiting cmd chain chunks names =>
    obtain ⟨rest, rfl⟩ := chain.head
    rw [names, chunks, List.map_append, List.map_append]
    refine ⟨by simp, ?_, List.prefix_append _ _, fun h => absurd h (by simp), fun _ => ⟨_, List.getElem?_concat_length⟩⟩
    rw [List.take_append, List.length_map, List.take_of_length_le (by simp), Nat.add_sub_cancel_left]
    rfl

/-- What the program begins with is all that matters. -/
theorem Walk.of_start {β : Type} {prog' : Code β} {s s' t : Fw} {k : Nat} {new : List Obs}
    (walk : Walk P c host prog s k new t) (trace : s'.trace = s.trace)
    (start : ∀ a t, prog.run s = some (a, t) → ∃ b, prog'.run s' = some (b, t)) :
    Walk P c host prog' s' k new t := by
  induction walk with
  | start run grown =>
    obtain ⟨b, run'⟩ := start _ _ run
    exact .start run' (by rw [grown, trace])
  | list _ pending delivered between apart run grown ih => exact .list ih pending delivered between apart run grown

variable (P c host)

/-- The chunks that `nvme_cmd_transfer_data` and the invocations of `prp_cb` submit are those
of the PRP description, in order, and the last of them carries the callback. -/
theorem prpWalk_eq_description (s : Fw) {k len : Nat} {cs : List Chunk} {lists : List Nat}
    (hk : 12 ≤ k) (small : k < 31) (buffer : 2 ^ k ≤ P.nvmePrpListSize) (page : s.tc.memoryPageSize = 2 ^ k)
    (psdt : (s.cmds c).sqBuf.psdt = 0) (base : (s.cmds c).xferBuf = (s.cmds c).xferBase)
    (word : (s.cmds c).xferBase < 2 ^ 32) (length : (s.cmds c).xferLen = len) (pos : 0 < len) (hlen : len ≤ 2 ^ 31)
    (describes : Describes (fun a => le host a 8) (2 ^ k) (s.cmds c).sqBuf.prp1 (s.cmds c).sqBuf.prp2 len cs lists) :
    Tiles 0 len cs ∧
    (s.prpSlab.used.length < nvmePrpSlabSize → ∃ t, (nvmeCmdTransferData P c).run s = some (false, t)) ∧
    ∀ n new t, Walk P c host (nvmeCmdTransferData P c) s n new t → Served c new →
      let reference := cs.map fun chunk : Chunk =>
        DataChunk.mk (s.cmds c).dir.chan chunk.host (((s.cmds c).xferBase + chunk.off) % 2 ^ 32) chunk.len
          (if chunk.off + chunk.len = len then (s.cmds c).xferCb.map (·, c) else none)
      n ≤ lists.length ∧ (listFetches c new).map (·.host) = lists.take (n + 1) ∧
      dataChunks c new <+: reference ∧
      (n = lists.length → dataChunks c new = reference) ∧
      (n < lists.length → ∃ f, (listFetches c new)[n]? = some f ∧
        ∀ u, Delivered c host f t u → ∃ v, (prpCb P c (.prp f.block)).run u = some ((), v)) := by
  have hmps : 2 ^ 12 ≤ 2 ^ k := Nat.pow_le_pow_right (by decide) hk
  have hmps' : 2 ^ k < 2 ^ 31 := Nat.pow_lt_pow_right (by decide) small
  have transfers : Transfers c s (2 ^ k) (s.cmds c).sqBuf.prp1 (s.cmds c).sqBuf.prp2 len :=
    ⟨page, rfl, rfl, length, by rw [base]; exact word⟩
  refine ⟨describes.tiles _ _ (by omega) pos, fun free => ?_, fun n new t walk served => ?_⟩
  · rcases Stage.start (P := P) transfers psdt (by omega) pos hlen describes with ⟨t, -, -, -, run, -⟩ | ⟨full, -⟩
    · exact ⟨t, run⟩
    · omega
  · obtain ⟨page', stage⟩ := walk.stage served transfers psdt hmps hmps' buffer pos hlen describes
    obtain ⟨le, fetched, sofar, all, pending⟩ := stage.sofar
    have reference : cs.map (chunkOf c (s.cmds c)) = cs.map fun chunk : Chunk =>
        DataChunk.mk (s.cmds c).dir.chan chunk.host (((s.cmds c).xferBase + chunk.off) % 2 ^ 32) chunk.len
          (if chunk.off + chunk.len = len then (s.cmds c).xferCb.map (·, c) else none) := by
      refine List.map_congr_left fun chunk _ => ?_
      rw [chunkOf, base, length]
    rw [reference] at sofar all
    refine ⟨le, fetched, sofar, all, fun more => ?_⟩
    obtain ⟨f, hf⟩ := pending more
    refine ⟨f, hf, fun u delivered => ?_⟩
    obtain ⟨v, -, -, -, run, -⟩ := stage.step hmps hmps' buffer (by omega) hf delivered page'
    exact ⟨v, run⟩

/-- Three pages that start at a page boundary: one list with two entries. -/
def threePages : Fw where
  tc := { memoryPageSize := 2 ^ 12 }
  cmds _ :=
    { qid := admQueueId
      xferBase := dtInst1MmioSramBaseAddress, xferBuf := dtInst1MmioSramBaseAddress
      xferSize := 3 * 2 ^ 12, xferLen := 3 * 2 ^ 12
      xferCb := some .nvmeCmdReturnCb
      sqBuf := Function.update (fun _ => 0) 8 0x20000 }

theorem prpWalk_threePages :
    Tiles 0 (3 * 2 ^ 12) [⟨0, 0, 2 ^ 12⟩, ⟨0, 2 ^ 12, 2 ^ 12⟩, ⟨0, 2 ^ 13, 2 ^ 12⟩] ∧
    ∃ t, (nvmeCmdTransferData (board (2 ^ 12)) 0).run threePages = some (false, t) := by
  have describes : Describes (fun a => le (fun _ => 0) a 8) (2 ^ 12) 0 0x20000 (3 * 2 ^ 12)
      [⟨0, 0, 2 ^ 12⟩, ⟨0, 2 ^ 12, 2 ^ 12⟩, ⟨0, 2 ^ 13, 2 ^ 12⟩] [0x20000] :=
    .list rfl (by decide) (.last (by decide) (by decide))
  have walk := prpWalk_eq_description (board (2 ^ 12)) 0 (fun _ => 0) threePages (k := 12) (by decide) (by decide) le_rfl
    rfl (by decide) rfl (by decide) rfl (by decide) (by decide) describes
  exact ⟨walk.1, walk.2.1 (by decide)⟩

end Walk
end AlkaliFw
