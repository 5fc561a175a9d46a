import AlkaliFw.Board
import AlkaliFw.Span
import AlkaliFw.System

/-! Vendor commands and their buffers. The block is taken if the opcode has a direction and
the size is a positive `int`; data are moved unless the size is zero or the direction is to
the host. Where the two tests disagree, the transfer goes to local address zero. -/

namespace AlkaliFw
open Resumption Prp

namespace SqBuf

def direction (b : SqBuf) : Nat := b.opc % 4
def vendorSize (b : SqBuf) : Nat := bufferSize b.ndt

theorem vendorSize_lt (b : SqBuf) : b.vendorSize < 2 ^ 32 := Nat.mod_lt _ (by decide)

/-- A zero-based count becomes the count. -/
def adjust (b : SqBuf) (zeroBased : Bool) : SqBuf :=
  if zeroBased then Function.update b 10 (b 10 + 1) else b

end SqBuf

/-- `len` bytes at `addr` are none, or lie in the live block of the command `c`, whose opcode
has a direction. -/
def Inside (c : Slot) (s : Fw) (addr len : Nat) : Prop :=
  len = 0 ∨ (s.cmds c).sqBuf.direction ≠ nvmeCmdXferNone ∧ ∃ l ∈ s.pool, l.owner = c ∧
    l.block = (s.cmds c).block ∧ l.block.data ≤ addr ∧ addr + len ≤ l.block.data + l.size

/-- The local range that an event gives to the DMA engine or to the APU for `c`. -/
def Obs.range? (c : Slot) : Obs → Option (Nat × Nat)
  | .sent m => if m.priv = c then some (m.buf, m.bufLen) else none
  | o => (o.dataChunk? c).map fun d => (d.addr, d.len)

/-- Every range handed over from `s` to `t` lies in the block. -/
def Contained (c : Slot) (t : Fw) (new : List Obs) : Prop :=
  ∀ o ∈ new, ∀ addr len, o.range? c = some (addr, len) → Inside c t addr len

section

variable (P : Platform) (c : Slot)

/-- An invocation on behalf of `c` that something in `new` has asked for. The block stays. -/
inductive VendorStep (new : List Obs) (t v : Fw) : Prop where
  | list {f : ListFetch} (asked : f ∈ listFetches c new) (run : (prpCb P c (.prp f.block)).run t = some ((), v))
  | vendor {d : DataChunk} (asked : d ∈ dataChunks c new) (last : d.callback = some (.vendorCb, c))
      (run : (vendorCb P c).run t = some ((), v))
  | replyData {m : RpmsgPayload} (asked : .sent m ∈ new) (priv : m.priv = c)
      (run : (rpmsgEndpointCb P { m with id := rpmsgCmdReturnDataId }).run t = some ((), v))

/-- An invocation that releases the block. -/
inductive VendorEnd (new : List Obs) (t v : Fw) : Prop where
  | reply {m : RpmsgPayload} (asked : .sent m ∈ new) (priv : m.priv = c)
      (run : (rpmsgEndpointCb P { m with id := rpmsgCmdReturn }).run t = some ((), v))
  | returned {d : DataChunk} (asked : d ∈ dataChunks c new) (last : d.callback = some (.rpmsgCmdReturnCb, c))
      (run : (rpmsgCmdReturnCb P c).run t = some ((), v))

/-- Others act between two invocations; they leave the record of `c` and its block alone. -/
structure Apart (t u : Fw) (between : List Obs) : Prop where
  cmd : u.cmds c = t.cmds c
  page : u.tc.memoryPageSize = t.tc.memoryPageSize
  block : ∀ l ∈ t.pool, l.owner = c → l ∈ u.pool
  trace : u.trace = between ++ t.trace
  events : ∀ o ∈ between, o.about c = false ∧ ∀ m, o = .sent m → m.priv ≠ c

/-- What becomes of a vendor command that is handled in `s`, up to the release of its block. -/
inductive VendorRun (zeroBased : Bool) (s : Fw) : (new : List Obs) → Fw → Prop where
  | handled {new : List Obs} {t : Fw} (run : (nvmeCmdVendor P c zeroBased).run s = some ((), t))
      (trace : t.trace = new ++ s.trace) : VendorRun zeroBased s new t
  | others {new between : List Obs} {t u : Fw} (soFar : VendorRun zeroBased s new t) (apart : Apart c t u between) :
      VendorRun zeroBased s (between ++ new) u
  | step {new more : List Obs} {t v : Fw} (soFar : VendorRun zeroBased s new t) (step : VendorStep P c new t v)
      (trace : v.trace = more ++ t.trace) : VendorRun zeroBased s (more ++ new) v

/-- All that a vendor command gives away lies in its block. -/
structure VendorContained (zeroBased : Bool) (s : Fw) : Prop where
  handler : ∀ t new, (nvmeCmdVendor P c zeroBased).run s = some ((), t) → t.trace = new ++ s.trace → Contained c t new
  later : ∀ new more t v, VendorRun P c zeroBased s new t → VendorStep P c new t v ∨ VendorEnd P c new t v →
    v.trace = more ++ t.trace → Contained c v more

/-- The requests for which both tests of `nvme_cmd_vendor` agree, or nothing is handed over
at all. -/
def VendorFits (zeroBased : Bool) (s : Fw) : Prop :=
  let b := (s.cmds c).sqBuf.adjust zeroBased
  b.vendorSize = 0 ∨ (b.direction ≠ nvmeCmdXferNone ∧ b.vendorSize < 2 ^ 31) ∨
    (b.direction ≠ nvmeCmdXferToHost ∧ (b.psdt ≠ 0 ∨ P.nvmeDmaSlabEntries ≤ s.descSlab.used.length)) ∨
    (b.direction = nvmeCmdXferToHost ∧ ¬(P.kMalloc s.clock = true ∧ P.rpmsgSend (s.clock + 1) = true))

instance (zeroBased : Bool) (s : Fw) : Decidable (VendorFits P c zeroBased s) := by
  unfold VendorFits
  infer_instance

end

/-! What an invocation keeps. -/

section Guarded

variable {c : Slot}

theorem Inside.of_eq {s t : Fw} {addr len : Nat} (h : Inside c s addr len)
    (sqBuf : (t.cmds c).sqBuf = (s.cmds c).sqBuf) (block : (t.cmds c).block = (s.cmds c).block)
    (pool : ∀ l ∈ s.pool, l.owner = c → l ∈ t.pool) : Inside c t addr len := by
  rcases h with empty | ⟨dir, l, live, owner, held, range⟩
  · exact .inl empty
  · exact .inr ⟨by rwa [sqBuf], l, pool l live owner, owner, by rw [block, held], range⟩

theorem Inside.sub {s : Fw} {addr len a n : Nat} (h : Inside c s addr len) (lo : addr ≤ a) (hi : a + n ≤ addr + len) :
    Inside c s a n := by
  rcases h with empty | ⟨dir, l, live, owner, held, first, last⟩
  · exact .inl (by omega)
  · exact .inr ⟨dir, l, live, owner, held, by omega, by omega⟩

theorem Obs.returns.range_none {o : Obs} (h : o.returns c) : o.range? c = none := by
  unfold returns at h
  split at h
  · rename_i d p
    obtain ⟨_, _, loc, _⟩ := d
    obtain rfl : loc = .cqBuf c := h.1
    rfl
  · rfl
  · rfl
  · exact h.elim

/-- The transfer and the buffer of `c` lie in its block. -/
structure Guarded (c : Slot) (s : Fw) : Prop where
  buf : (s.cmds c).xferBuf < 2 ^ 32
  len : (s.cmds c).xferLen < 2 ^ 32
  data : (s.cmds c).block.data < 2 ^ 32
  region : Inside c s (s.cmds c).xferBuf (s.cmds c).xferLen
  buffer : Inside c s (s.cmds c).block.data (s.cmds c).sqBuf.vendorSize

/-- From `s` to `t` the command stays guarded, nothing is sent, and what is submitted lies in
the block. -/
structure Carried (c : Slot) (s t : Fw) : Prop where
  guarded : Guarded c t
  sqBuf : (t.cmds c).sqBuf = (s.cmds c).sqBuf
  block : (t.cmds c).block = (s.cmds c).block
  pool : t.pool = s.pool
  trace : ∃ new, t.trace = new ++ s.trace ∧ Contained c t new ∧ ∀ m, .sent m ∉ new

theorem Contained.of_eq {s t : Fw} {new : List Obs} (h : Contained c s new)
    (sqBuf : (t.cmds c).sqBuf = (s.cmds c).sqBuf) (block : (t.cmds c).block = (s.cmds c).block)
    (pool : ∀ l ∈ s.pool, l.owner = c → l ∈ t.pool) : Contained c t new :=
  fun o ho addr len range => (h o ho addr len range).of_eq sqBuf block pool

theorem Contained.append {t : Fw} {new old : List Obs} (h : Contained c t new) (g : Contained c t old) :
    Contained c t (new ++ old) :=
  fun o ho => (List.mem_append.mp ho).elim (h o) (g o)

theorem contained_of_range_none {t : Fw} {new : List Obs} (h : ∀ o ∈ new, o.range? c = none) : Contained c t new := by
  intro o ho addr len range
  rw [h o ho] at range
  cases range

theorem Carried.trans {s t u : Fw} (h : Carried c s t) (g : Carried c t u) : Carried c s u where
  guarded := g.guarded
  sqBuf := g.sqBuf.trans h.sqBuf
  block := g.block.trans h.block
  pool := g.pool.trans h.pool
  trace := by
    obtain ⟨new, e, contained, silent⟩ := h.trace
    obtain ⟨new', e', contained', silent'⟩ := g.trace
    refine ⟨new' ++ new, by rw [e', e, List.append_assoc], ?_, fun m hm => ?_⟩
    · exact contained'.append (contained.of_eq g.sqBuf g.block fun l hl _ => g.pool ▸ hl)
    · exact (List.mem_append.mp hm).elim (silent' m) (silent m)

theorem Submits.contained {t : Fw} {new : List Obs} {ds : List DataChunk} {fs : List ListFetch}
    (h : Submits c new ds fs) (inside : ∀ d ∈ ds, Inside c t d.addr d.len) :
    Contained c t new ∧ ∀ m, .sent m ∉ new := by
  constructor
  · intro o ho addr len range
    have moves := h.moves o ho
    cases o with
    | sent m => exact moves.elim
    | queued ch d p =>
      obtain ⟨e, he, pair⟩ := Option.map_eq_some_iff.mp range
      cases pair
      refine inside e (h.data.mem ?_)
      rw [dataChunks, List.mem_reverse, List.mem_filterMap]
      exact ⟨_, ho, he⟩
    | _ => cases range
  · intro m hm
    exact (h.moves _ hm).elim

theorem inside_chunk {s : Fw} {p : NvmeCmdPriv} {k : Chunk} (h : Inside c s p.xferBuf p.xferLen)
    (hk : k.off + k.len ≤ p.xferLen) : Inside c s (chunkOf c p k).addr (chunkOf c p k).len := by
  by_cases empty : k.len = 0
  · exact .inl empty
  rcases h with none | ⟨dir, l, live, owner, held, first, last⟩
  · omega
  · have bound := l.bound.2
    refine .inr ⟨dir, l, live, owner, held, ?_⟩
    simp only [chunkOf]
    rw [Nat.mod_eq_of_lt (by omega)]
    omega

theorem Guarded.spans {s t : Fw} (h : Guarded c s) (spans : Spans P c (s.cmds c) s t) : Carried c s t := by
  obtain ⟨off, size, ks, fs, hoff, moved, inside⟩ := spans
  have cmd := moved.cmd
  have sqBuf : (t.cmds c).sqBuf = (s.cmds c).sqBuf := by rw [cmd, NvmeCmdPriv.at]
  have block : (t.cmds c).block = (s.cmds c).block := by rw [cmd, NvmeCmdPriv.at]
  have buf : (t.cmds c).xferBuf = ((s.cmds c).xferBuf + off) % 2 ^ 32 := by rw [cmd, NvmeCmdPriv.at]
  have len : (t.cmds c).xferLen = (s.cmds c).xferLen - off := by rw [cmd, NvmeCmdPriv.at]
  have pool : ∀ l ∈ s.pool, l.owner = c → l ∈ t.pool := fun l hl _ => moved.pool ▸ hl
  have hlen := h.len
  obtain ⟨new, trace, submits, -, -⟩ := moved.trace
  obtain ⟨contained, silent⟩ := submits.contained (t := t) (by
    intro d hd
    obtain ⟨k, hk, rfl⟩ := List.mem_map.mp hd
    exact (inside_chunk h.region (inside k hk)).of_eq sqBuf block pool)
  refine ⟨⟨by rw [buf]; exact Nat.mod_lt _ (by decide), by omega, by rw [block]; exact h.data, ?_, ?_⟩, sqBuf, block,
    moved.pool, new, trace, contained, silent⟩
  · have rest := inside_chunk (k := ⟨0, off, (s.cmds c).xferLen - off⟩) h.region (by simp only; omega)
    rw [buf, len]
    exact rest.of_eq sqBuf block pool
  · rw [block, sqBuf]
    exact h.buffer.of_eq sqBuf block pool

theorem Guarded.returned {s t : Fw} (h : Guarded c s) (returned : Returned c s t) : Carried c s t := by
  obtain ⟨e, cmds⟩ := returned.cmd
  have cmd : t.cmds c = { s.cmds c with cqBuf := e } := by rw [cmds, Function.update_self]
  have sqBuf : (t.cmds c).sqBuf = (s.cmds c).sqBuf := by rw [cmd]
  have block : (t.cmds c).block = (s.cmds c).block := by rw [cmd]
  have pool : ∀ l ∈ s.pool, l.owner = c → l ∈ t.pool := fun l hl _ => returned.pool ▸ hl
  obtain ⟨new, trace, all⟩ := returned.trace
  refine ⟨⟨by rw [cmd]; exact h.buf, by rw [cmd]; exact h.len, by rw [cmd]; exact h.data, ?_, ?_⟩, sqBuf, block,
    returned.pool, new, trace, contained_of_range_none fun o ho => (all o ho).range_none, fun m hm => all _ hm⟩
  · have region := h.region.of_eq sqBuf block pool
    rwa [cmd]
  · have buffer := h.buffer.of_eq sqBuf block pool
    rwa [cmd]

/-- Events that hand nothing over. -/
theorem Guarded.note {s : Fw} (h : Guarded c s) {o : Obs} (none : o.range? c = none) (sent : ∀ m, o ≠ .sent m) (n : Nat) :
    Carried c s (Fw.note { s with clock := n } o) :=
  ⟨⟨h.buf, h.len, h.data, h.region.of_eq rfl rfl fun _ hl _ => hl, h.buffer.of_eq rfl rfl fun _ hl _ => hl⟩, rfl, rfl, rfl,
    [o], rfl, contained_of_range_none fun x hx => by rw [List.mem_singleton.mp hx, none],
    fun m hm => sent m (List.mem_singleton.mp hm).symm⟩

theorem Guarded.transferDataWithPrps {P : Platform} {s t : Fw} (h : Guarded c s)
    (run : (transferDataWithPrps P c).run s = some ((), t)) : Carried c s t := by
  by_cases mps : s.tc.memoryPageSize = 0
  · rw [run_transferDataWithPrps_zero P c mps] at run
    cases run
  obtain ⟨n, u, hn, moved, rest⟩ := spans_transferDataWithPrps P c mps h.buf h.len
  have first : Spans P c (s.cmds c) s u :=
    ⟨n, _, [⟨(s.cmds c).sqBuf.prp1, 0, n⟩], [], by omega, moved, fun k hk => by
      rw [List.mem_singleton.mp hk]
      simp only
      omega⟩
  rcases rest with ⟨t', run', spans⟩ | run'
  · obtain ⟨-, rfl⟩ := Prod.mk.inj (Option.some.inj (run'.symm.trans run))
    exact h.spans (first.trans spans)
  · rw [run'] at run
    have carried := h.spans first
    have noted := carried.guarded.note (show (Obs.noPrpBuffer c).range? c = none from rfl) (by simp) (u.clock + 1)
    exact (carried.trans noted).trans (noted.guarded.returned (returned_of_run P run))

/-- The assignments before a transfer within the block. -/
theorem Guarded.setXfer {s : Fw} (h : Guarded c s) (buf len : Nat) (hbuf : buf < 2 ^ 32) (hlen : len < 2 ^ 32)
    (inside : Inside c s buf len) (dir : Dir) (cb : Cb) :
    Carried c s (s.setCmd c fun p =>
      { p with
        xferBase := buf, xferBuf := buf, xferSize := len, xferLen := len
        dir := dir, xferCb := some cb }) := by
  refine ⟨⟨?_, ?_, ?_, ?_, ?_⟩, ?_, ?_, rfl, [], rfl, contained_of_range_none (by simp), by simp⟩ <;>
    simp only [Fw.setCmd, Function.update_self]
  · exact hbuf
  · exact hlen
  · exact h.data
  · exact inside.of_eq (by simp) (by simp) fun l hl _ => hl
  · exact h.buffer.of_eq (by simp) (by simp) fun l hl _ => hl

theorem Guarded.prpCb {P : Platform} {s t : Fw} (h : Guarded c s) (b : Nat)
    (run : (prpCb P c (.prp b)).run s = some ((), t)) : Carried c s t :=
  h.spans (spans_prpCb P c b (NvmeCmdPriv.at_zero h.buf).symm (Nat.zero_le _) h.len run)

/-- The message to the APU, which names the block, or the loss of the command. -/
theorem run_sendCmd (P : Platform) (c : Slot) (s : Fw) :
    ∃ t o, (sendCmd P c).run s = some ((), t) ∧ t.cmds = s.cmds ∧ t.pool = s.pool ∧ t.trace = o :: s.trace ∧
      ((∃ m, o = .sent m ∧ m.priv = c ∧ m.buf = (s.cmds c).block.data ∧ m.bufLen = (s.cmds c).sqBuf.vendorSize ∧
          P.kMalloc s.clock = true ∧ P.rpmsgSend (s.clock + 1) = true) ∨
        (∃ why, o = .lost c why) ∧ ¬(P.kMalloc s.clock = true ∧ P.rpmsgSend (s.clock + 1) = true)) := by
  simp only [sendCmd, lose, loseUnless, Prog.run_bind, ofCmd, Prog.run_look, Prog.run_swap, Option.bind_some]
  by_cases room : P.kMalloc s.clock = true
  · rw [if_neg (by simp [room])]
    simp only [Prog.run_bind, Prog.run_swap, Option.bind_some]
    by_cases sent : P.rpmsgSend (s.clock + 1) = true
    · rw [if_pos sent]
      simp only [Prog.run_when, Bool.true_eq_false, if_false]
      exact ⟨_, _, rfl, rfl, rfl, rfl, .inl ⟨_, rfl, rfl, rfl, rfl, room, sent⟩⟩
    · rw [if_neg sent]
      simp only [Prog.run_when, if_true, Prog.run_change]
      exact ⟨_, _, rfl, rfl, rfl, rfl, .inr ⟨⟨_, rfl⟩, fun both => sent both.2⟩⟩
  · rw [if_pos (by simpa using room), Prog.run_change]
    exact ⟨_, _, rfl, rfl, rfl, rfl, .inr ⟨⟨_, rfl⟩, fun both => room both.1⟩⟩

end Guarded

/-! Along the run of a command. -/

section Run

variable {P : Platform} {c : Slot} {zeroBased : Bool} {s : Fw}

/-- What the APU may echo. -/
def Echoes (c : Slot) (new : List Obs) (t : Fw) : Prop :=
  ∀ m, .sent m ∈ new → m.priv = c → m.buf = (t.cmds c).block.data ∧ m.bufLen = (t.cmds c).sqBuf.vendorSize

/-- Nothing was asked for on behalf of `c`. -/
structure Silent (c : Slot) (new : List Obs) : Prop where
  data : dataChunks c new = []
  lists : listFetches c new = []
  sent : ∀ m, .sent m ∈ new → m.priv ≠ c

def OnTrack (c : Slot) (new : List Obs) (t : Fw) : Prop := Silent c new ∨ Guarded c t ∧ Echoes c new t

theorem Silent.contained {new : List Obs} (h : Silent c new) (t : Fw) : Contained c t new := by
  refine contained_of_range_none fun o ho => ?_
  cases o with
  | sent m => exact if_neg (h.sent m ho)
  | queued ch d p =>
    have none := List.filterMap_eq_nil_iff.mp (List.reverse_eq_nil_iff.mp h.data) _ ho
    exact congrArg (Option.map _) none
  | _ => rfl

theorem Guarded.sendCmd {t v : Fw} (h : Guarded c t) (run : (sendCmd P c).run t = some ((), v)) :
    ∃ o, v.trace = o :: t.trace ∧ v.cmds c = t.cmds c ∧ Guarded c v ∧ Contained c v [o] ∧ Echoes c [o] v := by
  obtain ⟨v', o, run', cmds, pool, trace, sent⟩ := run_sendCmd P c t
  obtain ⟨-, rfl⟩ := Prod.mk.inj (Option.some.inj (run'.symm.trans run))
  have live : ∀ l ∈ t.pool, l.owner = c → l ∈ v'.pool := fun l hl _ => pool ▸ hl
  have cmd : v'.cmds c = t.cmds c := by rw [cmds]
  have guarded : Guarded c v' := by
    refine ⟨?_, ?_, ?_, ?_, ?_⟩ <;> rw [cmd]
    · exact h.buf
    · exact h.len
    · exact h.data
    · exact h.region.of_eq (by rw [cmd]) (by rw [cmd]) live
    · exact h.buffer.of_eq (by rw [cmd]) (by rw [cmd]) live
  refine ⟨o, trace, cmd, guarded, ?_⟩
  rcases sent with ⟨m, rfl, priv, buf, len, -⟩ | ⟨⟨why, rfl⟩, -⟩
  · refine ⟨fun o ho addr n range => ?_, fun m' hm' _ => ?_⟩
    · rw [List.mem_singleton.mp ho, Obs.range?, if_pos priv, buf, len] at range
      cases range
      have buffer := guarded.buffer
      rwa [cmd] at buffer
    · cases List.mem_singleton.mp hm'
      rw [cmd]
      exact ⟨buf, len⟩
  · exact ⟨contained_of_range_none fun o ho => by rw [List.mem_singleton.mp ho]; rfl, fun m' hm' => by simp at hm'⟩

theorem OnTrack.step {new more : List Obs} {t v : Fw} (h : OnTrack c new t) (step : VendorStep P c new t v)
    (trace : v.trace = more ++ t.trace) : OnTrack c (more ++ new) v ∧ Contained c v more := by
  rcases h with silent | ⟨guarded, echoes⟩
  · cases step with
    | list asked => simp [silent.lists] at asked
    | vendor asked => simp [silent.data] at asked
    | replyData asked priv => exact absurd priv (silent.sent _ asked)
  have carry (carried : Carried c t v) : OnTrack c (more ++ new) v ∧ Contained c v more := by
    obtain ⟨new', e, contained, none⟩ := carried.trace
    obtain rfl := List.append_cancel_right (trace.symm.trans e)
    refine ⟨.inr ⟨carried.guarded, fun m hm priv => ?_⟩, contained⟩
    rw [carried.block, carried.sqBuf]
    exact echoes m ((List.mem_append.mp hm).resolve_left (none m)) priv
  cases step with
  | @list f asked run => exact carry (guarded.prpCb f.block run)
  | vendor asked last run =>
    obtain ⟨o, trace', cmd, guarded', contained, echo⟩ := guarded.sendCmd run
    obtain rfl : more = [o] := List.append_cancel_right (trace.symm.trans trace')
    refine ⟨.inr ⟨guarded', fun m hm priv => ?_⟩, contained⟩
    rcases List.mem_append.mp hm with later | before
    · exact echo m later priv
    · rw [cmd]
      exact echoes m before priv
  | @replyData m asked priv run =>
    obtain ⟨buf, len⟩ := echoes m asked priv
    subst priv
    refine carry ?_
    have ids : rpmsgCmdReturnDataId ≠ rpmsgCmdReturn := by decide
    simp only [rpmsgEndpointCb, if_neg ids, if_true, rpmsgCmdReturnData, AlkaliFw.setXfer, Prog.run_bind, ofCmd, setCmd,
      Prog.run_look, Prog.run_change, Option.bind_some] at run
    have started := guarded.setXfer m.buf m.bufLen (by rw [buf]; exact guarded.data)
      (by rw [len]; exact SqBuf.vendorSize_lt _) (by rw [buf, len]; exact guarded.buffer) .toHost .rpmsgCmdReturnCb
    by_cases psdt : (t.cmds m.priv).sqBuf.psdt = 0
    · have psdt' := started.sqBuf ▸ psdt
      rw [if_neg (by simpa using psdt), Prog.run_bind, run_nvmeCmdTransferData psdt'] at run
      obtain ⟨r, run', e⟩ := Option.bind_eq_some_iff.mp run
      obtain ⟨⟨_, w⟩, run'', e'⟩ := Option.map_eq_some_iff.mp run'
      cases e'
      cases e
      exact started.trans (started.guarded.transferDataWithPrps run'')
    · rw [if_pos psdt] at run
      exact started.trans (started.guarded.returned (returned_of_run P run))

theorem keeps_silent_nvmeCmdReturn (old : List Obs) :
    Prog.Keeps (Fw.Grown (fun o => o.range? c = none) old) (nvmeCmdReturn P c) :=
  keeps_nvmeCmdReturn P c (fun _ _ _ h => h) (fun _ _ _ h => h) (fun _ _ h => h) (fun _ _ _ h => h)
    fun _ _ ho h => h.note ho.range_none

theorem keeps_silent_kMemPoolFree (old : List Obs) :
    Prog.Keeps (Fw.Grown (fun o => o.range? c = none) old) (kMemPoolFree c) :=
  Prog.keeps_change fun _ h => h.note rfl

/-- The release hands nothing over. -/
theorem VendorEnd.contained {new more : List Obs} {t v : Fw} (h : VendorEnd P c new t v)
    (trace : v.trace = more ++ t.trace) : Contained c v more := by
  have grown : v.Grown (fun o => o.range? c = none) t.trace := by
    cases h with
    | @reply m asked priv run =>
      subst priv
      simp only [rpmsgEndpointCb, if_true] at run
      refine Prog.Keeps.run ?_ (.refl t) run
      refine Prog.keeps_bind (keeps_silent_nvmeCmdReturn _) fun _ => Prog.keeps_bind (Prog.keeps_look ..) fun data => ?_
      exact Prog.keeps_when fun _ => keeps_silent_kMemPoolFree _
    | returned asked last run =>
      refine Prog.Keeps.run ?_ (.refl t) run
      exact Prog.keeps_bind (keeps_silent_kMemPoolFree _) fun _ => keeps_silent_nvmeCmdReturn _
  obtain ⟨new', e, all⟩ := grown
  obtain rfl := List.append_cancel_right (trace.symm.trans e)
  exact contained_of_range_none all

/-! The handler. -/

/-- The record that `nvme_tc_tail_handler` has cleared, with its two entries filled in. -/
def Fresh (c : Slot) (s : Fw) : Prop := ∃ q b e, s.cmds c = { qid := q, sqBuf := b, cqBuf := e }

/-- The handler once the count is adjusted. -/
def adjusted (c : Slot) (zeroBased : Bool) (s : Fw) : Fw :=
  s.setCmd c fun p => { p with sqBuf := p.sqBuf.adjust zeroBased }

theorem sqBuf_adjusted : ((adjusted c zeroBased s).cmds c).sqBuf = (s.cmds c).sqBuf.adjust zeroBased := by
  simp [adjusted, Fw.setCmd]

theorem run_nvmeCmdVendor (P : Platform) (c : Slot) (zeroBased : Bool) (s : Fw) :
    (nvmeCmdVendor P c zeroBased).run s =
      let b := ((adjusted c zeroBased s).cmds c).sqBuf
      (if b.direction ≠ nvmeCmdXferNone ∧ 0 < b.vendorSize ∧ b.vendorSize < 2 ^ 31 then do
        let ok ← bufferAlloc P c b.vendorSize
        if ok then vendorTransfer P c b.direction b.vendorSize else lose c .bufferPool
      else vendorTransfer P c b.direction b.vendorSize : Code Unit).run (adjusted c zeroBased s) := by
  have direction : (s.cmds c).sqBuf.opc % 4 = ((adjusted c zeroBased s).cmds c).sqBuf.direction := by
    rw [sqBuf_adjusted]
    cases zeroBased <;> simp [SqBuf.adjust, SqBuf.direction, SqBuf.opc, Function.update]
  cases zeroBased with
  | false =>
    have same : adjusted c false s = s := by
      simp only [adjusted, Fw.setCmd, SqBuf.adjust, Bool.false_eq_true, if_false]
      rw [Function.update_eq_self]
    rw [same]
    rfl
  | true =>
    simp only [nvmeCmdVendor, Prog.run_bind, ofCmd, setCmd, Prog.run_look, Prog.run_when, Prog.run_change,
      Option.bind_some, if_true, direction]
    rfl

theorem Silent.append {new old : List Obs} (h : Silent c new) (g : Silent c old) : Silent c (new ++ old) where
  data := by rw [dataChunks_append, h.data, g.data, List.nil_append]
  lists := by rw [listFetches_append, h.lists, g.lists, List.nil_append]
  sent m hm := (List.mem_append.mp hm).elim (h.sent m) (g.sent m)

theorem Submits.silent {new : List Obs} (h : Submits c new [] []) : Silent c new :=
  ⟨List.sublist_nil.mp h.data, List.sublist_nil.mp h.lists, fun _ hm => (h.moves _ hm).elim⟩

theorem silent_lost (c : Slot) (why : Loss) : Silent c [.lost c why] := ⟨rfl, rfl, by simp⟩

theorem silent_noPrpBuffer (c : Slot) : Silent c [.noPrpBuffer c] := ⟨rfl, rfl, by simp⟩

theorem Returned.silent {s t : Fw} (h : Returned c s t) : ∃ new, t.trace = new ++ s.trace ∧ Silent c new := by
  obtain ⟨new, trace, all⟩ := h.trace
  refine ⟨new, trace, ?_, ?_, fun m hm => (all _ hm).elim⟩
  · rw [dataChunks, List.filterMap_eq_nil_iff.mpr fun o ho => ?_]
    · rfl
    · exact (Obs.returns_submits_no_data c (all o ho)).1
  · rw [listFetches, List.filterMap_eq_nil_iff.mpr fun o ho => ?_]
    · rfl
    · exact (Obs.returns_submits_no_data c (all o ho)).2

/-- Without descriptors nothing is handed over. -/
theorem silent_transferDataWithPrps {s t : Fw} (hbuf : (s.cmds c).xferBuf < 2 ^ 32) (hlen : (s.cmds c).xferLen < 2 ^ 32)
    (full : P.nvmeDmaSlabEntries ≤ s.descSlab.used.length) (run : (transferDataWithPrps P c).run s = some ((), t)) :
    ∃ new, t.trace = new ++ s.trace ∧ Silent c new := by
  by_cases mps : s.tc.memoryPageSize = 0
  · rw [run_transferDataWithPrps_zero P c mps] at run
    cases run
  obtain ⟨n, u, -, moved, rest⟩ := spans_transferDataWithPrps P c mps hbuf hlen
  obtain ⟨first, trace, -, -, none⟩ := moved.trace
  have silent := (none full).silent
  have full' := full.trans moved.descs.1
  rcases rest with ⟨t', run', off, size, ks, fs, -, moved', -⟩ | run'
  · obtain ⟨-, rfl⟩ := Prod.mk.inj (Option.some.inj (run'.symm.trans run))
    obtain ⟨later, trace', -, -, none'⟩ := moved'.trace
    exact ⟨later ++ first, by rw [trace', trace, List.append_assoc], (none' full').silent.append silent⟩
  · rw [run'] at run
    obtain ⟨later, trace', silent'⟩ := (returned_of_run P run).silent
    refine ⟨later ++ ([.noPrpBuffer c] ++ first), ?_, silent'.append ((silent_noPrpBuffer c).append silent)⟩
    rw [trace']
    simp [Fw.note, trace]

/-- The transfer of a command whose buffer is right. -/
theorem Guarded.vendorTransfer {s t : Fw} (h : Guarded c s)
    (run : (vendorTransfer P c (s.cmds c).sqBuf.direction (s.cmds c).sqBuf.vendorSize).run s = some ((), t)) :
    ∃ new, t.trace = new ++ s.trace ∧ OnTrack c new t ∧ Contained c t new := by
  simp only [AlkaliFw.vendorTransfer] at run
  split at run
  · obtain ⟨o, trace, -, guarded, contained, echo⟩ := h.sendCmd run
    exact ⟨[o], trace, .inr ⟨guarded, echo⟩, contained⟩
  · simp only [AlkaliFw.setXfer, Prog.run_bind, ofCmd, setCmd, Prog.run_look, Prog.run_change, Option.bind_some] at run
    have started := h.setXfer (s.cmds c).block.data (s.cmds c).sqBuf.vendorSize h.data (SqBuf.vendorSize_lt _) h.buffer
      .fromHost .vendorCb
    have carried : Carried c s t := by
      by_cases psdt : (s.cmds c).sqBuf.psdt = 0
      · have psdt' := started.sqBuf ▸ psdt
        rw [run_nvmeCmdTransferData psdt'] at run
        obtain ⟨r, run', e⟩ := Option.bind_eq_some_iff.mp run
        obtain ⟨⟨_, w⟩, run'', e'⟩ := Option.map_eq_some_iff.mp run'
        cases e'
        cases e
        exact started.trans (started.guarded.transferDataWithPrps run'')
      · have psdt' := started.sqBuf ▸ psdt
        rw [run_nvmeCmdTransferData_rejected psdt'] at run
        simp only [Option.bind_some, Prog.run_when, if_true, lose, Prog.run_change] at run
        cases run
        exact started.trans (started.guarded.note (show (Obs.lost c .psdt).range? c = none from rfl) (by simp) _)
    obtain ⟨new, trace, contained, none⟩ := carried.trace
    exact ⟨new, trace, .inr ⟨carried.guarded, fun m hm => absurd hm (none m)⟩, contained⟩

theorem run_bufferAlloc (P : Platform) (c : Slot) (size : Nat) (s : Fw) :
    (bufferAlloc P c size).run s = some (false, { s with clock := s.clock + 1 }) ∨
    ∃ l t, (bufferAlloc P c size).run s = some (true, t) ∧ l.owner = c ∧ size ≤ l.size ∧ t.pool = l :: s.pool ∧
      t.cmds c = { s.cmds c with block := l.block } ∧ t.trace = .poolAlloc l :: s.trace := by
  simp only [bufferAlloc, Prog.run_swap]
  split
  · rename_i b n pick
    exact .inr ⟨_, _, rfl, rfl, (P.poolPick_size _ _ _ _ _ pick).1, rfl, by simp [Fw.setCmd, Fw.note], rfl⟩
  · exact .inl rfl

theorem Fresh.record (h : Fresh c s) (zeroBased : Bool) : ((adjusted c zeroBased s).cmds c).xferBuf = 0 ∧
    ((adjusted c zeroBased s).cmds c).xferLen = 0 ∧ ((adjusted c zeroBased s).cmds c).block = {} := by
  obtain ⟨q, b, e, record⟩ := h
  simp [adjusted, Fw.setCmd, record]

theorem OnTrack.others {new between : List Obs} {t u : Fw} (h : OnTrack c new t) (apart : Apart c t u between) :
    OnTrack c (between ++ new) u := by
  rcases h with silent | ⟨guarded, echoes⟩
  · refine .inl (Silent.append ⟨?_, ?_, fun m hm => (apart.events _ hm).2 m rfl⟩ silent)
    · exact dataChunks_others fun o ho => (apart.events o ho).1
    · exact listFetches_others fun o ho => (apart.events o ho).1
  · have inside {addr len : Nat} (h : Inside c t addr len) : Inside c u addr len :=
      h.of_eq (by rw [apart.cmd]) (by rw [apart.cmd]) apart.block
    refine .inr ⟨?_, fun m hm priv => ?_⟩
    · refine ⟨?_, ?_, ?_, ?_, ?_⟩ <;> rw [apart.cmd]
      exacts [guarded.buf, guarded.len, guarded.data, inside guarded.region, inside guarded.buffer]
    · rw [apart.cmd]
      rcases List.mem_append.mp hm with others | before
      · exact absurd priv ((apart.events _ others).2 m rfl)
      · exact echoes m before priv

theorem OnTrack.cons {new : List Obs} {o : Obs} {t : Fw} (h : OnTrack c new t)
    (data : o.dataChunk? c = none) (lists : o.listFetch? c = none) (sent : ∀ m, o ≠ .sent m) :
    OnTrack c (new ++ [o]) t := by
  rcases h with silent | ⟨guarded, echoes⟩
  · refine .inl (silent.append ⟨?_, ?_, fun m hm => absurd (List.mem_singleton.mp hm).symm (sent m)⟩)
    · simp [dataChunks, data]
    · simp [listFetches, lists]
  · refine .inr ⟨guarded, fun m hm priv => ?_⟩
    rcases List.mem_append.mp hm with later | this
    · exact echoes m later priv
    · exact absurd (List.mem_singleton.mp this).symm (sent m)

/-- A request that fits leaves the handler on track. -/
theorem OnTrack.handled {new : List Obs} {t : Fw} (fresh : Fresh c s) (fits : VendorFits P c zeroBased s)
    (run : (nvmeCmdVendor P c zeroBased).run s = some ((), t)) (trace : t.trace = new ++ s.trace) :
    OnTrack c new t ∧ Contained c t new := by
  obtain ⟨buf, len, block⟩ := fresh.record zeroBased
  have trace' : (adjusted c zeroBased s).trace = s.trace := rfl
  have descs : (adjusted c zeroBased s).descSlab = s.descSlab := rfl
  have clock : (adjusted c zeroBased s).clock = s.clock := rfl
  rw [run_nvmeCmdVendor] at run
  rw [VendorFits, ← sqBuf_adjusted] at fits
  rw [← trace'] at trace
  rw [← descs, ← clock] at fits
  generalize adjusted c zeroBased s = s' at *
  suffices h : ∃ new, t.trace = new ++ s'.trace ∧ OnTrack c new t ∧ Contained c t new by
    obtain ⟨new', e, onTrack⟩ := h
    obtain rfl := List.append_cancel_right (trace.symm.trans e)
    exact onTrack
  dsimp only at run fits
  by_cases none : (s'.cmds c).sqBuf.vendorSize = 0
  · have guarded : Guarded c s' :=
      ⟨by omega, by omega, by rw [block]; decide, .inl len, .inl none⟩
    rw [if_neg (by omega)] at run
    exact guarded.vendorTransfer run
  by_cases taken : (s'.cmds c).sqBuf.direction ≠ nvmeCmdXferNone ∧ 0 < (s'.cmds c).sqBuf.vendorSize ∧
      (s'.cmds c).sqBuf.vendorSize < 2 ^ 31
  · rw [if_pos taken, Prog.run_bind] at run
    rcases run_bufferAlloc P c (s'.cmds c).sqBuf.vendorSize s' with alloc | ⟨l, u, alloc, owner, size, pool, cmd, grown⟩
    · rw [alloc] at run
      simp only [Option.bind_some, Bool.false_eq_true, if_false, lose, Prog.run_change] at run
      cases run
      exact ⟨[.lost c .bufferPool], rfl, .inl (silent_lost c _), (silent_lost c _).contained _⟩
    · rw [alloc] at run
      simp only [Option.bind_some, if_true] at run
      have buffer : Inside c u l.block.data (u.cmds c).sqBuf.vendorSize :=
        .inr ⟨by rw [cmd]; exact taken.1, l, by rw [pool]; exact List.mem_cons_self, owner, by rw [cmd], le_rfl,
          by rw [cmd]; exact Nat.add_le_add_left size _⟩
      have bound := l.bound
      have guarded : Guarded c u :=
        ⟨by rw [cmd]; simp only; omega, by rw [cmd]; simp only; omega, by rw [cmd]; simp only; omega,
          .inl (by rw [cmd]; exact len), by rw [cmd] at buffer ⊢; exact buffer⟩
      have same : (s'.cmds c).sqBuf = (u.cmds c).sqBuf := by rw [cmd]
      rw [same] at run
      obtain ⟨new', grown', onTrack, contained⟩ := guarded.vendorTransfer run
      refine ⟨new' ++ [.poolAlloc l], by rw [grown', grown, List.append_assoc]; rfl, onTrack.cons rfl rfl (by simp), ?_⟩
      exact contained.append (contained_of_range_none fun o ho => by rw [List.mem_singleton.mp ho]; rfl)
  · rw [if_neg taken] at run
    simp only [vendorTransfer] at run
    by_cases toHost : (s'.cmds c).sqBuf.direction = nvmeCmdXferToHost
    · rw [if_pos (.inr toHost)] at run
      obtain ⟨v, o, run', -, -, grown, ⟨m, -, -, -, -, sends⟩ | ⟨⟨why, rfl⟩, -⟩⟩ := run_sendCmd P c s'
      · have fits := fits.resolve_left none
        have dir : (s'.cmds c).sqBuf.direction ≠ nvmeCmdXferNone := by rw [toHost]; decide
        rcases fits with small | not | unsent
        · exact absurd ⟨dir, by omega, small.2⟩ taken
        · exact absurd toHost not.1
        · exact absurd sends unsent.2
      · obtain ⟨-, rfl⟩ := Prod.mk.inj (Option.some.inj (run'.symm.trans run))
        exact ⟨[.lost c why], grown, .inl (silent_lost c _), (silent_lost c _).contained _⟩
    · rw [if_neg (by tauto)] at run
      simp only [setXfer, Prog.run_bind, ofCmd, setCmd, Prog.run_look, Prog.run_change, Option.bind_some] at run
      generalize hx : s'.setCmd c _ = x at run
      have xtrace : x.trace = s'.trace := by rw [← hx]; rfl
      have xdescs : x.descSlab = s'.descSlab := by rw [← hx]; rfl
      have xsq : (x.cmds c).sqBuf = (s'.cmds c).sqBuf := by rw [← hx]; simp [Fw.setCmd]
      by_cases psdt : (x.cmds c).sqBuf.psdt = 0
      · rw [run_nvmeCmdTransferData psdt] at run
        obtain ⟨r, run', e⟩ := Option.bind_eq_some_iff.mp run
        obtain ⟨⟨_, w⟩, run'', e'⟩ := Option.map_eq_some_iff.mp run'
        cases e'
        cases e
        have full : P.nvmeDmaSlabEntries ≤ s'.descSlab.used.length := by
          rcases fits.resolve_left none with small | ⟨-, psdt' | full⟩ | ⟨unsent, -⟩
          · exact absurd ⟨small.1, by omega, small.2⟩ taken
          · exact absurd (xsq ▸ psdt) psdt'
          · exact full
          · exact absurd unsent toHost
        obtain ⟨new', grown, silent⟩ := silent_transferDataWithPrps (by rw [← hx]; simp [Fw.setCmd, block])
          (by rw [← hx]; simpa [Fw.setCmd] using SqBuf.vendorSize_lt _) (by rw [xdescs]; exact full) run''
        exact ⟨new', by rw [grown, xtrace], .inl silent, silent.contained _⟩
      · rw [run_nvmeCmdTransferData_rejected psdt] at run
        simp only [Option.bind_some, Prog.run_when, if_true, lose, Prog.run_change] at run
        cases run
        exact ⟨[.lost c .psdt], by rw [Fw.note, xtrace]; rfl, .inl (silent_lost c _), (silent_lost c _).contained _⟩

/-- No block lies at address zero. -/
theorem not_inside_zero {t : Fw} {len : Nat} (block : (t.cmds c).block = {}) (pos : 0 < len) : ¬Inside c t 0 len := by
  rintro (empty | ⟨-, l, -, -, held, first, -⟩)
  · omega
  · have bound := l.bound.1
    rw [held, block] at bound
    exact absurd bound (Nat.lt_irrefl _)

/-- A transfer that starts at address zero goes out as soon as there is a descriptor. -/
theorem transferDataWithPrps_at_zero {x : Fw} (mps : x.tc.memoryPageSize ≠ 0)
    (ring : 0 < x.tc.cqSize (x.cmds c).qid) (zero : (x.cmds c).xferBuf = 0) (pos : 0 < (x.cmds c).xferLen)
    (hlen : (x.cmds c).xferLen < 2 ^ 32) (block : (x.cmds c).block = {})
    (descs : x.descSlab.used.length < P.nvmeDmaSlabEntries) :
    ∃ t new, (transferDataWithPrps P c).run x = some ((), t) ∧ t.trace = new ++ x.trace ∧ ¬Contained c t new := by
  obtain ⟨n, u, hn, moved, rest⟩ := spans_transferDataWithPrps P c mps (by omega) hlen
  have hmod := Nat.mod_lt (x.cmds c).sqBuf.prp1 (Nat.pos_of_ne_zero mps)
  have some' : 0 < n := by omega
  obtain ⟨first, trace, submits, room, -⟩ := moved.trace
  have chunk := (submits.all (room (by simp; omega))).1
  have mem : chunkOf c (x.cmds c) ⟨(x.cmds c).sqBuf.prp1, 0, n⟩ ∈ dataChunks c first := by
    rw [chunk]
    exact List.mem_singleton_self _
  obtain ⟨o, ho, data⟩ := List.mem_filterMap.mp (List.mem_reverse.mp mem)
  have range : o.range? c = some (0, n) := by
    cases o with
    | queued ch d p =>
      refine (congrArg (Option.map _) data).trans ?_
      simp only [Option.map_some, chunkOf, zero, Nat.add_zero, Nat.zero_mod]
    | _ => cases data
  have violates {t : Fw} {later : List Obs} (held : (t.cmds c).block = {}) : ¬Contained c t (later ++ first) :=
    fun contained => not_inside_zero held some' (contained o (List.mem_append_right _ ho) 0 n range)
  have ublock : (u.cmds c).block = {} := by rw [moved.cmd, NvmeCmdPriv.at, block]
  rcases rest with ⟨t, run, off, size, ks, fs, -, moved', -⟩ | run
  · obtain ⟨later, trace', -⟩ := moved'.trace
    refine ⟨t, later ++ first, run, by rw [trace', trace, List.append_assoc], violates ?_⟩
    rw [moved'.cmd, NvmeCmdPriv.at, block]
  · have ring' : 0 < u.tc.cqSize (u.cmds c).qid := by rw [moved.tc, moved.cmd, NvmeCmdPriv.at]; exact ring
    obtain ⟨t, run'⟩ := run_nvmeCmdReturn_total P (c := c)
      (s := Fw.note { u with clock := u.clock + 1 } (.noPrpBuffer c)) ring'
    have returned := returned_of_run P run'
    obtain ⟨e, cmds⟩ := returned.cmd
    obtain ⟨later, trace', -⟩ := returned.trace
    refine ⟨t, (later ++ [.noPrpBuffer c]) ++ first, run.trans run', ?_, violates ?_⟩
    · rw [trace', Fw.note, trace]
      simp
    · rw [cmds, Function.update_self]
      exact ublock

/-- A request that does not fit hands out local address zero. -/
theorem handler_not_contained (P : Platform) (c : Slot) (zeroBased : Bool) (s : Fw) (fresh : Fresh c s) (page : s.tc.memoryPageSize ≠ 0)
    (ring : 0 < s.tc.cqSize (s.cmds c).qid) (misfit : ¬VendorFits P c zeroBased s) :
    ∃ t new, (nvmeCmdVendor P c zeroBased).run s = some ((), t) ∧ t.trace = new ++ s.trace ∧ ¬Contained c t new := by
  obtain ⟨-, -, block⟩ := fresh.record zeroBased
  have trace : (adjusted c zeroBased s).trace = s.trace := rfl
  have page' : (adjusted c zeroBased s).tc.memoryPageSize ≠ 0 := page
  have ring' : 0 < (adjusted c zeroBased s).tc.cqSize ((adjusted c zeroBased s).cmds c).qid := by
    simpa [adjusted, Fw.setCmd] using ring
  have descs : (adjusted c zeroBased s).descSlab = s.descSlab := rfl
  have clock : (adjusted c zeroBased s).clock = s.clock := rfl
  rw [run_nvmeCmdVendor, ← trace]
  rw [VendorFits, ← sqBuf_adjusted, ← descs, ← clock] at misfit
  generalize adjusted c zeroBased s = s' at *
  dsimp only at misfit ⊢
  push Not at misfit
  obtain ⟨some', large, open', sends⟩ := misfit
  rw [if_neg (by rintro ⟨dir, -, small⟩; exact absurd (large dir) (by omega))]
  simp only [vendorTransfer]
  by_cases toHost : (s'.cmds c).sqBuf.direction = nvmeCmdXferToHost
  · rw [if_pos (.inr toHost)]
    obtain ⟨t, o, run, cmds, -, grown, ⟨m, rfl, priv, buf, len, -⟩ | ⟨-, unsent⟩⟩ := run_sendCmd P c s'
    · refine ⟨t, [.sent m], run, grown, fun contained => ?_⟩
      refine not_inside_zero (c := c) (t := t) (by rw [cmds, block]) (Nat.pos_of_ne_zero some') ?_
      refine contained _ (List.mem_singleton_self _) 0 _ ?_
      rw [Obs.range?, if_pos priv, buf, len, block]
    · exact absurd (sends toHost) unsent
  · rw [if_neg (by tauto)]
    obtain ⟨psdt, descs⟩ := open' toHost
    simp only [setXfer, Prog.run_bind, ofCmd, setCmd, Prog.run_look, Prog.run_change, Option.bind_some]
    generalize hx : s'.setCmd c _ = x
    have cmd : x.cmds c =
        { s'.cmds c with
          xferBase := 0, xferBuf := 0, xferSize := (s'.cmds c).sqBuf.vendorSize
          xferLen := (s'.cmds c).sqBuf.vendorSize, dir := .fromHost, xferCb := some .vendorCb } := by
      rw [← hx]
      simp [Fw.setCmd, block]
    have lt := (s'.cmds c).sqBuf.vendorSize_lt
    obtain ⟨t, new, run, grown, violates⟩ := transferDataWithPrps_at_zero (P := P) (c := c) (x := x)
      (by rw [← hx]; exact page') (by rw [cmd, ← hx]; exact ring') (by rw [cmd]) (by rw [cmd]; exact Nat.pos_of_ne_zero some')
      (by rw [cmd]; exact lt) (by rw [cmd]; exact block) (by rw [← hx]; exact descs)
    refine ⟨t, new, ?_, by rw [grown, ← hx]; rfl, violates⟩
    rw [run_nvmeCmdTransferData (by rw [cmd]; exact psdt), run]
    rfl

theorem VendorRun.onTrack {new : List Obs} {t : Fw} (fresh : Fresh c s) (fits : VendorFits P c zeroBased s)
    (h : VendorRun P c zeroBased s new t) : OnTrack c new t := by
  induction h with
  | handled run trace => exact (OnTrack.handled fresh fits run trace).1
  | others _ apart ih => exact ih.others apart
  | step _ step trace ih => exact (ih.step step trace).1

end Run

/-- Vendor commands stay within their blocks exactly when their requests fit. -/
theorem vendorContained_iff (P : Platform) (c : Slot) (zeroBased : Bool) (s : Fw) (fresh : Fresh c s)
    (page : s.tc.memoryPageSize ≠ 0) (ring : 0 < s.tc.cqSize (s.cmds c).qid) :
    VendorContained P c zeroBased s ↔ VendorFits P c zeroBased s := by
  constructor
  · intro contained
    by_contra misfit
    obtain ⟨t, new, run, trace, violates⟩ := handler_not_contained P c zeroBased s fresh page ring misfit
    exact violates (contained.handler t new run trace)
  · intro fits
    refine ⟨fun t new run trace => (OnTrack.handled fresh fits run trace).2, fun new more t v run step trace => ?_⟩
    rcases step with step | last
    · exact ((run.onTrack fresh fits).step step trace).2
    · exact last.contained trace

/-- A vendor command on the admin queue with opcode `opc` and count `ndt`. -/
def vendorState (opc ndt : BitVec 32) : Fw where
  tc := { memoryPageSize := 2 ^ 12, cqSize := fun _ => 16 }
  cmds _ :=
    { qid := admQueueId
      sqBuf := Function.update (Function.update (fun _ => 0) 0 opc) 10 ndt }

/-- Opcode C0h has no direction; with a count of one it still fetches four bytes to address zero. -/
theorem vendor_without_direction : ¬VendorContained (board (2 ^ 12)) 0 false (vendorState 0xC0 1) := by
  intro contained
  obtain ⟨t, new, run, trace, violates⟩ := handler_not_contained (board (2 ^ 12)) 0 false (vendorState 0xC0 1) ⟨_, _, _, rfl⟩ (by decide) (by decide) (by decide +kernel)
  exact violates (contained.handler t new run trace)

theorem vendor_from_host : VendorContained (board (2 ^ 12)) 0 false (vendorState 0xC1 1024) :=
  (vendorContained_iff (board (2 ^ 12)) 0 false (vendorState 0xC1 1024) ⟨_, _, _, rfl⟩ (by decide) (by decide)).mpr
    (by decide +kernel)

end AlkaliFw
