import AlkaliFw.Demand

/-! Where a command stands. Between two steps exactly one thing carries it on: a descriptor
whose callback has it as argument, a request that the APU has not answered, or a call of the
polling thread; unless it was lost on one of the branches that pass nothing on. Along with
that goes what is known of its data, of its block and of its completion entry. -/

namespace AlkaliFw
open Resumption

/-- Bytes `off ..` of a transfer of `size` bytes, moved from or to a local address. -/
structure Piece where
  off : Nat
  len : Nat
  size : Nat
  addr : Nat

/-- The pieces follow one another from `off` to `stop`. -/
def Laid : Nat → List Piece → Nat → Prop
  | off, [], stop => off = stop
  | off, x :: xs, stop => x.off = off ∧ Laid (off + x.len) xs stop

theorem laid_append {off stop : Nat} {xs : List Piece} {x : Piece} (h : Laid off xs x.off) (len : x.off + x.len = stop) :
    Laid off (xs ++ [x]) stop := by
  induction xs generalizing off with
  | nil =>
    obtain rfl : off = x.off := h
    exact ⟨rfl, len⟩
  | cons y ys ih => exact ⟨h.1, ih h.2⟩

/-- The piece that a data descriptor carries, by the record at its submission. -/
def Obs.piece? (ch : Chan) : Obs → Option Piece
  | .queued at' ⟨_, _, .ram addr, len, _, _, _, _⟩ p =>
    if at' = ch then some ⟨p.xferSize - p.xferLen, len, p.xferSize, addr⟩ else none
  | _ => none

/-- Pieces submitted on a channel, in the order of submission. -/
def parts (ch : Chan) (h : List Obs) : List Piece := (h.filterMap (Obs.piece? ch)).reverse

inductive Milestone where
  | taken
  | posted (d : Desc)
  | freed

def Obs.milestone? : Obs → Option Milestone
  | .cmdAlloc _ _ => some .taken
  | .queued _ d _ => if d.callback.map (·.1) = some .cqCb then some (.posted d) else none
  | .cmdFree _ => some .freed
  | _ => none

/-- The slot is taken, completion entries are submitted and the slot is given back; newest first. -/
def milestones (h : List Obs) : List Milestone := h.filterMap Obs.milestone?

/-- The slot was never taken, or one entry was submitted for the command and the slot given back. -/
def Ended (h : List Obs) : Prop := milestones h = [] ∨ ∃ d, milestones h = [.freed, .posted d, .taken]

/-- The slot is taken, and not more than one entry was submitted. -/
def Open (h : List Obs) : Prop := milestones h = [.taken] ∨ ∃ d, milestones h = [.posted d, .taken]

def Obs.block? : Obs → Option PoolBlock
  | .poolAlloc l => some l
  | _ => none

/-- Blocks taken from the pool. -/
def grants (h : List Obs) : List PoolBlock := h.filterMap Obs.block?

/-- The record names the block that was taken, if any. -/
def Names (b : KMemBlock) (h : List Obs) : Prop := grants h = [] ∧ b = {} ∨ ∃ l, grants h = [l] ∧ b = l.block

/-- The pieces on a channel make up the first `stop` bytes of a transfer. -/
structure Covers (ch : Chan) (h : List Obs) (base size stop : Nat) : Prop where
  piece : ∀ x ∈ parts ch h, x.size = size ∧ x.addr % 2 ^ 32 = (base + x.off) % 2 ^ 32
  laid : Laid 0 (parts ch h) stop

def Whole (ch : Chan) (h : List Obs) : Prop := parts ch h = [] ∨ ∃ base size, Covers ch h base size size

/-- A transfer under way. Nothing is known of its pieces once an allocation has failed. -/
structure Moving (c : Slot) (p : NvmeCmdPriv) (h : List Obs) : Prop where
  len : p.xferLen ≤ p.xferSize
  buf : p.xferBuf % 2 ^ 32 = (p.xferBase + (p.xferSize - p.xferLen)) % 2 ^ 32
  pieces : Served c h → Covers p.dir.chan h p.xferBase p.xferSize (p.xferSize - p.xferLen) ∧
    ∀ ch, ch ≠ p.dir.chan → Whole ch h

/-- All the data that the command has asked for was submitted. -/
def AllMoved (c : Slot) (p : NvmeCmdPriv) (h : List Obs) : Prop :=
  Served c h → (∀ ch, Whole ch h) ∧ (p.xferCb ≠ none → Covers p.dir.chan h p.xferBase p.xferSize p.xferSize)

/-- The request for a vendor command, sent after the data that the command brings. -/
structure Sent (c : Slot) (e : SqBuf) (b : KMemBlock) (h : List Obs) (m : RpmsgPayload) : Prop where
  mem : .sent m ∈ h
  entry : m.priv = c ∧ m.data = e
  buf : m.buf = b.data ∧ m.bufLen = bufferSize e.ndt
  data : Served c h → e.brings = true → Covers .rx h m.buf m.bufLen m.bufLen

/-- The transfer under way is one that the command calls for. -/
def Asked (P : Platform) (c : Slot) (p : NvmeCmdPriv) (h : List Obs) : Prop :=
  match p.xferCb with
  | none => True
  | some .nvmeCmdReturnCb =>
    (p.demand P = .refused ∨ p.demand P = .data p.dir p.xferBase p.xferSize) ∧ (p.Logs → p.LogXfer P)
  | some .vendorCb => p.demand P = .vendor ∧ p.dir = .fromHost ∧ parts .tx h = [] ∧
      p.xferBase = p.block.data ∧ p.xferSize = bufferSize p.sqBuf.ndt
  | some .rpmsgCmdReturnCb => p.demand P = .vendor ∧ p.dir = .toHost ∧
      ∃ m, Sent c p.sqBuf p.block h m ∧ p.xferBase = m.buf ∧ p.xferSize = m.bufLen
  | some _ => False

/-- A command whose completion entry is prepared and not submitted. -/
structure Task (P : Platform) (c : Slot) (p : NvmeCmdPriv) (h : List Obs) : Prop where
  fit : p.Fit
  answered : .handled c p.qid p.cqBuf.sqHead ∈ h
  status : p.cqBuf.sc = 0 ∧ p.cqBuf.sct = 0
  before : milestones h = [.taken]
  names : Names p.block h
  asked : Asked P c p h

/-- What a command that is not refused has had done by the time its entry is submitted. -/
def Performed (P : Platform) (c : Slot) (p : NvmeCmdPriv) (h : List Obs) : Prop :=
  match p.demand P with
  | .data dir buf size => Covers dir.chan h buf size size
  | .vendor => ∃ m, Sent c p.sqBuf p.block h m ∧ (p.xferCb = some .rpmsgCmdReturnCb → Covers .tx h m.buf m.bufLen m.bufLen)
  | .manage => True
  | .refused => False

/-- Transfers that nothing waits for. -/
def Plain (ds : List Desc) : Prop := ∀ d ∈ ds, d.callback = none ∧ ∃ a, d.localAddr = .ram a

/-- Of the descriptors of the command, `d` alone is waited for. -/
structure Waits (v : View) (ch : Chan) (d : Desc) : Prop where
  last : ∃ ds, v.queue ch = ds ++ [d] ∧ Plain ds
  plain : ∀ ch', ch' ≠ ch → Plain (v.queue ch')

/-- What was done before an entry was submitted. -/
structure Settled (P : Platform) (c : Slot) (p : NvmeCmdPriv) (h : List Obs) (empty : Prop) : Prop where
  moved : Served c h → (p.xferCb ≠ none → p.sqBuf.psdt = 0) → empty ∧ AllMoved c p h
  performed : Served c h → ¬p.Refused P → Performed P c p h
  logged : Served c h → p.Logs → p.sqBuf.psdt = 0 → p.xferCb ≠ none ∧ p.LogXfer P

/-- The entry `d` that was submitted, with record `q`. -/
structure Entered (P : Platform) (c : Slot) (d : Desc) (p : NvmeCmdPriv) (h : List Obs) (empty : Prop) : Prop where
  cb : d.callback = some (.cqCb, c)
  loc : d.localAddr = .cqBuf c
  record : ∃ q, .queued .tx d q ∈ h ∧ q.qid = p.qid ∧ q.sqBuf = p.sqBuf ∧ q.xferCb = p.xferCb ∧ q.block = p.block
  answered : .handled c p.qid p.cqBuf.sqHead ∈ h
  status : p.cqBuf.sc = 0 ∧ p.cqBuf.sct = 0
  milestone : milestones h = [.posted d, .taken]
  names : Names p.block h
  settled : Settled P c p h empty

inductive Standing (P : Platform) (c : Slot) (v : View) : Prop where
  | free (held : v.held = false) (requests : v.requests = []) (rx : Plain (v.queue .rx)) (tx : v.queue .tx = [])
      (ended : Ended v.past)
  | fetched (d : Desc) (held : v.held = true) (requests : v.requests = []) (waits : Waits v .rx d)
      (tx : v.queue .tx = []) (cb : d.callback = some (.nvmeCmdHandler, c)) (loc : d.localAddr = .sqBuf c)
      (fit : v.priv.Fit) (xferCb : v.priv.xferCb = none) (parts : ∀ ch, parts ch v.past = [])
      (before : milestones v.past = [.taken]) (block : v.priv.block = {} ∧ grants v.past = [])
  | listing (d : Desc) (held : v.held = true) (requests : v.requests = []) (waits : Waits v .rx d)
      (cb : d.callback = some (.prpCb, c)) (loc : ∃ b, d.localAddr = .prp b)
      (beside : ∀ ch, ch ≠ v.priv.dir.chan → ∀ x ∈ v.queue ch, x = d) (task : Task P c v.priv v.past)
      (left : 0 < v.priv.xferLen) (xferCb : v.priv.xferCb ≠ none) (moving : Moving c v.priv v.past)
  | ending (d : Desc) (f : Cb) (held : v.held = true) (requests : v.requests = []) (waits : Waits v v.priv.dir.chan d)
      (cb : d.callback = some (f, c)) (loc : ∃ a, d.localAddr = .ram a)
      (beside : ∀ ch, ch ≠ v.priv.dir.chan → v.queue ch = []) (task : Task P c v.priv v.past)
      (xferCb : v.priv.xferCb = some f) (moved : AllMoved c v.priv v.past)
  | away (m : RpmsgPayload) (held : v.held = true) (requests : v.requests = [m]) (queue : ∀ ch, v.queue ch = [])
      (task : Task P c v.priv v.past) (moved : AllMoved c v.priv v.past) (tx : parts .tx v.past = [])
      (vendor : v.priv.demand P = .vendor) (sent : Sent c v.priv.sqBuf v.priv.block v.past m) (earlier : v.priv.xferCb ≠ some .rpmsgCmdReturnCb)
  | posted (d : Desc) (held : v.held = true) (requests : v.requests = []) (waits : Waits v .tx d)
      (entered : Entered P c d v.priv v.past (v.queue .tx = [d] ∧ v.queue .rx = []))
  | lost (why : Loss) (held : v.held = true) (requests : v.requests = []) (plain : ∀ ch, Plain (v.queue ch))
      (lost : .lost c why ∈ v.past)

/-- The code that runs for the command has still to hand it on. -/
structure Owing (p : NvmeCmdPriv) (h : List Obs) (empty : Chan → Prop) (v : View) : Prop where
  held : v.held = true
  priv : v.priv = p
  past : v.past = h
  live : Open h
  requests : v.requests = []
  plain : ∀ ch, Plain (v.queue ch)
  empty : ∀ ch, empty ch → v.queue ch = []

/-- The command was handed on, with `f` as the callback that comes next and `n` bytes left. -/
structure Gone (P : Platform) (c : Slot) (f : Cb) (n : Nat) (v : View) : Prop where
  standing : Standing P c v
  requests : v.requests = []
  calm : ∀ ch, ∀ d ∈ v.queue ch, ∀ cb e, d.callback = some (cb, e) → cb = f ∨ cb = .cqCb
  left : v.priv.xferLen = n

def Between (P : Platform) (c : Slot) (s : Fw) : Prop := (∃ p h k, Owing p h k (s.view c)) ∨ Standing P c (s.view c)

/-- What others may do while code runs for `c`, which waits for callbacks in `F` at most. -/
structure Leaves (P : Platform) (c : Slot) (F : Cb → Prop) (s t : Fw) : Prop where
  owing : ∀ p h k, Owing p h k (s.view c) → Owing p h k (t.view c)
  standing : Standing P c (s.view c) → Standing P c (t.view c)
  gone : ∀ f n, F f → Gone P c f n (s.view c) → Gone P c f n (t.view c)

section

variable {P : Platform} {c : Slot}

theorem Leaves.refl (c : Slot) (F : Cb → Prop) (s : Fw) : Leaves P c F s s := ⟨fun _ _ _ => id, id, fun _ _ _ => id⟩

theorem Leaves.trans {F : Cb → Prop} {s t u : Fw} (h : Leaves P c F s t) (g : Leaves P c F t u) : Leaves P c F s u :=
  ⟨fun p e k o => g.owing p e k (h.owing p e k o), fun o => g.standing (h.standing o),
    fun f n hf o => g.gone f n hf (h.gone f n hf o)⟩

/-- Where others may act. A completion ring is accessed for a command of its queue that is still to be handed on. -/
structure Turn (P : Platform) (c : Slot) (l : Access) (s : Fw) : Prop where
  between : Between P c s
  ring : ∀ q, l = .ring q → ∃ p h k, Owing p h k (s.view c) ∧ p.qid = q

/-- Code for `c`, whatever others do in between. -/
abbrev Carries (P : Platform) (c : Slot) (F : Cb → Prop) {α : Type} (Q : α → Fw → Prop) (p : Code α) (s : Fw) : Prop :=
  p.Safe (fun _ => Leaves P c F) (Turn P c) Q s

end

section Parts

variable {P : Platform} {c : Slot} {ch : Chan} {p : NvmeCmdPriv} {h : List Obs} {o : Obs}

/-- Events that say nothing of data, blocks, entries and failed allocations. -/
def Obs.Neutral : Obs → Prop
  | .cmdAlloc .. | .queued .. | .cmdFree _ | .noDescriptor _ | .noPrpBuffer _ | .poolAlloc _ => False
  | _ => True

def Obs.Dataless (o : Obs) : Prop := ∀ ch, o.piece? ch = none

theorem Obs.Neutral.dataless (ho : o.Neutral) : o.Dataless := by
  intro ch
  cases o <;> first | rfl | exact ho.elim

theorem Obs.Neutral.milestone (ho : o.Neutral) : o.milestone? = none := by
  cases o <;> first | rfl | exact ho.elim

theorem Obs.Neutral.block (ho : o.Neutral) : o.block? = none := by
  cases o <;> first | rfl | exact ho.elim

theorem parts_none (ho : o.piece? ch = none) : parts ch (o :: h) = parts ch h := by
  rw [parts, List.filterMap_cons_none ho]
  rfl

theorem parts_some {x : Piece} (ho : o.piece? ch = some x) : parts ch (o :: h) = parts ch h ++ [x] := by
  rw [parts, List.filterMap_cons_some ho, List.reverse_cons]
  rfl

theorem milestones_none (ho : o.milestone? = none) : milestones (o :: h) = milestones h :=
  List.filterMap_cons_none ho

theorem grants_none (ho : o.block? = none) : grants (o :: h) = grants h := List.filterMap_cons_none ho

theorem open_none (ho : o.milestone? = none) : Open (o :: h) ↔ Open h := by
  rw [Open, milestones_none ho]
  rfl

theorem ended_none (ho : o.milestone? = none) : Ended (o :: h) ↔ Ended h := by
  rw [Ended, milestones_none ho]
  rfl

theorem names_none {b : KMemBlock} (ho : o.block? = none) : Names b (o :: h) ↔ Names b h := by
  rw [Names, grants_none ho]
  rfl

theorem served_tail (served : Served c (o :: h)) : Served c h :=
  ⟨fun mem => served.1 (List.mem_cons_of_mem _ mem), fun mem => served.2 (List.mem_cons_of_mem _ mem)⟩

theorem covers_none {base size stop : Nat} (ho : o.piece? ch = none) :
    Covers ch (o :: h) base size stop ↔ Covers ch h base size stop :=
  ⟨fun ⟨piece, laid⟩ => ⟨parts_none ho ▸ piece, parts_none ho ▸ laid⟩,
    fun ⟨piece, laid⟩ => ⟨(parts_none ho).symm ▸ piece, (parts_none ho).symm ▸ laid⟩⟩

theorem whole_none (ho : o.piece? ch = none) : Whole ch (o :: h) ↔ Whole ch h := by
  simp only [Whole, parts_none ho, covers_none ho]

theorem Moving.note (m : Moving c p h) (ho : o.Dataless) : Moving c p (o :: h) where
  len := m.len
  buf := m.buf
  pieces served := by
    obtain ⟨covers, whole⟩ := m.pieces (served_tail served)
    exact ⟨(covers_none (ho _)).mpr covers, fun ch other => (whole_none (ho ch)).mpr (whole ch other)⟩

theorem AllMoved.note (m : AllMoved c p h) (ho : o.Dataless) : AllMoved c p (o :: h) := by
  intro served
  obtain ⟨whole, covers⟩ := m (served_tail served)
  exact ⟨fun ch => (whole_none (ho ch)).mpr (whole ch), fun some' => (covers_none (ho _)).mpr (covers some')⟩

theorem Sent.cons {e : SqBuf} {b : KMemBlock} {m : RpmsgPayload} (s : Sent c e b h m) (ho : o.piece? .rx = none) :
    Sent c e b (o :: h) m :=
  ⟨List.mem_cons_of_mem _ s.mem, s.entry, s.buf, fun served brings =>
    (covers_none ho).mpr (s.data (served_tail served) brings)⟩

/-- Data on the channel of the transfer under way does not change what it is for. -/
theorem Asked.cons (a : Asked P c p h) (ho : ∀ ch, ch ≠ p.dir.chan → o.piece? ch = none) : Asked P c p (o :: h) := by
  unfold Asked at a ⊢
  cases e : p.xferCb with
  | none => trivial
  | some f =>
    rw [e] at a
    cases f with
    | vendorCb =>
      obtain ⟨vendor, dir, tx, rest⟩ := a
      rw [dir] at ho
      exact ⟨vendor, dir, (parts_none (ho .tx nofun)).trans tx, rest⟩
    | rpmsgCmdReturnCb =>
      obtain ⟨vendor, dir, m, sent, rest⟩ := a
      rw [dir] at ho
      exact ⟨vendor, dir, m, sent.cons (ho .rx nofun), rest⟩
    | _ => exact a

theorem Performed.note (a : Performed P c p h) (ho : o.Dataless) : Performed P c p (o :: h) := by
  unfold Performed at a ⊢
  cases e : p.demand P with
  | data dir buf size =>
    rw [e] at a
    exact (covers_none (ho _)).mpr a
  | vendor =>
    rw [e] at a
    obtain ⟨m, sent, back⟩ := a
    exact ⟨m, sent.cons (ho .rx), fun cb => (covers_none (ho _)).mpr (back cb)⟩
  | manage => trivial
  | refused =>
    rw [e] at a
    exact a

theorem Task.cons (t : Task P c p h) (ho : ∀ ch, ch ≠ p.dir.chan → o.piece? ch = none) (milestone : o.milestone? = none)
    (block : o.block? = none) : Task P c p (o :: h) where
  fit := t.fit
  answered := List.mem_cons_of_mem _ t.answered
  status := t.status
  before := (milestones_none milestone).trans t.before
  names := (names_none block).mpr t.names
  asked := t.asked.cons ho

theorem Task.note (t : Task P c p h) (ho : o.Neutral) : Task P c p (o :: h) :=
  t.cons (fun ch _ => ho.dataless ch) ho.milestone ho.block

theorem Settled.note {empty : Prop} (s : Settled P c p h empty) (ho : o.Dataless) : Settled P c p (o :: h) empty where
  moved served psdt := by
    obtain ⟨none, moved⟩ := s.moved (served_tail served) psdt
    exact ⟨none, moved.note ho⟩
  performed served meant := (s.performed (served_tail served) meant).note ho
  logged served := s.logged (served_tail served)

theorem Settled.imp {empty empty' : Prop} (s : Settled P c p h empty) (imp : empty → empty') : Settled P c p h empty' :=
  ⟨fun served psdt => ⟨imp (s.moved served psdt).1, (s.moved served psdt).2⟩, s.performed, s.logged⟩

theorem Entered.note {d : Desc} {empty : Prop} (e : Entered P c d p h empty) (ho : o.Neutral) : Entered P c d p (o :: h) empty where
  cb := e.cb
  loc := e.loc
  record := by
    obtain ⟨q, mem, same⟩ := e.record
    exact ⟨q, List.mem_cons_of_mem _ mem, same⟩
  answered := List.mem_cons_of_mem _ e.answered
  status := e.status
  milestone := (milestones_none ho.milestone).trans e.milestone
  names := (names_none ho.block).mpr e.names
  settled := e.settled.note ho.dataless

/-- An event about a command that is handed on changes nothing. -/
theorem Standing.note {v : View} (h : Standing P c v) (ho : o.Neutral) : Standing P c (v.note o) := by
  cases h with
  | free held requests rx tx ended =>
    exact .free held requests rx tx ((ended_none ho.milestone).mpr ended)
  | fetched d held requests waits tx cb loc fit xferCb parts before block =>
    exact .fetched d held requests ⟨waits.last, waits.plain⟩ tx cb loc fit xferCb
      (fun ch => (parts_none (ho.dataless ch)).trans (parts ch)) ((milestones_none ho.milestone).trans before)
      ⟨block.1, (grants_none ho.block).trans block.2⟩
  | listing d held requests waits cb loc beside task left xferCb moving =>
    exact .listing d held requests ⟨waits.last, waits.plain⟩ cb loc beside (task.note ho) left xferCb (moving.note ho.dataless)
  | ending d f held requests waits cb loc beside task xferCb moved =>
    exact .ending d f held requests ⟨waits.last, waits.plain⟩ cb loc beside (task.note ho) xferCb (moved.note ho.dataless)
  | away m held requests queue task moved tx vendor sent earlier =>
    exact .away m held requests queue (task.note ho) (moved.note ho.dataless) ((parts_none (ho.dataless .tx)).trans tx)
      vendor (sent.cons (ho.dataless .rx)) earlier
  | posted d held requests waits entered =>
    exact .posted d held requests ⟨waits.last, waits.plain⟩ (entered.note ho)
  | lost why held requests plain lost => exact .lost why held requests plain (List.mem_cons_of_mem _ lost)

end Parts
end AlkaliFw
