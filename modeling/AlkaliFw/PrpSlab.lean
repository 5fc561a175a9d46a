import AlkaliFw.Atomic
import AlkaliFw.Lease

/-! Who holds the blocks of `prp_slab`. A block is taken by a command with more than one page
left, lives on while one list after the other is fetched into it, and is given back by the
callback that submits the last chunk. A command that is lost on the way keeps it, with its slot. -/

namespace AlkaliFw
open Resumption

def Obs.lease? : Obs → Option (Lease.Entry Slot Nat)
  | .prpAlloc c b => some (.take c b)
  | .prpFree c b => some (.give c b)
  | _ => none

def leases (tr : List Obs) : List (Lease.Entry Slot Nat) := tr.filterMap Obs.lease?

def prpHolder (b : Nat) (tr : List Obs) : Option Slot := Lease.holder b (leases tr)

def Desc.into (b : Nat) (d : Desc) : Bool := d.localAddr = .prp b

/-- A list is under way into block `b`: a fetch was queued whose callback has not begun. -/
def ListPending (b : Nat) (tr : List Obs) : Prop :=
  (tr.filterMap (Obs.called? .rx)).countP (Desc.into b) < (tr.filterMap (Obs.queued? .rx)).countP (Desc.into b)

/-- What has to hold of the events before this one. -/
def Obs.Orderly : Obs → List Obs → Prop
  | .prpAlloc c b, old => Lease.Entry.Regular (.take c b) (leases old)
  | .prpFree c b, old => Lease.Entry.Regular (.give c b) (leases old) ∧ ¬ListPending b old
  | .cmdFree c, old => ∀ b, prpHolder b old ≠ some c
  | .noPrpBuffer _, _ => False
  | _, _ => True

def PrpOrderly (tr : List Obs) : Prop := ∀ o old, o :: old <:+ tr → o.Orderly old

/-- Blocks in use are those that were taken and not given back; each belongs to one slot in use,
and each slot has at most one. -/
structure PrpConserved (s : Fw) : Prop where
  held : ∀ b, b ∈ s.prpSlab.used ↔ ∃ c, prpHolder b s.trace = some c
  allocated : ∀ b c, prpHolder b s.trace = some c → c ∈ s.cmdSlab.used
  one : ∀ b x c, prpHolder b s.trace = some c → prpHolder x s.trace = some c → b = x
  orderly : PrpOrderly s.trace
  balance : ∀ b, Lease.takes b (leases s.trace) =
    Lease.gives b (leases s.trace) + if b ∈ s.prpSlab.used then 1 else 0
  count : s.prpSlab.used.length ≤ s.cmdSlab.used.length ∧ s.cmdSlab.used.length ≤ nvmeCmdSlabSize ∧
    nvmeCmdSlabSize = nvmePrpSlabSize

/-! A command that holds a block waits for a list, or for nothing at all. -/

structure Stranded (v : View) : Prop where
  held : v.held = true
  requests : v.requests = []
  plain : ∀ ch, Plain (v.queue ch)

def Fw.listing (s : Fw) (b : Nat) (c : Slot) : Prop := ∃ d ∈ (s.ch .rx).fifo, d.localAddr = .prp b ∧ d.owner = c

/-- Blocks against slots and lists, while code runs for the command `busy`. -/
structure Leased (busy : Option Slot) (s : Fw) : Prop where
  slab : ∀ b, b ∈ s.prpSlab.used ↔ ∃ c, prpHolder b s.trace = some c
  slots : ∀ b c, prpHolder b s.trace = some c → c ∈ s.cmdSlab.used
  orderly : PrpOrderly s.trace
  queued : s.trace.filterMap (Obs.queued? .rx) = (s.ch .rx).fifo.reverse ++ s.trace.filterMap (Obs.called? .rx)
  lists : ∀ ch, ∀ d ∈ (s.ch ch).fifo, ∀ b, d.localAddr = .prp b →
    ch = .rx ∧ d.callback = some (.prpCb, d.owner) ∧ prpHolder b s.trace = some d.owner
  waits : ∀ b c, busy ≠ some c → prpHolder b s.trace = some c → s.listing b c ∨ Stranded (s.view c)

/-- Code runs for `c`, which has the block `st`, if any, and has requested no list. -/
structure Having (c : Slot) (st : Option Nat) (s : Fw) : Prop extends Leased (some c) s where
  own : ∀ b, prpHolder b s.trace = some c ↔ st = some b
  idle : ∀ d ∈ (s.ch .rx).fifo, ∀ b, d.localAddr = .prp b → d.owner ≠ c

section Histories

variable {o : Obs} {tr : List Obs} {b : Nat}

theorem PrpOrderly.cons (h : PrpOrderly tr) (new : o.Orderly tr) : PrpOrderly (o :: tr) := by
  intro x old suffix
  rcases List.suffix_cons_iff.mp suffix with here | later
  · cases here
    exact new
  · exact h x old later

theorem leases_none (none : o.lease? = none) : leases (o :: tr) = leases tr := List.filterMap_cons_none none

theorem holder_none (none : o.lease? = none) : prpHolder b (o :: tr) = prpHolder b tr := by
  rw [prpHolder, leases_none none]
  rfl

theorem holder_alloc {c : Slot} {x : Nat} : prpHolder x (.prpAlloc c b :: tr) = if b = x then some c else prpHolder x tr :=
  Lease.holder_take

theorem holder_free {c : Slot} {x : Nat} : prpHolder x (.prpFree c b :: tr) = if b = x then none else prpHolder x tr :=
  Lease.holder_give

theorem PrpOrderly.regular (h : PrpOrderly tr) : Lease.Regular (leases tr) := by
  induction tr with
  | nil => trivial
  | cons o tr ih =>
    have before := ih fun x old suffix => h x old (suffix.trans (List.suffix_cons ..))
    have now := h o tr List.suffix_rfl
    cases o with
    | prpAlloc c b => exact ⟨now, before⟩
    | prpFree c b => exact ⟨now.1, before⟩
    | _ => exact before

/-- Neither a block nor a list. -/
def Obs.Idle : Obs → Prop
  | .prpAlloc .. | .prpFree .. | .cmdFree _ | .noPrpBuffer _ => False
  | .queued _ d _ => ∀ b, d.localAddr ≠ .prp b
  | _ => True

theorem Obs.Idle.lease (idle : o.Idle) : o.lease? = none := by
  cases o <;> first | rfl | exact idle.elim

theorem Obs.Idle.orderly (idle : o.Idle) : o.Orderly tr := by
  cases o <;> trivial

end Histories

section Actions

variable {P : Platform} {c : Slot} {busy : Option Slot} {st : Option Nat} {s t : Fw}

theorem Leased.one (h : Leased busy s) {b x : Nat} (hb : prpHolder b s.trace = some c) (hx : prpHolder x s.trace = some c) : b = x :=
  h.orderly.regular.one hb hx

/-- Nothing that blocks or lists depend on changes. -/
theorem Leased.congr (h : Leased busy s) (prp : t.prpSlab = s.prpSlab) (cmd : t.cmdSlab = s.cmdSlab)
    (fifo : ∀ ch, (t.ch ch).fifo = (s.ch ch).fifo) (trace : t.trace = s.trace)
    (views : ∀ e, busy ≠ some e → Stranded (s.view e) → Stranded (t.view e)) : Leased busy t := by
  obtain ⟨slab, slots, orderly, queued, lists, waits⟩ := h
  refine ⟨?_, ?_, ?_, ?_, fun ch => ?_, fun b e other held => ?_⟩
  · rwa [prp, trace]
  · rwa [cmd, trace]
  · rwa [trace]
  · rwa [trace, fifo]
  · rw [trace, fifo]
    exact lists ch
  · rw [trace] at held
    rw [Fw.listing, fifo]
    exact (waits b e other held).imp id (views e other)

/-- The same, with an event that is not about them. -/
theorem Leased.next (h : Leased busy s) {o : Obs} (idle : o.Idle) (trace : t.trace = o :: s.trace) (prp : t.prpSlab = s.prpSlab)
    (cmd : t.cmdSlab = s.cmdSlab)
    (queued : t.trace.filterMap (Obs.queued? .rx) = (t.ch .rx).fifo.reverse ++ t.trace.filterMap (Obs.called? .rx))
    (fifo : ∀ ch, ∀ d ∈ (t.ch ch).fifo, d ∈ (s.ch ch).fifo ∨ ∀ b, d.localAddr ≠ .prp b)
    (keeps : ∀ d ∈ (s.ch .rx).fifo, d ∈ (t.ch .rx).fifo)
    (views : ∀ e, busy ≠ some e → Stranded (s.view e) → Stranded (t.view e)) : Leased busy t := by
  have same (b : Nat) : prpHolder b t.trace = prpHolder b s.trace := by rw [trace, holder_none idle.lease]
  refine ⟨?_, ?_, ?_, queued, fun ch d mem b loc => ?_, fun b e other held => ?_⟩
  · simp only [prp, same]
    exact h.slab
  · simp only [cmd, same]
    exact h.slots
  · rw [trace]
    exact h.orderly.cons idle.orderly
  · rw [same]
    rcases fifo ch d mem with old | none
    · exact h.lists ch d old b loc
    · exact absurd loc (none b)
  · rw [same] at held
    exact (h.waits b e other held).imp (fun ⟨x, mem, list⟩ => ⟨x, keeps x mem, list⟩) (views e other)

theorem Leased.note (h : Leased busy s) {o : Obs} (idle : o.Idle) (queued : o.queued? .rx = none) (called : o.called? .rx = none)
    (ch : t.ch = s.ch) (trace : t.trace = o :: s.trace) (prp : t.prpSlab = s.prpSlab) (cmd : t.cmdSlab = s.cmdSlab)
    (views : ∀ e, busy ≠ some e → Stranded (s.view e) → Stranded (t.view e)) : Leased busy t := by
  refine h.next idle trace prp cmd ?_ (fun _ d mem => .inl (ch ▸ mem)) (fun d mem => ch.symm ▸ mem) views
  rw [trace, ch, List.filterMap_cons_none queued, List.filterMap_cons_none called]
  exact h.queued

theorem queued_put {at' : Chan} {d : Desc} {p : NvmeCmdPriv} (ch : t.ch = (s.put at' d).ch) (trace : t.trace = .queued at' d p :: s.trace)
    (h : s.trace.filterMap (Obs.queued? .rx) = (s.ch .rx).fifo.reverse ++ s.trace.filterMap (Obs.called? .rx)) :
    t.trace.filterMap (Obs.queued? .rx) = (t.ch .rx).fifo.reverse ++ t.trace.filterMap (Obs.called? .rx) := by
  have called : (Obs.queued at' d p).called? .rx = none := rfl
  rw [trace, ch, fifo_put, List.filterMap_cons_none called]
  cases at' with
  | rx =>
    have queued : (Obs.queued .rx d p).queued? .rx = some d := rfl
    rw [List.filterMap_cons_some queued, h, if_pos rfl, List.reverse_append]
    rfl
  | tx =>
    have queued : (Obs.queued .tx d p).queued? .rx = none := rfl
    rw [List.filterMap_cons_none queued, h, if_neg nofun]

theorem mem_put {ch ch' : Chan} {d x : Desc} : x ∈ ((s.put ch d).ch ch').fifo ↔ x ∈ (s.ch ch').fifo ∨ ch' = ch ∧ x = d := by
  rw [fifo_put]
  split <;> simp [*]

/-- A transfer other than that of a list is queued. -/
theorem Leased.put (h : Leased busy s) {at' : Chan} {d : Desc} {p : NvmeCmdPriv} (data : ∀ b, d.localAddr ≠ .prp b)
    (ch : t.ch = (s.put at' d).ch) (trace : t.trace = .queued at' d p :: s.trace) (prp : t.prpSlab = s.prpSlab)
    (cmd : t.cmdSlab = s.cmdSlab) (views : ∀ e, busy ≠ some e → Stranded (s.view e) → Stranded (t.view e)) : Leased busy t := by
  refine h.next (o := .queued at' d p) data trace prp cmd (queued_put ch trace h.queued) (fun ch' x mem => ?_) (fun x mem => ?_) views
  · rw [ch] at mem
    rcases mem_put.mp mem with old | ⟨-, rfl⟩
    · exact .inl old
    · exact .inr data
  · rw [ch]
    exact mem_put.mpr (.inl mem)

theorem Having.settled (h : Having c st s) (done : st = none ∨ Stranded (s.view c)) : Leased none s := by
  refine ⟨h.slab, h.slots, h.orderly, h.queued, h.lists, fun b e _ held => ?_⟩
  by_cases same : e = c
  · subst same
    have own := (h.own b).mp held
    rcases done with none | stranded
    · rw [none] at own
      cases own
    · exact .inr stranded
  · exact h.waits b e (fun here => same (Option.some.inj here).symm) held

/-- An action for `c` that has nothing to do with blocks and lists. -/
structure Calm (P : Platform) (c : Slot) (l : Access) (s t : Fw) : Prop where
  act : FineAct P c l s t
  slabs : t.prpSlab = s.prpSlab ∧ t.cmdSlab = s.cmdSlab
  event : ∀ o, t.trace = o :: s.trace → o.Idle

theorem Calm.silent {l : Access} (act : FineAct P c l s t) (slabs : t.prpSlab = s.prpSlab ∧ t.cmdSlab = s.cmdSlab)
    (trace : t.trace = s.trace) : Calm P c l s t :=
  ⟨act, slabs, fun _ same => absurd (trace.symm.trans same) (List.cons_ne_self _ _).symm⟩

theorem Calm.one {l : Access} {o : Obs} (act : FineAct P c l s t) (slabs : t.prpSlab = s.prpSlab ∧ t.cmdSlab = s.cmdSlab)
    (trace : t.trace = o :: s.trace) (idle : o.Idle) : Calm P c l s t := by
  refine ⟨act, slabs, fun x same => ?_⟩
  obtain ⟨rfl, -⟩ := List.cons.inj (trace.symm.trans same)
  exact idle

theorem Having.congr (h : Having c st s) (prp : t.prpSlab = s.prpSlab) (cmd : t.cmdSlab = s.cmdSlab) (ch : t.ch = s.ch)
    (trace : t.trace = s.trace) (views : ∀ e, e ≠ c → t.view e = s.view e) : Having c st t := by
  refine ⟨h.toLeased.congr prp cmd (fun e => by rw [ch]) trace fun e other stranded => ?_, ?_, ?_⟩
  · rwa [views e fun same => other (congrArg some same.symm)]
  · rw [trace]
    exact h.own
  · rw [ch]
    exact h.idle

theorem Having.note (h : Having c st s) {o : Obs} (idle : o.Idle) (silent : o.queued? .rx = none ∧ o.called? .rx = none)
    (ch : t.ch = s.ch) (trace : t.trace = o :: s.trace) (prp : t.prpSlab = s.prpSlab) (cmd : t.cmdSlab = s.cmdSlab)
    (views : ∀ e, e ≠ c → t.view e = s.view e) : Having c st t := by
  refine ⟨h.toLeased.note idle silent.1 silent.2 ch trace prp cmd fun e other stranded => ?_, ?_, ?_⟩
  · rwa [views e fun same => other (congrArg some same.symm)]
  · simp only [trace, holder_none idle.lease]
    exact h.own
  · rw [ch]
    exact h.idle

theorem Having.calm {l : Access} (h : Having c st s) (calm : Calm P c l s t) : Having c st t := by
  obtain ⟨prp, cmd⟩ := calm.slabs
  have views (e : Slot) (other : e ≠ c) : t.view e = s.view e := calm.act.view_other other
  cases calm.act.effect with
  | none ch trace => exact h.congr prp cmd ch trace views
  | note o ch trace plain =>
    have silent : o.queued? .rx = none ∧ o.called? .rx = none := by
      cases o <;> first | exact plain.elim | exact ⟨rfl, rfl⟩
    exact h.note (calm.event o trace) silent ch trace prp cmd views
  | put at' d owner _ _ ch trace =>
    have data : ∀ b, d.localAddr ≠ .prp b := calm.event _ trace
    refine ⟨h.toLeased.put data ch trace prp cmd fun e other stranded => ?_, ?_, fun x mem b loc => ?_⟩
    · rwa [views e fun same => other (congrArg some same.symm)]
    · simp only [trace, holder_none (o := .queued at' d _) rfl]
      exact h.own
    · rw [ch] at mem
      rcases mem_put.mp mem with old | ⟨-, rfl⟩
      · exact h.idle x old b loc
      · exact absurd loc (data b)

theorem Having.acts {α : Type} {p : Code α} {a : α} (h : Having c st s) (fit : Fitted s) (acts : p.Acts Fitted (Calm P c))
    (run : p.run s = some (a, t)) : Having c st t ∧ Fitted t :=
  acts.run (I := fun u => Having c st u ∧ Fitted u) (fun _ hu => hu.2)
    (fun _ _ _ calm hu => ⟨hu.1.calm calm, fitted_closed.fine c _ _ _ calm.act hu.2⟩) ⟨h, fit⟩ run

end Actions

section Code

variable (P : Platform) (c : Slot)

theorem calm_look (l : Access) (s : Fw) : Calm P c l s s := .silent (.look l s) ⟨rfl, rfl⟩ rfl

theorem calm_lost (why : Loss) (s : Fw) : Calm P c .other s (s.note (.lost c why)) :=
  .one (.own (.lost why s)) ⟨rfl, rfl⟩ rfl trivial

theorem calm_cmd {f : NvmeCmdPriv → NvmeCmdPriv} (assigns : Assigns f) (s : Fw) : Calm P c (.cmd c) s (s.setCmd c f) :=
  .silent (.own (.cmd s assigns)) ⟨rfl, rfl⟩ rfl

theorem calm_nvmeDmaXfer (ch : Chan) (tag host : Nat) (loc : Local) (len : Nat) (callback : Option (Cb × Slot)) (data : ∀ b, loc ≠ .prp b)
    (put : ∀ s block q, FineAct P c (.submit callback) s (s.put ch ⟨callback, host, loc, len, tag, block, c, q⟩)) :
    (nvmeDmaXfer P ch tag host loc len callback c).Acts Fitted (Calm P c) := by
  refine (over_nvmeDmaXfer P c (C := fun _ => False) ch tag host loc len callback (fun s b slab alloc => ?_) (fun s => ?_)
    fun s block q => ?_).acts (fun _ _ _ h => h) fun _ => False.elim
  · exact .silent (.own (.fill alloc)) ⟨rfl, rfl⟩ rfl
  · exact .one (.own (.noDescriptor s)) ⟨rfl, rfl⟩ rfl trivial
  · exact .one (put s block q) ⟨rfl, rfl⟩ rfl data

theorem calm_nvmeTcGetCqAddr (q : QId) : (nvmeTcGetCqAddr q).Acts Fitted (Calm P c) := by
  refine Prog.acts_look_bind (calm_look P c _) fun s _ => Prog.acts_look_bind (calm_look P c _) fun s' _ => ?_
  refine Prog.acts_ite (fun _ => Prog.acts_stuck) fun _ => Prog.acts_look_bind (calm_look P c _) fun _ _ => ?_
  refine Prog.acts_ite (fun _ => ?_) fun _ => Prog.acts_pure _
  refine Prog.acts_look_bind (calm_look P c _) fun _ _ => Prog.acts_bind ?_ fun _ => ?_
  · refine Prog.acts_when fun _ => Prog.acts_look_bind (calm_look P c _) fun _ _ => Prog.acts_change fun s => ?_
    exact .silent (.phase q _ s) ⟨rfl, rfl⟩ rfl
  · refine Prog.acts_look_bind (calm_look P c _) fun _ _ => Prog.acts_look_bind (calm_look P c _) fun _ _ => ?_
    refine Prog.acts_bind (Prog.acts_change fun s => ?_) fun _ => Prog.acts_pure _
    exact .silent (.tail q s (Nat.mod_lt _ (by decide))) ⟨rfl, rfl⟩ rfl

theorem calm_nvmeCmdReturn : (nvmeCmdReturn P c).Acts Fitted (Calm P c) := by
  refine Prog.acts_look_bind (calm_look P c _) fun s _ => Prog.acts_bind (calm_nvmeTcGetCqAddr P c _) fun cqAddr => ?_
  refine Prog.acts_ite (fun _ => Prog.acts_change (calm_lost P c _)) fun _ => ?_
  refine Prog.acts_look_bind (calm_look P c _) fun _ _ => Prog.acts_bind (Prog.acts_change (calm_cmd P c ?_)) fun _ => ?_
  · exact ⟨fun _ => rfl, fun _ => rfl, fun _ => rfl, fun _ => ⟨rfl, rfl, rfl⟩, fun _ h => ⟨h.len, h.cb⟩⟩
  · refine Prog.acts_bind (calm_nvmeDmaXfer P c _ _ _ _ _ _ nofun fun s block q => ?_) fun ok => ?_
    · exact .entry s rfl rfl rfl
    · exact Prog.acts_when fun _ => Prog.acts_change (calm_lost P c _)

theorem calm_sendCmd : (sendCmd P c).Acts Fitted (Calm P c) := by
  refine Prog.acts_look_bind (calm_look P c _) fun s _ => Prog.acts_swap_bind (fun s => ?_) fun s => ?_
  · exact .silent (.own (.clock s)) ⟨rfl, rfl⟩ rfl
  · refine Prog.acts_ite (fun _ => Prog.acts_change (calm_lost P c _)) fun _ => Prog.acts_swap_bind (fun s => ?_) fun s => ?_
    · dsimp only
      split
      · exact .one (.own (.sent s rfl)) ⟨rfl, rfl⟩ rfl trivial
      · exact .silent (.own (.clock s)) ⟨rfl, rfl⟩ rfl
    · exact Prog.acts_when fun _ => Prog.acts_change (calm_lost P c _)

theorem calm_kMemPoolFree : (kMemPoolFree c).Acts Fitted (Calm P c) :=
  Prog.acts_change fun s => .one (.own (.poolFree s)) ⟨rfl, rfl⟩ rfl trivial

theorem calm_transferChunk (host addr len : Nat) : (transferChunk P c host addr len).Acts Fitted (Calm P c) := by
  have assigns {f : NvmeCmdPriv → NvmeCmdPriv} (h : Assigns f) := Prog.acts_change (G := Fitted) (calm_cmd P c h)
  refine Prog.acts_look_bind (calm_look P c _) fun s fit => Prog.acts_look_bind (calm_look P c _) fun s' _ => ?_
  have shape (ch : Chan) (tag block : Nat) (q : QId) :
      Shape c ch ⟨if (s.cmds c).xferLen = len then (s.cmds c).xferCb.map (·, c) else none, host, .ram addr, len, tag, block, c, q⟩ := by
    refine .data rfl ?_ rfl
    dsimp only
    split
    · cases e : (s.cmds c).xferCb with
      | none => exact .inl rfl
      | some f => exact .inr ⟨f, (fit c).cb f e, rfl⟩
    · exact .inl rfl
  rw [xferDir_eq]
  refine Prog.acts_bind (calm_nvmeDmaXfer P c _ _ _ _ _ _ nofun fun u block q => ?_) fun ok => ?_
  · exact .own (.put u (shape _ _ block q))
  · refine Prog.acts_bind (Prog.acts_when fun _ => Prog.acts_when fun _ => Prog.acts_change (calm_lost P c _)) fun _ => ?_
    refine Prog.acts_bind (assigns ?_) fun _ => assigns ?_
    · exact ⟨fun _ => rfl, fun _ => rfl, fun _ => rfl, fun _ => ⟨rfl, rfl, rfl⟩, fun _ h => ⟨Nat.mod_lt _ (by decide), h.cb⟩⟩
    · exact ⟨fun _ => rfl, fun _ => rfl, fun _ => rfl, fun _ => ⟨rfl, rfl, rfl⟩, fun _ h => ⟨h.len, h.cb⟩⟩

end Code

section Data

variable {P : Platform} {c : Slot} {st : Option Nat} {s t : Fw}

theorem Stranded.of_fifo (h : Stranded (s.view c)) (cmd : t.cmdSlab = s.cmdSlab) (fifo : ∀ ch, (t.ch ch).fifo = (s.ch ch).fifo)
    (apu : t.apu = s.apu) : Stranded (t.view c) := by
  refine ⟨?_, ?_, fun e => ?_⟩
  · simp only [Fw.view, cmd]
    exact h.held
  · simp only [Fw.view, apu]
    exact h.requests
  · simp only [Fw.view, fifo]
    exact h.plain e

theorem Stranded.congr (h : Stranded (s.view c)) (cmd : t.cmdSlab = s.cmdSlab) (ch : t.ch = s.ch) (apu : t.apu = s.apu) :
    Stranded (t.view c) := h.of_fifo cmd (fun e => by rw [ch]) apu

theorem Stranded.put (h : Stranded (s.view c)) {at' : Chan} {d : Desc} {a : Nat} (none : d.callback = none) (loc : d.localAddr = .ram a) :
    Stranded ((s.put at' d).view c) := by
  refine ⟨h.held, h.requests, fun e x mem => ?_⟩
  obtain ⟨mem, owner⟩ := List.mem_filter.mp mem
  rcases mem_put.mp mem with old | ⟨-, rfl⟩
  · exact h.plain e x (List.mem_filter.mpr ⟨old, owner⟩)
  · exact ⟨none, a, loc⟩

theorem xferLen_chunk {host addr len : Nat} (run : (transferChunk P c host addr len).run s = some ((), t)) :
    (t.cmds c).xferLen = ((s.cmds c).xferLen + 2 ^ 32 - len) % 2 ^ 32 := by
  simp only [transferChunk, xferDir_eq, Prog.run_bind, ofCmd, setCmd, Prog.run_look, Option.bind_some] at run
  generalize (if (s.cmds c).xferLen = len then (s.cmds c).xferCb.map (·, c) else none) = callback at run
  rcases run_nvmeDmaXfer P (s.cmds c).dir.chan (if (s.cmds c).dir = .toHost then 0x55 else 0xAA) host (.ram addr) len callback c s with
    ⟨block, slab, xfer, -⟩ | ⟨xfer, -⟩
  · rw [xfer] at run
    simp only [Option.bind_some, Prog.run_when, loseUnless, Bool.true_eq_false, if_false, ite_self] at run
    cases run
    simp [Fw.setCmd, Fw.put, Fw.setCh, Fw.note]
  · rw [xfer] at run
    simp only [Option.bind_some, Prog.run_when, loseUnless, lose, Prog.run_change, if_true] at run
    split at run <;> cases run <;> simp [Fw.setCmd, Fw.note]

/-- The command stays where it is until its last chunk. -/
theorem stranded_of_chunk {host addr len : Nat} (h : Stranded (s.view c))
    (run : (transferChunk P c host addr len).run s = some ((), t)) : Stranded (t.view c) ∨ (t.cmds c).xferLen = 0 := by
  by_cases last : (s.cmds c).xferLen = len
  · right
    rw [xferLen_chunk run, last]
    omega
  · left
    simp only [transferChunk, xferDir_eq, Prog.run_bind, ofCmd, setCmd, Prog.run_look, Option.bind_some, if_neg last] at run
    rcases run_nvmeDmaXfer P (s.cmds c).dir.chan (if (s.cmds c).dir = .toHost then 0x55 else 0xAA) host (.ram addr) len none c s with
      ⟨block, slab, xfer, -⟩ | ⟨xfer, -⟩
    · rw [xfer] at run
      cases run
      refine Stranded.congr (s := Fw.put { s with descSlab := slab, clock := s.clock + 1 } _ _) ?_ rfl rfl rfl
      exact Stranded.put (s := { s with descSlab := slab, clock := s.clock + 1 }) (h.congr rfl rfl rfl) rfl rfl
    · rw [xfer] at run
      cases run
      exact h.congr rfl rfl rfl

/-- The request for a list. -/
theorem Having.list {b : Nat} {d : Desc} (h : Having c (some b) s) (loc : d.localAddr = .prp b) (cb : d.callback = some (.prpCb, c))
    (owner : d.owner = c) : Leased none (s.put .rx d) := by
  have holder (x : Nat) : prpHolder x (s.put .rx d).trace = prpHolder x s.trace := holder_none (o := .queued .rx d _) rfl
  refine ⟨?_, ?_, h.orderly.cons trivial, queued_put rfl rfl h.queued, fun ch x mem y locx => ?_, fun y e _ held => ?_⟩
  · simp only [holder]
    exact h.slab
  · simp only [holder]
    exact h.slots
  · rw [holder]
    rcases mem_put.mp mem with old | ⟨rfl, rfl⟩
    · exact h.lists ch x old y locx
    · obtain rfl : b = y := Local.prp.inj (loc.symm.trans locx)
      rw [owner]
      exact ⟨rfl, cb, (h.own b).mpr rfl⟩
  · rw [holder] at held
    by_cases same : e = c
    · subst same
      obtain rfl : b = y := Option.some.inj ((h.own y).mp held)
      exact .inl ⟨d, mem_put.mpr (.inr ⟨rfl, rfl⟩), loc, owner⟩
    · rcases h.waits y e (fun here => same (Option.some.inj here).symm) held with ⟨x, mem, list⟩ | stranded
      · exact .inl ⟨x, mem_put.mpr (.inl mem), list⟩
      · right
        rwa [view_put_other (by rw [owner]; exact Ne.symm same)]

theorem leased_of_fetch {b host mps : Nat} (h : Having c (some b) s) (stranded : Stranded (s.view c)) 
    (run : (prpFetch P c b host mps).run s = some ((), t)) : Leased none t := by
  simp only [prpFetch, nvmeDmaXferHostToMem, Prog.run_bind, ofCmd, setCmd, Prog.run_look, Prog.run_change, Option.bind_some] at run
  generalize hu : s.setCmd c _ = u at run
  have slabs : u.prpSlab = s.prpSlab ∧ u.cmdSlab = s.cmdSlab ∧ u.ch = s.ch ∧ u.apu = s.apu ∧ u.trace = s.trace := by
    rw [← hu]
    exact ⟨rfl, rfl, rfl, rfl, rfl⟩
  obtain ⟨prp, cmd, ch, apu, trace⟩ := slabs
  have having : Having c (some b) u := by
    refine h.congr prp cmd ch trace fun e other => ?_
    rw [← hu]
    exact view_setCmd_other other _
  rcases run_nvmeDmaXfer P .rx 0xAA host (.prp b) (u.cmds c).prpSize (some (.prpCb, c)) c u with ⟨block, slab, xfer, -⟩ | ⟨xfer, -⟩
  · rw [xfer] at run
    cases run
    have ready : Having c (some b) { u with descSlab := slab, clock := u.clock + 1 } := having.congr rfl rfl rfl rfl fun _ _ => rfl
    exact ready.list rfl rfl rfl
  · rw [xfer] at run
    cases run
    have first : Having c (some b) (Fw.note { u with clock := u.clock + 1 } (.noDescriptor c)) :=
      having.calm (P := P) (l := .other) (.one (.own (.noDescriptor u)) ⟨rfl, rfl⟩ rfl trivial)
    exact (first.calm (calm_lost P c .descriptor _)).settled (.inr (stranded.congr cmd ch apu))

/-- The block goes back to the slab. -/
theorem Having.free {b : Nat} (h : Having c (some b) s) :
    Leased none (Fw.note { s with prpSlab := s.prpSlab.free b } (.prpFree c b)) := by
  have held : prpHolder b s.trace = some c := (h.own b).mpr rfl
  -- no list is under way into the block
  have quiet : ∀ d ∈ (s.ch .rx).fifo, ¬Desc.into b d := by
    intro d mem into
    have loc : d.localAddr = .prp b := of_decide_eq_true into
    have owner := (h.lists .rx d mem b loc).2.2
    rw [held] at owner
    exact h.idle d mem b loc (Option.some.inj owner).symm
  have fetched : ¬ListPending b s.trace := by
    rw [ListPending, h.queued, List.countP_append, List.countP_eq_zero.mpr fun d mem => quiet d (List.mem_reverse.mp mem)]
    omega
  have holder (x : Nat) : prpHolder x (Fw.note { s with prpSlab := s.prpSlab.free b } (.prpFree c b)).trace =
      if b = x then none else prpHolder x s.trace := holder_free
  refine ⟨fun x => ?_, fun x e hx => ?_, h.orderly.cons ⟨held, fetched⟩, h.queued, fun ch d mem x loc => ?_, fun x e _ hx => ?_⟩
  · rw [holder]
    change x ∈ (s.prpSlab.free b).used ↔ _
    rw [Slab.mem_free, h.slab]
    split
    · simp [*]
    · simp [Ne.symm ‹b ≠ x›]
  · rw [holder] at hx
    split at hx
    · cases hx
    · exact h.slots x e hx
  · have ne : b ≠ x := by
      rintro rfl
      obtain ⟨rfl, -⟩ := h.lists ch d mem b loc
      exact quiet d mem (decide_eq_true loc)
    rw [holder, if_neg ne]
    exact h.lists ch d mem x loc
  · rw [holder] at hx
    split at hx
    · cases hx
    · rename_i ne
      by_cases same : e = c
      · subst same
        exact absurd (Option.some.inj ((h.own x).mp hx)) ne
      · refine (h.waits x e (fun here => same (Option.some.inj here).symm) hx).imp id fun stranded => ?_
        rwa [view_note_other (o := .prpFree c b) fun here => same (Option.some.inj here).symm]

theorem run_prpEntry {b i v : Nat} (run : (prpEntry P b i).run s = some (v, t)) : t = s := by
  unfold prpEntry at run
  split at run <;> cases run
  rfl

/-- The walk over a list keeps the block until it asks for the next one or gives it back. -/
theorem leased_of_prpLoop {b mps size fuel i : Nat} (h : Having c (some b) s) (fit : Fitted s)
    (stays : Stranded (s.view c) ∨ (s.cmds c).xferLen = 0) (run : (prpLoop P c b mps size fuel i).run s = some ((), t)) :
    Leased none t := by
  induction fuel generalizing i s with
  | zero => cases run
  | succ fuel ih =>
    simp only [prpLoop, Prog.run_bind, ofCmd, Prog.run_look, Option.bind_some, Prog.run_ite] at run
    by_cases left : (s.cmds c).xferLen > 0
    · have stranded : Stranded (s.view c) := stays.resolve_right (Nat.pos_iff_ne_zero.mp left)
      rw [if_pos left] at run
      split at run
      · obtain ⟨⟨link, u⟩, entry, fetch⟩ := Option.bind_eq_some_iff.mp run
        obtain rfl := run_prpEntry entry
        exact leased_of_fetch h stranded fetch
      · obtain ⟨⟨host, u⟩, entry, rest⟩ := Option.bind_eq_some_iff.mp run
        obtain rfl := run_prpEntry entry
        obtain ⟨⟨⟨⟩, v⟩, chunk, more⟩ := Option.bind_eq_some_iff.mp rest
        obtain ⟨having, fit⟩ := h.acts fit (calm_transferChunk P c _ _ _) chunk
        exact ih having fit (stranded_of_chunk stranded chunk) more
    · rw [if_neg left] at run
      cases run
      exact h.free

/-- There is a block for a command that has none: every other one belongs to another slot. -/
theorem run_prpAlloc_having {r : Option Nat} (h : Having c none s) (held : c ∈ s.cmdSlab.used)
    (run : (prpAlloc P c).run s = some (r, t)) :
    ∃ b, r = some b ∧ Having c (some b) t ∧ t.view c = (s.view c).note (.prpAlloc c b) := by
  simp only [prpAlloc, Prog.run_swap] at run
  rcases alloc : P.kMemSlabAlloc s.prpSlab s.clock with ⟨_ | b, slab⟩
  · have full := kMemSlabAlloc_full alloc
    have le : s.prpSlab.used.length ≤ (s.cmdSlab.used.erase c).length := by
      refine h.orderly.regular.length_le s.prpSlab.nodup fun b used => ?_
      obtain ⟨e, he⟩ := (h.slab b).mp used
      refine ⟨e, (s.cmdSlab.nodup.mem_erase_iff).mpr ⟨?_, h.slots b e he⟩, he⟩
      rintro rfl
      cases (h.own b).mp he
    have fits := s.cmdSlab.length_le
    have pos := List.length_pos_of_mem held
    rw [List.length_erase_of_mem held] at le
    simp only [nvmePrpSlabSize, nvmeCmdSlabSize] at full fits
    omega
  · obtain ⟨fresh, used⟩ := kMemSlabAlloc_some alloc
    rw [alloc] at run
    cases run
    have holder (x : Nat) : prpHolder x (Fw.note { s with prpSlab := slab, clock := s.clock + 1 } (.prpAlloc c b)).trace =
        if b = x then some c else prpHolder x s.trace := holder_alloc
    have unheld : prpHolder b s.trace = none := by
      rw [Option.eq_none_iff_forall_ne_some]
      exact fun e he => fresh ((h.slab b).mpr ⟨e, he⟩)
    have lists : ∀ ch, ∀ d ∈ (s.ch ch).fifo, ∀ x, d.localAddr = .prp x → b ≠ x := by
      rintro ch d mem x loc rfl
      rw [(h.lists ch d mem b loc).2.2] at unheld
      cases unheld
    refine ⟨b, rfl, ⟨⟨fun x => ?_, fun x e hx => ?_, h.orderly.cons ⟨unheld, fun x hx => ?_⟩, h.queued, fun ch d mem x loc => ?_,
      fun x e other hx => ?_⟩, fun x => ?_, h.idle⟩, ?_⟩
    · rw [holder]
      change x ∈ slab.used ↔ _
      rw [used, List.mem_cons, h.slab]
      split
      · simp [*]
      · simp [Ne.symm ‹b ≠ x›]
    · rw [holder] at hx
      split at hx
      · cases hx
        exact held
      · exact h.slots x e hx
    · cases (h.own x).mp hx
    · rw [holder, if_neg (lists ch d mem x loc)]
      exact h.lists ch d mem x loc
    · rw [holder] at hx
      split at hx
      · exact absurd hx other
      · refine (h.waits x e other hx).imp id fun stranded => ?_
        have same : Fw.view { s with prpSlab := slab, clock := s.clock + 1 } e = s.view e := rfl
        rwa [view_note_other (o := .prpAlloc c b) other, same]
    · rw [holder]
      split
      · simp [*]
      · simp only [h.own x, Option.some.injEq, ‹b ≠ x›, reduceCtorEq]
    · exact view_note_own (o := .prpAlloc c b) rfl rfl

/-- A transfer is under way when the function returns, or waits for its first list. -/
theorem leased_of_transfer (h : Having c none s) (fit : Fitted s) (stranded : Stranded (s.view c))
    (run : (transferDataWithPrps P c).run s = some ((), t)) : Leased none t := by
  simp only [transferDataWithPrps, Prog.run_bind, ofCmd, Prog.run_look, Option.bind_some, Prog.run_ite] at run
  split at run
  · cases run
  · obtain ⟨⟨⟨⟩, u⟩, first, rest⟩ := Option.bind_eq_some_iff.mp run
    obtain ⟨having, fit⟩ := h.acts fit (calm_transferChunk P c _ _ _) first
    split at rest
    · cases rest
      exact having.settled (.inl rfl)
    · rename_i left
      have stranded := (stranded_of_chunk stranded first).resolve_right left
      split at rest
      · obtain ⟨⟨r, v⟩, alloc, rest⟩ := Option.bind_eq_some_iff.mp rest
        obtain ⟨b, rfl, having, view⟩ := run_prpAlloc_having having (of_decide_eq_true stranded.held) alloc
        simp only [Prog.run_bind, Prog.run_look, Option.bind_some] at rest
        obtain ⟨⟨⟨⟩, w⟩, fetch, rest⟩ := Option.bind_eq_some_iff.mp rest
        cases rest
        refine leased_of_fetch having ?_ fetch
        rw [view]
        exact ⟨stranded.held, stranded.requests, stranded.plain⟩
      · exact (having.acts fit (calm_transferChunk P c _ _ _) rest).1.settled (.inl rfl)

end Data
end AlkaliFw
