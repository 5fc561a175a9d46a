import AlkaliFw.PrpSlab

/-! Blocks of `prp_slab` over whole runs. A handler starts at most one transfer and does nothing
after it that needs a block, so each callback hands its command on with what it holds. -/

namespace AlkaliFw
open Resumption

/-- An action after which the command is still to be handed on. -/
structure Restful (P : Platform) (c : Slot) (l : Access) (s t : Fw) : Prop where
  calm : Calm P c l s t
  stays : Stranded (s.view c) → Stranded (t.view c)

/-- How code for a command ends: calmly, or with a transfer, after which only a rejected command goes on. -/
def LastOf (P : Platform) (c : Slot) (p : Code Unit) : Prop :=
  p.Acts Fitted (Calm P c) ∨
    ∃ g : Bool → Code Unit, p = nvmeCmdTransferData P c >>= g ∧ (g true).Acts Fitted (Calm P c) ∧ g false = pure ()

abbrev Ready (P : Platform) (c : Slot) (p : Code Unit) : Prop := p.Until Fitted (Restful P c) (LastOf P c)

section Code

variable (P : Platform) (c : Slot)

theorem Restful.of {P : Platform} {c : Slot} {l : Access} {s t : Fw} (calm : Calm P c l s t) (ch : t.ch = s.ch) (apu : t.apu = s.apu) :
    Restful P c l s t := ⟨calm, fun h => h.congr calm.slabs.2 ch apu⟩

theorem rest_look (l : Access) (s : Fw) : Restful P c l s s := .of (calm_look P c l s) rfl rfl

theorem rest_cmd {f : NvmeCmdPriv → NvmeCmdPriv} (assigns : Assigns f) (s : Fw) : Restful P c (.cmd c) s (s.setCmd c f) :=
  .of (calm_cmd P c assigns s) rfl rfl

theorem ready_calm {p : Code Unit} (calm : p.Acts Fitted (Calm P c)) : Ready P c p := .last (.inl calm)

theorem ready_return : Ready P c (nvmeCmdReturn P c) := ready_calm P c (calm_nvmeCmdReturn P c)

theorem ready_transfer {buf len : Nat} {dir : Dir} {f : Cb} (word : len < 2 ^ 32) (ends : f.Ends) {g : Bool → Code Unit}
    (rejected : (g true).Acts Fitted (Calm P c)) (accepted : g false = pure ()) :
    Ready P c (setXfer c buf len dir f >>= fun _ => nvmeCmdTransferData P c >>= g) := by
  refine Prog.until_change_bind (rest_cmd P c ?_) (.last (.inr ⟨g, rfl, rejected, accepted⟩))
  refine ⟨fun _ => rfl, fun _ => rfl, fun _ => rfl, fun _ => ⟨rfl, rfl, rfl⟩, fun p _ => ⟨word, fun _ e => ?_⟩⟩
  cases e
  exact ends

theorem ready_returnData {buf len : Nat} (word : len < 2 ^ 32) : Ready P c (nvmeCmdReturnData P c buf len) :=
  ready_transfer P c (f := .nvmeCmdReturnCb) (g := fun rejected => .when rejected (nvmeCmdReturn P c)) word trivial (calm_nvmeCmdReturn P c) rfl

theorem ready_getData {buf len : Nat} (word : len < 2 ^ 32) : Ready P c (nvmeCmdGetData P c buf len) :=
  ready_transfer P c (f := .nvmeCmdReturnCb) (g := fun rejected => .when rejected (nvmeCmdReturn P c)) word trivial (calm_nvmeCmdReturn P c) rfl

theorem rest_fillResp (b : RespBuf) (size : Nat) {p : Code Unit} (h : Ready P c p) : Ready P c (fillResp P b size >>= fun _ => p) :=
  Prog.until_change_bind (fun s => .of (.silent (.own (.ram _ s)) ⟨rfl, rfl⟩ rfl) rfl rfl) h

theorem ready_nvmeCmdAdmIdentify : Ready P c (nvmeCmdAdmIdentify P c) := by
  have fill (b : RespBuf) : Ready P c (identifyWith P b c) := rest_fillResp P c b _ (ready_returnData P c (by decide))
  refine Prog.until_look_bind (rest_look P c _) fun s _ => ?_
  split
  · exact fill _
  · exact fill _
  · exact fill _
  · exact fill _
  · exact ready_return P c

theorem ready_nvmeCmdAdmGetLog : Ready P c (nvmeCmdAdmGetLog P c) := by
  refine Prog.until_look_bind (rest_look P c _) fun s _ => Prog.until_look_bind (rest_look P c _) fun s _ => ?_
  split
  · refine rest_fillResp P c _ _ (ready_returnData P c ?_)
    have : smartRespSize = 512 := rfl
    split <;> omega
  · exact ready_return P c

theorem ready_nvmeCmdAdmSetFeatures : Ready P c (nvmeCmdAdmSetFeatures P c) := by
  refine Prog.until_look_bind (rest_look P c _) fun s _ => ready_calm P c ?_
  refine Prog.acts_bind (Prog.acts_when fun _ => Prog.acts_change fun s => ?_) fun _ => calm_nvmeCmdReturn P c
  exact .silent (.own (.queues s)) ⟨rfl, rfl⟩ rfl

theorem calm_queue {update : NvmeCmdPriv → QId → Fw → Fw} (hu : QueueUpdate update) (p : NvmeCmdPriv) {q : QId}
    (io : q ≠ admQueueId) (s : Fw) : Calm P c .other s (update p q s) := by
  have act : FineAct P c .other s (update p q s) := .own (.queue hu p io s)
  cases hu with
  | createSq => exact .one (o := .sqCreated q) act ⟨rfl, rfl⟩ rfl trivial
  | createCq => exact .one (o := .cqCreated q) act ⟨rfl, rfl⟩ rfl trivial
  | deleteSq => exact .silent act ⟨rfl, rfl⟩ rfl
  | deleteCq => exact .silent act ⟨rfl, rfl⟩ rfl

theorem ready_queueCommand {update : NvmeCmdPriv → QId → Fw → Fw} (hu : QueueUpdate update) : Ready P c (queueCommand P c update) := by
  refine Prog.until_look_bind (rest_look P c _) fun s _ => Prog.until_ite (fun _ => ready_return P c) fun range => ?_
  split
  · refine ready_calm P c (Prog.acts_bind (Prog.acts_change fun t => calm_queue P c hu _ ?_ t) fun _ => calm_nvmeCmdReturn P c)
    exact fun same => range (.inl (congrArg Fin.val same))
  · exact .stuck

theorem ready_ioCommand {address : Nat → Nat → Nat} {move : Slot → Nat → Nat → Code Unit}
    (h : ∀ buf len, len < 2 ^ 32 → Ready P c (move c buf len)) : Ready P c (ioCommand P address move c) := by
  refine Prog.until_look_bind (rest_look P c _) fun s _ => Prog.until_look_bind (rest_look P c _) fun s _ => ?_
  refine Prog.until_ite (fun _ => h _ _ ?_) fun _ => ready_return P c
  have := Nat.mod_lt (s.cmds c).sqBuf.cdw12 (Nat.two_pow_pos 16)
  rw [show blkSize = 512 from rfl]
  dsimp only
  omega

theorem ready_vendorTransfer (dir : Nat) {size : Nat} (word : size < 2 ^ 32) : Ready P c (vendorTransfer P c dir size) := by
  refine Prog.until_ite (fun _ => ready_calm P c (calm_sendCmd P c)) fun _ => Prog.until_look_bind (rest_look P c _) fun s _ => ?_
  exact ready_transfer P c (f := .vendorCb) (g := fun rejected => .when rejected (lose c .psdt)) word trivial (Prog.acts_change (calm_lost P c _)) rfl

theorem ready_nvmeCmdVendor (zeroBased : Bool) : Ready P c (nvmeCmdVendor P c zeroBased) := by
  refine Prog.until_look_bind (rest_look P c _) fun s _ => Prog.until_bind (Prog.acts_when fun _ => ?_) fun _ =>
    Prog.until_look_bind (rest_look P c _) fun s _ => ?_
  · refine Prog.acts_change (rest_cmd P c ?_)
    exact ⟨fun _ => rfl, fun _ => rfl, fun _ => rfl, fun _ => ⟨rfl, rfl, rfl⟩, fun _ h => ⟨h.len, h.cb⟩⟩
  · have word : bufferSize (s.cmds c).sqBuf.ndt < 2 ^ 32 := Nat.mod_lt _ (by decide)
    refine Prog.until_ite (fun _ => Prog.until_bind ?_ fun ok => ?_) fun _ => ready_vendorTransfer P c _ word
    · refine fun u _ => ⟨?_, trivial⟩
      dsimp only
      split
      · rename_i b n pick
        have act := CmdActs.buffer (U := QueueUpdate) (l := ⟨b, n, c, (P.poolPick_size _ _ _ _ _ pick).2⟩) u rfl pick
        exact .of (.one (.own act) ⟨rfl, rfl⟩ rfl trivial) rfl rfl
      · exact .of (.silent (.own (.clock u)) ⟨rfl, rfl⟩ rfl) rfl rfl
    · exact Prog.until_ite (fun _ => ready_vendorTransfer P c _ word) fun _ => ready_calm P c (Prog.acts_change (calm_lost P c _))

theorem ready_handleAdm : Ready P c (handleAdm P c) := by
  refine Prog.until_look_bind (rest_look P c _) fun s _ => ?_
  split
  · exact ready_nvmeCmdAdmGetLog P c
  · exact ready_nvmeCmdAdmIdentify P c
  · exact ready_nvmeCmdAdmSetFeatures P c
  · exact ready_queueCommand P c .createSq
  · exact ready_queueCommand P c .createCq
  · exact ready_queueCommand P c .deleteSq
  · exact ready_queueCommand P c .deleteCq
  · exact ready_nvmeCmdVendor P c false
  · exact ready_nvmeCmdVendor P c true
  · exact Prog.until_ite (fun _ => ready_nvmeCmdVendor P c false) fun _ => ready_return P c

theorem ready_handleIo : Ready P c (handleIo P c) := by
  refine Prog.until_look_bind (rest_look P c _) fun s _ => ?_
  split
  · exact ready_return P c
  · exact ready_ioCommand P c fun _ _ word => ready_getData P c word
  · exact ready_ioCommand P c fun _ _ word => ready_returnData P c word
  · exact Prog.until_ite (fun _ => ready_nvmeCmdVendor P c false) fun _ => ready_return P c

theorem ready_dispatch : Ready P c (dispatch P c) :=
  Prog.until_look_bind (rest_look P c _) fun _ _ => Prog.until_ite (fun _ => ready_handleAdm P c) fun _ => ready_handleIo P c

theorem ready_rpmsgEndpointCb (m : RpmsgPayload) : Ready P m.priv (rpmsgEndpointCb P m) := by
  refine Prog.until_ite (fun _ => ready_calm P _ ?_) fun _ => Prog.until_ite (fun _ => ?_) fun _ => ready_calm P _ ?_
  · refine Prog.acts_bind (calm_nvmeCmdReturn P _) fun _ => Prog.acts_look_bind (calm_look P _ _) fun s _ => ?_
    exact Prog.acts_when fun _ => calm_kMemPoolFree P _
  · refine Prog.until_look_bind (rest_look P _ _) fun s _ => Prog.until_change_bind (rest_cmd P _ ?_) ?_
    · refine ⟨fun _ => rfl, fun _ => rfl, fun _ => rfl, fun _ => ⟨rfl, rfl, rfl⟩, fun p _ => ⟨m.word, fun _ e => ?_⟩⟩
      cases e
      trivial
    · refine Prog.until_ite (fun _ => ready_return P _) fun _ => .last (.inr ⟨fun _ => pure (), rfl, Prog.acts_pure _, rfl⟩)
  · exact Prog.acts_change (calm_lost P _ _)

end Code

section Steps

variable {P : Platform} {c : Slot} {st : Option Nat} {s t u : Fw} {ch : Chan} {d : Desc} {rest : List Desc}

theorem Having.ready {p : Code Unit} (h : Having c none s) (fit : Fitted s) (stranded : Stranded (s.view c)) (ready : Ready P c p)
    (run : p.run s = some ((), t)) : Leased none t := by
  refine ready.run (I := fun u => Having c none u ∧ Fitted u ∧ Stranded (u.view c)) (Q := fun _ t => Leased none t) (fun _ hu => hu.2.1)
    (fun _ _ _ rest hu => ?_) (fun _ _ hu => hu.1.settled (.inl rfl)) (fun p u _ t ends hu run => ?_) ⟨h, fit, stranded⟩ run
  · exact ⟨hu.1.calm rest.calm, fitted_closed.fine c _ _ _ rest.calm.act hu.2.1, rest.stays hu.2.2⟩
  · obtain ⟨having, fit, stranded⟩ := hu
    rcases ends with calm | ⟨g, rfl, rejected, accepted⟩
    · exact (having.acts fit calm run).1.settled (.inl rfl)
    · simp only [nvmeCmdTransferData, Prog.run_bind, ofCmd, Prog.run_look, Option.bind_some, Prog.run_ite] at run
      split at run
      · exact (having.acts fit rejected run).1.settled (.inl rfl)
      · obtain ⟨⟨b, v⟩, whole, run⟩ := Option.bind_eq_some_iff.mp run
        obtain ⟨⟨⟨⟩, w⟩, transfer, same⟩ := Option.bind_eq_some_iff.mp whole
        cases same
        rw [accepted] at run
        cases run
        exact leased_of_transfer having fit stranded transfer

theorem Due.stranded {v : View} {f : Cb} (due : Due P c v f) : Stranded v := by
  cases due with
  | handler w => exact ⟨w.held, w.requests, w.plain⟩
  | list w => exact ⟨w.held, w.requests, w.plain⟩
  | ending w => exact ⟨w.held, w.requests, w.plain⟩
  | posted d w => exact ⟨w.held, w.requests, w.plain⟩

theorem get_mem {x : Desc} (fifo : (s.ch ch).fifo = d :: rest) (mem : x ∈ (s.ch .rx).fifo) (other : x ≠ d) :
    x ∈ ((s.get ch).ch .rx).fifo := by
  rw [fifo_get fifo]
  split
  · rename_i here
    rw [here, fifo] at mem
    exact (List.mem_cons.mp mem).resolve_left other
  · exact mem

/-- The head of a channel is taken off; nothing is known yet of its command. -/
theorem Leased.get (h : Leased none s) (fifo : (s.ch ch).fifo = d :: rest) : Leased (some d.owner) (s.get ch) := by
  have trace : (s.get ch).trace = .called ch d :: s.trace := by
    rw [get_eq fifo]
    rfl
  have slabs : (s.get ch).prpSlab = s.prpSlab ∧ (s.get ch).cmdSlab = s.cmdSlab := by
    rw [get_eq fifo]
    exact ⟨rfl, rfl⟩
  have holder (b : Nat) : prpHolder b (s.get ch).trace = prpHolder b s.trace := by
    rw [trace]
    exact holder_none (o := .called ch d) rfl
  refine ⟨?_, ?_, ?_, ?_, fun e x mem b loc => ?_, fun b e other held => ?_⟩
  · simp only [slabs.1, holder]
    exact h.slab
  · simp only [slabs.2, holder]
    exact h.slots
  · rw [trace]
    exact h.orderly.cons trivial
  · have queued : (Obs.called ch d).queued? .rx = none := rfl
    rw [trace, fifo_get fifo, List.filterMap_cons_none queued, h.queued]
    cases ch with
    | rx =>
      have called : (Obs.called .rx d).called? .rx = some d := rfl
      rw [List.filterMap_cons_some called, fifo]
      simp
    | tx =>
      have called : (Obs.called .tx d).called? .rx = none := rfl
      rw [List.filterMap_cons_none called]
      simp
  · rw [holder]
    exact h.lists e x (mem_get fifo mem) b loc
  · rw [holder] at held
    have ne : d.owner ≠ e := fun same => other (congrArg some same)
    rcases h.waits b e nofun held with ⟨x, mem, loc, owner⟩ | stranded
    · refine .inl ⟨x, get_mem fifo mem ?_, loc, owner⟩
      rintro rfl
      exact ne owner
    · right
      rwa [view_get_other fifo ne]

theorem Leased.settle (h : Leased (some c) s) (waits : ∀ b, prpHolder b s.trace = some c → s.listing b c ∨ Stranded (s.view c)) :
    Leased none s := by
  refine ⟨h.slab, h.slots, h.orderly, h.queued, h.lists, fun b e _ held => ?_⟩
  by_cases same : e = c
  · subst same
    exact waits b held
  · exact h.waits b e (fun here => same (Option.some.inj here).symm) held

/-- The callback of a descriptor begins with what its command holds. -/
theorem Leased.begin (h : Leased none s) (fifo : (s.ch ch).fifo = d :: rest) (own : ∀ b, prpHolder b s.trace = some d.owner ↔ st = some b)
    (stranded : Stranded ((s.view d.owner).pop ch)) : Having d.owner st (s.get ch) := by
  refine ⟨h.get fifo, fun b => ?_, fun x mem b loc same => ?_⟩
  · rw [get_eq fifo]
    exact own b
  · have queue : x ∈ ((s.get ch).view d.owner).queue .rx := List.mem_filter.mpr ⟨mem, decide_eq_true same⟩
    rw [view_get_own fifo rfl] at queue
    have none := (stranded.plain .rx x queue).1
    rw [((h.get fifo).lists .rx x mem b loc).2.1] at none
    cases none

theorem view_cmdFree_other {e : Slot} (h : e ≠ c) :
    Fw.view (Fw.note { s with cmdSlab := s.cmdSlab.free c } (.cmdFree c)) e = s.view e := by
  refine view_congr ?_ rfl (fun _ => rfl) rfl (past_other fun same => h (Option.some.inj same).symm)
  change e ∈ (s.cmdSlab.free c).used ↔ _
  rw [Slab.mem_free]
  exact ⟨fun both => both.2, fun used => ⟨h, used⟩⟩

/-- The slot is given back. -/
theorem Having.cmdFree (h : Having c none s) : Leased none (Fw.note { s with cmdSlab := s.cmdSlab.free c } (.cmdFree c)) := by
  have unheld : ∀ b, prpHolder b s.trace ≠ some c := fun b held => nomatch (h.own b).mp held
  have holder (b : Nat) : prpHolder b (Fw.note { s with cmdSlab := s.cmdSlab.free c } (.cmdFree c)).trace = prpHolder b s.trace :=
    holder_none (o := .cmdFree c) rfl
  refine ⟨?_, fun b e held => ?_, h.orderly.cons unheld, h.queued, ?_, fun b e _ held => ?_⟩
  · simp only [holder]
    exact h.slab
  · rw [holder] at held
    refine (Slab.mem_free ..).mpr ⟨?_, h.slots b e held⟩
    rintro rfl
    exact unheld b held
  · simp only [holder]
    exact h.lists
  · rw [holder] at held
    have ne : e ≠ c := by
      rintro rfl
      exact unheld b held
    refine (h.waits b e (fun same => ne (Option.some.inj same).symm) held).imp id fun stranded => ?_
    rwa [view_cmdFree_other ne]

theorem Having.handled (h : Having c st s) : Having c st (s.handled c) := by
  refine h.note (o := .handled c (s.cmds c).qid (s.tc.sqHead (s.cmds c).qid)) trivial ⟨rfl, rfl⟩ rfl rfl rfl rfl fun e other => ?_
  rw [Fw.handled, view_note_other (o := .handled c _ _) fun same => other (Option.some.inj same).symm, view_setCmd_other other]

/-- A callback hands its command on with what it holds. -/
theorem leased_called (h : Leased none s) (fit : Fitted s) (standing : Standing P d.owner (s.view d.owner)) (fifo : (s.ch ch).fifo = d :: rest)
    (run : (runCallback (callback P) d).run (s.get ch) = some ((), u)) : Leased none u := by
  have head : d ∈ (s.view d.owner).queue ch := List.mem_filter.mpr ⟨by rw [fifo]; exact List.mem_cons_self, decide_eq_true rfl⟩
  have queue : (s.view d.owner).queue ch = d :: rest.filter (·.owner = d.owner) := by
    simp [Fw.view, fifo]
  have got : Fitted (s.get ch) := fun e => by
    rw [Fw.get_cmds]
    exact fit e
  rcases standing.head queue with ⟨plain, -⟩ | ⟨f, cb, due⟩
  · simp only [runCallback, plain] at run
    cases run
    refine (h.get fifo).settle fun b held => ?_
    rw [get_eq fifo, Fw.note, holder_none (o := .called ch d) rfl] at held
    rcases h.waits b _ (by simp) held with ⟨x, mem, loc, owner⟩ | stranded
    · refine .inl ⟨x, get_mem fifo mem ?_, loc, owner⟩
      rintro rfl
      rw [(h.lists .rx x mem b loc).2.1] at plain
      cases plain
    · right
      rw [view_get_own fifo rfl]
      exact ⟨stranded.held, stranded.requests, fun e x mem => stranded.plain e x (mem_pop mem)⟩
  · have stranded := due.stranded
    have view : (s.get ch).view d.owner = (s.view d.owner).pop ch := view_get_own fifo rfl
    simp only [runCallback, cb] at run
    by_cases list : f = .prpCb
    · subst list
      generalize loc : d.localAddr = l at run
      cases l with
      | prp b =>
        have held := (h.lists ch d (by rw [fifo]; exact List.mem_cons_self) b loc).2.2
        have having : Having d.owner (some b) (s.get ch) := by
          refine h.begin fifo (fun x => ⟨fun hx => congrArg some (h.one held hx), fun same => ?_⟩) stranded
          cases same
          exact held
        simp only [callback, prpCb, Prog.run_bind, ofCmd, Prog.run_look, Option.bind_some, Prog.run_ite] at run
        split at run
        · cases run
        · exact leased_of_prpLoop having got (.inl (view ▸ stranded)) run
      | _ => cases run
    · have having : Having d.owner none (s.get ch) := by
        refine h.begin fifo (fun b => ⟨fun held => ?_, fun same => by cases same⟩) stranded
        rcases h.waits b _ (by simp) held with ⟨x, mem, loc, owner⟩ | idle
        · have other := (h.lists .rx x mem b loc).2.1
          rw [owner] at other
          have there : x ∈ (s.view d.owner).queue .rx := List.mem_filter.mpr ⟨mem, decide_eq_true owner⟩
          obtain rfl := standing.one head cb there other
          rw [other] at cb
          cases cb
          exact absurd rfl list
        · exact ((idle.plain ch).not_waiting head cb).elim
      have stays : Stranded ((s.get ch).view d.owner) := view ▸ stranded
      cases f with
      | prpCb => exact absurd rfl list
      | nvmeCmdHandler =>
        rw [callback, nvmeCmdHandler_eq, Prog.run_bind] at run
        exact having.handled.ready (fitted_closed.handled (P := P) _ _ got) (stays.congr rfl rfl rfl) (ready_dispatch P _) run
      | cqCb =>
        rw [callback, cqCb] at run
        cases run
        exact (having.congr (t := (s.get ch).sysWrite32 nvmeTcRegIrqHost _) rfl rfl rfl rfl fun _ _ => rfl).cmdFree
      | nvmeCmdReturnCb => exact (having.acts got (calm_nvmeCmdReturn P _) run).1.settled (.inl rfl)
      | vendorCb => exact (having.acts got (calm_sendCmd P _) run).1.settled (.inl rfl)
      | rpmsgCmdReturnCb =>
        have calm := Prog.acts_bind (calm_kMemPoolFree P d.owner) fun _ => calm_nvmeCmdReturn P d.owner
        exact (having.acts got calm run).1.settled (.inl rfl)

/-- A slot that is taken holds nothing. -/
theorem Leased.opened {q : QId} {slab : Slab nvmeCmdSlabSize} (h : Leased none s) (fresh : c ∉ s.cmdSlab.used)
    (used : slab.used = c :: s.cmdSlab.used) : Having c none (taken s q c slab) := by
  have holder (b : Nat) : prpHolder b (taken s q c slab).trace = prpHolder b s.trace := holder_none (o := .cmdAlloc c q) rfl
  refine ⟨⟨?_, fun b e held => ?_, h.orderly.cons trivial, h.queued, ?_, fun b e other held => ?_⟩, fun b => ⟨fun held => ?_, nofun⟩,
    fun d mem b loc owner => ?_⟩
  · simp only [holder]
    exact h.slab
  · rw [holder] at held
    change e ∈ slab.used
    rw [used]
    exact List.mem_cons_of_mem _ (h.slots b e held)
  · simp only [holder]
    exact h.lists
  · rw [holder] at held
    refine (h.waits b e nofun held).imp id fun stranded => ?_
    rwa [view_taken_other used fun same => other (congrArg some same.symm)]
  · rw [holder] at held
    exact absurd (h.slots b c held) fresh
  · have held := (h.lists .rx d mem b loc).2.2
    rw [owner] at held
    exact absurd (h.slots b c held) fresh

theorem Leased.fetch {q : QId} (h : Leased none s) (outcome : FetchOutcome P q s t) : Leased none t := by
  cases outcome with
  | skipped => exact h.note (o := .skipped q) trivial rfl rfl rfl rfl rfl rfl fun e _ stranded => stranded.congr rfl rfl rfl
  | @lost e slab clock _ fresh used =>
    have timed : Having e none { taken s q e slab with clock := clock } := (h.opened fresh used).congr rfl rfl rfl rfl fun _ _ => rfl
    have noted : Having e none (Fw.note { taken s q e slab with clock := clock } (.noDescriptor e)) :=
      timed.note (o := .noDescriptor e) trivial ⟨rfl, rfl⟩ rfl rfl rfl rfl fun x other =>
        view_note_other fun same => other (Option.some.inj same).symm
    exact (noted.calm (calm_lost P e .descriptor _)).settled (.inl rfl)
  | @fetched e d _ f =>
    obtain ⟨loc, cb, owner, -⟩ := f.desc
    obtain ⟨slab, slab', clock, used, -, rfl⟩ := f.state
    have timed : Having e none { taken s q e slab with descSlab := slab', clock := clock } :=
      (h.opened f.fresh used).congr rfl rfl rfl rfl fun _ _ => rfl
    have put : Leased (some e) (Fw.put { taken s q e slab with descSlab := slab', clock := clock } .rx d) := by
      refine timed.toLeased.put (fun b prp => ?_) rfl rfl rfl rfl fun x other stranded => ?_
      · rw [loc] at prp
        cases prp
      · rwa [view_put_other (by rw [owner]; exact fun same => other (congrArg some same))]
    refine Leased.settle put fun b held => ?_
    rw [Fw.put, Fw.note, holder_none (o := .queued .rx d _) rfl] at held
    cases (timed.own b).mp held

/-- Commands and blocks inside the interrupt handler of the DMA engine. -/
theorem leased_serves (standing : ∀ c, Standing P c (u.view c)) :
    Serves P fun k s => Attending P (fun _ => False) u k s ∧ Leased none s where
  nonempty k ch s taken h := (engine_serves (P := P)).nonempty k ch s taken h.1.engine
  served k ch s d rest v taken fifo h run := by
    have next := (attending_serves (P := P) (F := fun _ => False) (fun _ hf => hf.elim) fun c => .inr (standing c)).served k ch s d rest v taken fifo
      h.1 run
    have called := leased_called h.2 h.1.engine.fitted ((h.1.leaves d.owner).standing (standing d.owner)) fifo run
    have released : Leased none (v.release d) :=
      called.note (o := .descFree d.desc) trivial rfl rfl rfl rfl rfl rfl fun e _ stranded => stranded.congr rfl rfl rfl
    refine ⟨next, released.congr rfl rfl (fifo_restart _ _) rfl fun e _ stranded => ?_⟩
    rwa [view_restart]

theorem Leased.finish (h : Leased none s) (finish : s.finish P ch = some t) : Leased none t := by
  obtain ⟨d, done⟩ := Fw.finished_of_finish finish
  have fifo (e : Chan) : (t.ch e).fifo = (s.ch e).fifo := by
    by_cases here : e = ch
    · subst here
      rw [done.ch_self]
    · rw [done.ch_of_ne here]
  obtain ⟨host, ram, prpMem, cmds, state⟩ := done.state
  have slabs : t.prpSlab = s.prpSlab ∧ t.cmdSlab = s.cmdSlab ∧ t.apu = s.apu := by
    rw [state]
    exact ⟨rfl, rfl, rfl⟩
  refine h.next (o := .finished ch d) trivial done.trace slabs.1 slabs.2.1 ?_ (fun e x mem => ?_) (fun x mem => ?_) fun e _ stranded => ?_
  · have queued : (Obs.finished ch d).queued? .rx = none := rfl
    have called : (Obs.finished ch d).called? .rx = none := rfl
    rw [done.trace, fifo, List.filterMap_cons_none queued, List.filterMap_cons_none called]
    exact h.queued
  · rw [fifo] at mem
    exact .inl mem
  · rwa [fifo]
  · exact stranded.of_fifo slabs.2.1 fifo slabs.2.2

theorem TcAct.slabs {l : Access} (act : TcAct l s t) : t.prpSlab = s.prpSlab ∧ t.cmdSlab = s.cmdSlab := by
  cases act with
  | cc =>
    unfold Fw.ccHandler
    dsimp only
    split
    · exact ⟨rfl, rfl⟩
    · split <;> exact ⟨rfl, rfl⟩
  | _ => exact ⟨rfl, rfl⟩

/-- A command that the APU has answered holds nothing. -/
theorem Leased.answered {i : Nat} {m : RpmsgPayload} (h : Leased none s) (standing : Standing P m.priv (s.view m.priv))
    (request : s.apu[i]? = some m) : Having m.priv none { s with apu := s.apu.eraseIdx i } ∧
      Stranded (Fw.view { s with apu := s.apu.eraseIdx i } m.priv) := by
  have mem : m ∈ (s.view m.priv).requests := List.mem_filter.mpr ⟨List.mem_of_getElem? request, decide_eq_true rfl⟩
  have requests : (s.view m.priv).requests ≠ [] := List.ne_nil_of_mem mem
  cases standing with
  | away m' held only queue =>
    have views (e : Slot) (other : e ≠ m.priv) : Fw.view { s with apu := s.apu.eraseIdx i } e = s.view e := by
      refine view_congr .rfl rfl (fun _ => rfl) ?_ rfl
      exact filter_eraseIdx_other request (decide_eq_false (Ne.symm other))
    have idle : ∀ ch, ∀ d ∈ (s.ch ch).fifo, d.owner ≠ m.priv := by
      intro ch d mem owner
      have there : d ∈ (s.view m.priv).queue ch := List.mem_filter.mpr ⟨mem, decide_eq_true owner⟩
      rw [queue] at there
      cases there
    refine ⟨⟨⟨h.slab, h.slots, h.orderly, h.queued, h.lists, fun b e other held => ?_⟩, fun b => ⟨fun held => ?_, nofun⟩,
      fun d mem b loc => idle .rx d mem⟩, held, ?_, fun ch d there => ?_⟩
    · refine (h.waits b e nofun held).imp id fun stranded => ?_
      rwa [views e fun same => other (congrArg some same.symm)]
    · rcases h.waits b _ nofun held with ⟨d, mem, -, owner⟩ | stranded
      · exact absurd owner (idle .rx d mem)
      · exact absurd stranded.requests requests
    · exact filter_eraseIdx_only request (decide_eq_true rfl) only
    · obtain ⟨mem, owner⟩ := List.mem_filter.mp there
      exact absurd (of_decide_eq_true owner) (idle ch d mem)
  | free _ none => exact absurd none requests
  | fetched _ _ none => exact absurd none requests
  | listing _ _ none => exact absurd none requests
  | ending _ _ _ none => exact absurd none requests
  | posted _ _ none => exact absurd none requests
  | lost _ _ none => exact absurd none requests

theorem AtomicRun.leased {host ram : Nat → UInt8} {past : History} (run : AtomicRun P (Sys.boot host ram).fw past s) : Leased none s := by
  induction run with
  | start =>
    refine ⟨fun b => ⟨nofun, nofun⟩, nofun, fun o old suffix => ?_, rfl, nofun, nofun⟩
    exact nomatch List.suffix_nil.mp suffix
  | @step past s t e run next ih =>
    have engine := run.engine
    rcases Fw.whole_cases next with env | ⟨i, withData, m, rfl, request, answer⟩
    · cases e with
      | hostWrite reg value =>
        cases env
        exact ih.congr rfl rfl (fun _ => rfl) rfl fun _ _ stranded => stranded
      | hostStore addr bytes =>
        cases env
        exact ih.congr rfl rfl (fun _ => rfl) rfl fun _ _ stranded => stranded
      | apuStore addr bytes =>
        cases env
        exact ih.congr rfl rfl (fun _ => rfl) rfl fun _ _ stranded => stranded
      | dmaDone ch => exact ih.finish env
      | tcIrq =>
        obtain ⟨⟨⟨⟩, _⟩, irq, rfl⟩ := Option.map_eq_some_iff.mp env
        refine tcIrq_induct (fun l u v act hu => ?_) (fun q u v outcome _ hu => hu.fetch outcome) engine.fitted (fun c => .inr (run.standing c)) ih irq
        refine hu.congr act.slabs.1 act.slabs.2 (fun ch => by rw [act.effect.1]) act.effect.2 fun e _ stranded => ?_
        rwa [act.view]
      | dmaIrq =>
        obtain ⟨⟨⟨⟩, _⟩, irq, rfl⟩ := Option.map_eq_some_iff.mp env
        have start : Attending P (fun _ => False) s s.stages s.takeBoth :=
          ⟨⟨engine.fitted, fun ch => (engine.tracked ch).take, engine.freed⟩, fun c => .of_view view_takeBoth⟩
        refine ((leased_serves run.standing).irq ⟨start, ih.congr rfl rfl (fun ch => ?_) rfl fun e _ stranded => ?_⟩ irq).2
        · cases ch <;> rfl
        · rwa [view_takeBoth]
      | reply i withData => cases env
      | poll => cases env
    · obtain ⟨having, stranded⟩ := ih.answered (run.standing m.priv) request
      have ready := ready_rpmsgEndpointCb P { m with id := if withData then rpmsgCmdReturnDataId else rpmsgCmdReturn }
      exact having.ready engine.fitted stranded ready answer

end Steps

/-- Blocks of `prp_slab` are neither lost to two commands nor exhausted. -/
theorem prp_conserved (P : Platform) {host ram : Nat → UInt8} {past : History} {s : Fw}
    (run : AtomicRun P (Sys.boot host ram).fw past s) : PrpConserved s := by
  have h := run.leased
  have regular := h.orderly.regular
  refine ⟨h.slab, h.slots, fun b x c hb hx => h.one hb hx, h.orderly, fun b => ?_, ?_, s.cmdSlab.length_le, rfl⟩
  · have held : (Lease.holder b (leases s.trace)).isSome ↔ b ∈ s.prpSlab.used := by
      rw [h.slab, Option.isSome_iff_exists]
      rfl
    rw [regular.balance b, if_congr held rfl rfl]
  · refine regular.length_le s.prpSlab.nodup fun b used => ?_
    obtain ⟨c, held⟩ := (h.slab b).mp used
    exact ⟨c, h.slots b c held, held⟩

/-- A vendor command with four pages of data, whose list is being fetched. -/
theorem prp_conserved_vendor : ∃ past s, AtomicRun (board (2 ^ 12)) (Sys.boot (fun a =>
      if a = 0x10000 then 0xC1 else if a = 0x10029 then 0x10 else 0) fun _ => 0).fw past s ∧
    s.prpSlab.used ≠ [] ∧ PrpConserved s := by
  have runs : ((Sys.boot (fun a => if a = 0x10000 then 0xC1 else if a = 0x10029 then 0x10 else 0) fun _ => 0).fw.play (board (2 ^ 12)) []
      (setUp ++ [.hostWrite (doorbellTail 0 / 4) 1, .tcIrq, .dmaDone .rx, .dmaIrq])).map (fun r =>
      decide (r.2.prpSlab.used ≠ [])) = some true := by decide +kernel
  obtain ⟨⟨past, s⟩, play, used⟩ := Option.map_eq_some_iff.mp runs
  have run := AtomicRun.start.play play
  exact ⟨past, s, run, of_decide_eq_true used, prp_conserved _ run⟩

end AlkaliFw
