import AlkaliFw.Board
import AlkaliFw.Events

/-! The polling thread and the record of its command. Once the thread has queued the
descriptor with the final callback, an interrupt may complete the command, free its slot and
give it to another one; what the thread does to the record after that hits the wrong command. -/

namespace AlkaliFw
open Resumption

/-- A call that has queued the final descriptor does not touch the record again. -/
def Untouched (S : Sys) : Prop :=
  ∀ call ∈ S.call, call.given = true → call.label ≠ some (.cmd call.cmd)

/-- The label under which a completion entry is queued. -/
def entryOf (c : Slot) : Access := .submit (some (.cqCb, c))

/-- The thread queues a final descriptor only in `nvme_cmd_return`, and not on a reply without
data, after which it still looks for a block to free. -/
def GivesLast (S : Sys) (e : Event) : Prop :=
  e = .poll → ∀ call ∈ S.call, ∀ l ∈ call.label, l.givesUp call.cmd = true →
    call.withData = true ∧ l = entryOf call.cmd

instance (S : Sys) : Decidable (Untouched S) := by
  unfold Untouched
  infer_instance

instance (S : Sys) (e : Event) : Decidable (GivesLast S e) := by
  unfold GivesLast
  infer_instance

section Code

variable (P : Platform) (c : Slot) {G : Fw → Prop} {m : Access → Prop}

theorem without_nvmeDmaXfer {ch : Chan} {tag host : Nat} {loc : Local} {len : Nat} {callback : Option (Cb × Slot)}
    (other : ¬m .other) (cb : ¬m (.submit callback)) : (nvmeDmaXfer P ch tag host loc len callback c).Without G m := by
  refine Prog.without_swap_bind other fun s _ => ?_
  rcases alloc : (P.descSlabAlloc s.descSlab s.clock).1 with _ | block
  · simp only [alloc]
    trivial
  · simp only [alloc]
    exact Prog.without_bind (Prog.without_change cb) fun _ => trivial

theorem without_loseUnless (other : ¬m .other) (ok : Bool) (why : Loss) : (loseUnless ok c why).Without G m :=
  Prog.without_when fun _ => Prog.without_change other

/-- In a record that fits, the callback of a chunk is not the one of a completion. -/
theorem without_transferChunk (hostAddr localAddr len : Nat) :
    (transferChunk P c hostAddr localAddr len).Without (fun s => (s.cmds c).Fit) (· = entryOf c) := by
  have plain {l : Access} (h : l = .other ∨ l = .cmd c) : ¬l = entryOf c := by
    rcases h with rfl | rfl <;> exact nofun
  refine Prog.without_look_bind (plain (.inr rfl)) fun s fit => Prog.without_look_bind (plain (.inr rfl)) fun _ _ => ?_
  have cb : ¬Access.submit (if (s.cmds c).xferLen = len then (s.cmds c).xferCb.map (·, c) else none) = entryOf c := by
    intro e
    injection e with e
    split at e
    · obtain ⟨f, hf, e⟩ := Option.map_eq_some_iff.mp e
      cases e
      exact fit.cb _ hf
    · cases e
  refine Prog.without_bind (Prog.without_ite (fun _ => ?_) fun _ => ?_) fun ok => Prog.without_bind ?_ fun _ => ?_
  · exact without_nvmeDmaXfer P c (plain (.inl rfl)) cb
  · exact without_nvmeDmaXfer P c (plain (.inl rfl)) cb
  · exact Prog.without_when fun _ => without_loseUnless c (plain (.inl rfl)) ok _
  · exact Prog.without_bind (Prog.without_change (plain (.inr rfl))) fun _ => Prog.without_change (plain (.inr rfl))

theorem without_prpFetch (b host mps : Nat) : (prpFetch P c b host mps).Without G (· = entryOf c) := by
  refine Prog.without_bind (Prog.without_change nofun) fun _ => Prog.without_look_bind nofun fun _ _ => ?_
  exact Prog.without_bind (without_nvmeDmaXfer P c nofun nofun) fun ok => without_loseUnless c nofun ok _

theorem without_nvmeTcGetCqAddr (q : QId) : (nvmeTcGetCqAddr q).Without G (· = entryOf c) := by
  refine Prog.without_look_bind nofun fun _ _ => Prog.without_look_bind nofun fun _ _ => ?_
  refine Prog.without_ite (fun _ => trivial) fun _ => Prog.without_look_bind nofun fun _ _ => ?_
  refine Prog.without_ite (fun _ => ?_) fun _ => trivial
  refine Prog.without_look_bind nofun fun _ _ => Prog.without_bind ?_ fun _ => ?_
  · exact Prog.without_when fun _ => Prog.without_look_bind nofun fun _ _ => Prog.without_change nofun
  · refine Prog.without_look_bind nofun fun _ _ => Prog.without_look_bind nofun fun _ _ => ?_
    exact Prog.without_bind (Prog.without_change nofun) fun _ => trivial

/-- `nvme_cmd_return` is done with the record when it queues the entry. -/
theorem ends_nvmeCmdReturn : (nvmeCmdReturn P c).Ends G (· = entryOf c) (· = .cmd c) := by
  refine Prog.ends_bind (Prog.without_look_bind nofun fun _ _ => trivial) fun qid =>
    Prog.ends_bind (without_nvmeTcGetCqAddr c qid) fun cqAddr => Prog.ends_ite (fun _ => ?_) fun _ => ?_
  · exact (Prog.without_change nofun).ends
  · refine Prog.ends_bind (Prog.without_look_bind nofun fun _ _ => trivial) fun phase =>
      Prog.ends_bind (Prog.without_change nofun) fun _ => ?_
    refine Prog.ends_bind_last ?_ (fun ok => without_loseUnless c nofun ok _)
      fun ok => (without_loseUnless c nofun ok _).ends
    refine Prog.ends_bind (Prog.without_swap_bind nofun fun _ _ => trivial) fun desc => ?_
    cases desc with
    | none => trivial
    | some d => exact Prog.ends_bind_last (fun _ _ => ⟨fun _ => trivial, trivial⟩) (fun _ => trivial) fun _ => trivial

theorem ends_transferDataWithPrps :
    (transferDataWithPrps P c).Ends (fun s => (s.cmds c).Fit) (· = entryOf c) (· = .cmd c) := by
  have look {α : Type} {l : Access} {f : Fw → α} (h : ¬l = entryOf c) :
      (Prog.look l f).Without (fun s => (s.cmds c).Fit) (· = entryOf c) := ⟨h, fun _ _ => trivial⟩
  refine Prog.ends_bind (look nofun) fun host => Prog.ends_bind (look nofun) fun mps => ?_
  refine Prog.ends_ite (fun _ => trivial) fun _ => Prog.ends_bind (look nofun) fun left =>
    Prog.ends_bind (look nofun) fun addr => Prog.ends_bind (without_transferChunk P c _ _ _) fun _ => ?_
  refine Prog.ends_bind (look nofun) fun left => Prog.ends_ite (fun _ => trivial) fun _ => Prog.ends_ite (fun _ => ?_) fun _ => ?_
  · refine Prog.ends_bind (Prog.without_swap_bind nofun fun _ _ => trivial) fun buf => ?_
    cases buf with
    | none => exact ends_nvmeCmdReturn P c
    | some b =>
      refine Prog.ends_bind (look nofun) fun prp2 => (Prog.without_bind (without_prpFetch P c _ _ _) fun _ => ?_).ends
      exact Prog.without_bind (look nofun) fun _ => trivial
  · refine Prog.ends_bind (look nofun) fun prp2 => Prog.ends_bind (look nofun) fun left =>
      Prog.ends_bind (look nofun) fun addr => ?_
    exact (without_transferChunk P c _ _ _).ends

theorem ends_rpmsgCmdReturnData (buf len : Nat) :
    (rpmsgCmdReturnData P c buf len).Ends (fun s => (s.cmds c).Fit) (· = entryOf c) (· = .cmd c) := by
  have look {α : Type} {f : Fw → α} :
      (Prog.look (.cmd c) f).Without (fun s => (s.cmds c).Fit) (· = entryOf c) := ⟨nofun, fun _ _ => trivial⟩
  refine Prog.ends_bind look fun psdt => Prog.ends_bind (Prog.without_change nofun) fun _ =>
    Prog.ends_ite (fun _ => ends_nvmeCmdReturn P c) fun _ => ?_
  refine Prog.ends_bind_last (Prog.ends_bind look fun psdt => ?_) (fun _ => trivial) fun _ => trivial
  refine Prog.ends_ite (fun _ => trivial) fun _ => ?_
  exact Prog.ends_bind_last (ends_transferDataWithPrps P c) (fun _ => trivial) fun _ => trivial

end Code
section

variable {P : Platform}

/-- What is left of a call, before and after the final descriptor. -/
def Sys.Careful (S : Sys) : Prop :=
  ∀ call ∈ S.call,
    (call.given = true → call.rest.Without (fun s => (s.cmds call.cmd).Fit) (· = .cmd call.cmd)) ∧
    (call.given = false → call.withData = true →
      call.rest.Ends (fun s => (s.cmds call.cmd).Fit) (· = entryOf call.cmd) (· = .cmd call.cmd))

theorem Call.next_cases {call : Call} {l : Access} {rest : Code Unit} {next : Option Call} (h : call.next l rest = some next)
    {call' : Call} (e : call' ∈ next) :
    call'.cmd = call.cmd ∧ call'.withData = call.withData ∧ call'.rest = rest ∧
      call'.given = (call.given || l.givesUp call.cmd) := by
  cases rest with
  | pure a =>
    cases h
    cases e
  | act m f k =>
    cases h
    cases e
    exact ⟨rfl, rfl, rfl, rfl⟩
  | stuck => cases h

theorem careful_startCall {S T : Sys} {i : Nat} {withData : Bool} (h : S.startCall P i withData = some T) : T.Careful := by
  unfold Sys.startCall at h
  split at h
  · rename_i m _ _
    obtain ⟨next, start, rfl⟩ := Option.map_eq_some_iff.mp h
    intro call e
    obtain ⟨cmd, data, rest, given⟩ := Call.next_cases start e
    refine ⟨fun g => ?_, fun _ withData' => ?_⟩
    · rw [given] at g
      cases g
    · rw [data] at withData'
      change withData = true at withData'
      rw [rest, cmd, withData']
      exact ends_rpmsgCmdReturnData P m.priv m.buf m.bufLen
  · cases h

theorem careful_poll {S T : Sys} (meets : GivesLast S .poll) (fit : Fitted S.fw) (h : S.pollStep = some T)
    (careful : S.Careful) : T.Careful := by
  obtain ⟨call, l, f, k, here, rest, -, next⟩ := Sys.pollStep_act h
  obtain ⟨after, before⟩ := careful call here
  rw [rest] at after before
  intro call' e
  obtain ⟨cmd, data, rest', given⟩ := Call.next_cases next e
  rw [cmd, data, rest', given]
  constructor
  · intro g
    by_cases old : call.given = true
    · exact (after old).2 S.fw (fit _)
    · have gives : l.givesUp call.cmd = true := by simpa [old] using g
      have label : l ∈ call.label := by rw [Call.label, rest]; exact rfl
      obtain ⟨withData, entry⟩ := meets rfl call here l label gives
      exact (before (by simpa using old) withData S.fw (fit _)).1 entry
  · intro g withData
    have old : call.given = false := by
      cases e : call.given with
      | false => rfl
      | true => rw [e] at g; cases g
    exact (before old withData S.fw (fit _)).2

theorem careful_step {S T : Sys} {e : Event} (meets : GivesLast S e) (fit : Fitted S.fw) (step : S.step P e = some T)
    (careful : S.Careful) : T.Careful := by
  rcases Sys.step_cases step with ⟨fw, -, rfl⟩ | ⟨i, withData, -, start⟩ | ⟨rfl, poll⟩
  · exact careful
  · exact careful_startCall start
  · exact careful_poll meets fit poll careful

theorem Sys.Careful.untouched {S : Sys} (careful : S.Careful) : Untouched S := by
  intro call here given label
  have free := (careful call here).1 given
  unfold Call.label at label
  split at label
  · rename_i l f k rest
    rw [rest] at free
    exact free.1 (Option.some.inj label)
  · cases label

end

/-- As long as the thread queues final descriptors last, it never comes back to a command. -/
theorem untouched_of_givesLast (P : Platform) (host ram : Nat → UInt8) (S : Sys)
    (run : Run P GivesLast (Sys.boot host ram) S) : Untouched S := by
  suffices careful : S.Careful from careful.untouched
  induction run with
  | refl => exact fun call e => nomatch e
  | step e before meets step ih => exact careful_step meets before.sound.fitted step ih

/-- Host memory in which the first admin entry has this first double word. -/
def firstEntry (b0 b1 : UInt8) : Nat → UInt8 := fun a => if a = 0x10000 then b0 else if a = 0x10001 then b1 else 0

/-- From the doorbell to the request that a vendor command sends to the APU. -/
def request : List Event := [.hostWrite (doorbellTail 0 / 4) 1, .tcIrq, .dmaDone .rx, .dmaIrq]

/-- A reply without data: the entry is queued, and `cmd->block.data` comes next. -/
theorem return_reads_block : ¬∀ (P : Platform) (host ram : Nat → UInt8) (S : Sys),
    Run P (fun _ _ => True) (Sys.boot host ram) S → Untouched S := by
  intro claim
  have touched : ((Sys.boot (firstEntry 0xC0 0) fun _ => 0).exec (board (2 ^ 12))
      (setUp ++ request ++ .reply 0 false :: List.replicate 14 .poll)).map (decide <| Untouched ·) = some false := by
    decide +kernel
  obtain ⟨S, exec, touched⟩ := Option.map_eq_some_iff.mp touched
  exact of_decide_eq_false touched (claim _ _ _ S ((Run.refl _).exec exec))

/-- A reply with data to a command whose PSDT is rejected. -/
theorem rejected_reply_untouched : ∃ S, (Sys.boot (firstEntry 0xC0 0x40) fun _ => 0).execOk (board (2 ^ 12))
    (fun S e => decide (GivesLast S e)) (setUp ++ request ++ .reply 0 true :: List.replicate 16 .poll) = some S ∧
    Untouched S := by
  have runs : ((Sys.boot (firstEntry 0xC0 0x40) fun _ => 0).execOk (board (2 ^ 12))
    (fun S e => decide (GivesLast S e)) (setUp ++ request ++ .reply 0 true :: List.replicate 16 .poll)).isSome := by
    decide +kernel
  obtain ⟨S, exec⟩ := Option.isSome_iff_exists.mp runs
  exact ⟨S, exec, untouched_of_givesLast _ _ _ S ((Run.refl _).execOk (fun S e => of_decide_eq_true) exec)⟩

end AlkaliFw
