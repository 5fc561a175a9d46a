import AlkaliFw.Return
import AlkaliFw.Commands

/-! What the four queue commands leave of the queue arrays, before they post their completion. -/

namespace AlkaliFw
open Resumption

inductive QueueCommand where
  | createSq | deleteSq | createCq | deleteCq
  deriving DecidableEq

namespace QueueCommand

def handler (P : Platform) : QueueCommand → Slot → Code Unit
  | createSq => nvmeCmdAdmCreateSq P
  | deleteSq => nvmeCmdAdmDeleteSq P
  | createCq => nvmeCmdAdmCreateCq P
  | deleteCq => nvmeCmdAdmDeleteCq P

def update : QueueCommand → NvmeCmdPriv → QId → Fw → Fw
  | createSq => AlkaliFw.createSq
  | deleteSq => AlkaliFw.deleteSq
  | createCq => AlkaliFw.createCq
  | deleteCq => AlkaliFw.deleteCq

def submission : QueueCommand → Bool
  | createSq | deleteSq => true
  | createCq | deleteCq => false

end QueueCommand

namespace NvmeTcPriv

/-- Entry `q` of the `sq_*` arrays. -/
def sqRow (tc : NvmeTcPriv) (q : QId) : Bool × Nat × Nat × Nat × Nat × Bool :=
  (tc.sqValid q, tc.sqSize q, tc.sqBase q, tc.sqTail q, tc.sqHead q, tc.sqPc q)

/-- Entry `q` of the `cq_*` arrays. -/
def cqRow (tc : NvmeTcPriv) (q : QId) : Bool × Nat × Nat × Nat × Nat × Bool × Bool × Bool × Nat :=
  (tc.cqValid q, tc.cqSize q, tc.cqBase q, tc.cqTail q, tc.cqHead q, tc.cqPc q, tc.cqPhase q, tc.cqIen q, tc.cqIv q)

/-- Nothing but entries `sq` of the one kind of arrays and `cq` of the other may differ. -/
structure SameBut (sq cq : QId → Prop) (tc tc' : NvmeTcPriv) : Prop where
  enabled : tc'.enabled = tc.enabled
  memoryPageSize : tc'.memoryPageSize = tc.memoryPageSize
  queues : tc'.queues = tc.queues
  sqRow : ∀ q, ¬sq q → tc'.sqRow q = tc.sqRow q
  cqRow : ∀ q, ¬cq q → tc'.cqRow q = tc.cqRow q

end NvmeTcPriv

/-- A queue command up to its `nvme_cmd_return`. -/
def queueUpdate (c : Slot) (update : NvmeCmdPriv → QId → Fw → Fw) : Code Unit := do
  let p ← ofCmd c id
  let qid := p.sqBuf.cdw10 % 2 ^ 16
  if qid = 0 ∨ queues < qid then pure ()
  else if h : qid < queues then .change .other (update p ⟨qid, h⟩)
  else .stuck

theorem handler_eq (P : Platform) (cmd : QueueCommand) (c : Slot) :
    cmd.handler P c = (queueUpdate c cmd.update >>= fun _ => nvmeCmdReturn P c) := by
  have same (update : NvmeCmdPriv → QId → Fw → Fw) :
      queueCommand P c update = (queueUpdate c update >>= fun _ => nvmeCmdReturn P c) := by
    refine congrArg (Prog.act (Access.cmd c) id) (funext fun s => ?_)
    change (if _ then _ else _) = Prog.bind (if _ then _ else _) _
    split
    · rfl
    · split <;> rfl
  cases cmd <;> exact same _

/-- The command is carried out, and changes at most the entry of the queue that it names. -/
def Framed (cmd : QueueCommand) (c : Slot) (s : Fw) : Prop :=
  ∃ t, (queueUpdate c cmd.update).run s = some ((), t) ∧
    if 1 ≤ (s.cmds c).sqBuf.cdw10 % 2 ^ 16 ∧ (s.cmds c).sqBuf.cdw10 % 2 ^ 16 < queues then
      t = { s with tc := t.tc, trace := t.trace } ∧
        s.tc.SameBut (fun q => cmd.submission = true ∧ q.val = (s.cmds c).sqBuf.cdw10 % 2 ^ 16)
          (fun q => cmd.submission = false ∧ q.val = (s.cmds c).sqBuf.cdw10 % 2 ^ 16) t.tc
    else t = s

theorem update_sameBut (cmd : QueueCommand) (p : NvmeCmdPriv) (q : QId) (s : Fw) :
    cmd.update p q s = { s with tc := (cmd.update p q s).tc, trace := (cmd.update p q s).trace } ∧
      s.tc.SameBut (fun r => cmd.submission = true ∧ r.val = q.val) (fun r => cmd.submission = false ∧ r.val = q.val)
        (cmd.update p q s).tc := by
  have others {r : QId} {submission : Bool} (far : ¬(submission = submission ∧ r.val = q.val)) : r ≠ q :=
    fun same => far ⟨rfl, congrArg Fin.val same⟩
  cases cmd with
  | createSq =>
    refine ⟨rfl, rfl, rfl, rfl, fun r far => ?_, fun _ _ => rfl⟩
    simp [QueueCommand.update, createSq, Fw.setTc, Fw.note, NvmeTcPriv.sqRow, Function.update_of_ne (others far)]
  | deleteSq =>
    refine ⟨rfl, rfl, rfl, rfl, fun r far => ?_, fun _ _ => rfl⟩
    simp [QueueCommand.update, deleteSq, Fw.setTc, NvmeTcPriv.sqRow, Function.update_of_ne (others far)]
  | createCq =>
    refine ⟨rfl, rfl, rfl, rfl, fun _ _ => rfl, fun r far => ?_⟩
    simp [QueueCommand.update, createCq, Fw.setTc, Fw.note, NvmeTcPriv.cqRow, Function.update_of_ne (others far)]
  | deleteCq =>
    refine ⟨rfl, rfl, rfl, rfl, fun _ _ => rfl, fun r far => ?_⟩
    simp [QueueCommand.update, deleteCq, Fw.setTc, NvmeTcPriv.cqRow, Function.update_of_ne (others far)]

theorem framed_iff (cmd : QueueCommand) (c : Slot) (s : Fw) :
    Framed cmd c s ↔ (s.cmds c).sqBuf.cdw10 % 2 ^ 16 ≠ queues := by
  unfold Framed
  have run : (queueUpdate c cmd.update).run s = Prog.run
      (if (s.cmds c).sqBuf.cdw10 % 2 ^ 16 = 0 ∨ queues < (s.cmds c).sqBuf.cdw10 % 2 ^ 16 then pure ()
      else if h : (s.cmds c).sqBuf.cdw10 % 2 ^ 16 < queues then .change .other (cmd.update (s.cmds c) ⟨_, h⟩)
      else .stuck : Code Unit) s := rfl
  rw [run]
  generalize hid : (s.cmds c).sqBuf.cdw10 % 2 ^ 16 = qid
  have two : queues = 2 := rfl
  by_cases outside : qid = 0 ∨ queues < qid
  · rw [if_pos outside]
    refine iff_of_true ⟨s, rfl, ?_⟩ (by omega)
    rw [if_neg (by omega)]
  · rw [if_neg outside]
    by_cases inside : qid < queues
    · rw [dif_pos inside]
      refine iff_of_true ⟨_, rfl, ?_⟩ (Nat.ne_of_lt inside)
      rw [if_pos (by omega)]
      exact update_sameBut cmd (s.cmds c) ⟨qid, inside⟩ s
    · rw [dif_neg inside]
      refine iff_of_false ?_ (by omega)
      rintro ⟨t, e, -⟩
      cases e

/-- Each of the four handlers, for any command in any state. -/
theorem queueCommand_framed_iff (P : Platform) (cmd : QueueCommand) (c : Slot) :
    cmd.handler P c = (queueUpdate c cmd.update >>= fun _ => nvmeCmdReturn P c) ∧
      ∀ s, Framed cmd c s ↔ (s.cmds c).sqBuf.cdw10 % 2 ^ 16 ≠ queues :=
  ⟨handler_eq P cmd c, fun s => framed_iff cmd c s⟩

/-- A Create IO Submission Queue command with the id `QUEUES`. -/
theorem createSq_beyond : ¬∀ cmd c s, Framed cmd c s := by
  intro all
  have framed := all .createSq 0 { cmds := fun _ => { qid := admQueueId, sqBuf := Function.update (fun _ => 0) 10 2 } }
  exact (framed_iff _ _ _).mp framed (by decide)

end AlkaliFw
