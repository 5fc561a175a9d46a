import AlkaliFw.Channels
import AlkaliFw.Transfer

/-! The controller as one command sees it: whether its slot is taken, its record, the
descriptors and requests made for it, and what was done for it since the slot was taken. An
action on behalf of another command changes none of this. -/

namespace AlkaliFw
open Resumption

/-- The command that an event is about. The work of the DMA engine is left out. -/
def Obs.of : Obs → Option Slot
  | .cmdAlloc c _ | .handled c _ _ | .noDescriptor c | .cmdFree c | .prpAlloc c _ | .noPrpBuffer c
  | .prpFree c _ | .poolFree c _ _ | .lost c _ => some c
  | .queued _ d _ => some d.owner
  | .poolAlloc l => some l.owner
  | .sent m => some m.priv
  | .skipped _ | .finished _ _ | .called _ _ | .descFree _ | .sqCreated _ | .cqCreated _ => none

def Obs.opens : Obs → Bool
  | .cmdAlloc _ _ => true
  | _ => false

/-- What was done for `c` from when its slot was taken, newest first. -/
def past (c : Slot) : List Obs → List Obs
  | [] => []
  | o :: tr => if o.of = some c then (if o.opens then [o] else o :: past c tr) else past c tr

@[ext] structure View where
  held : Bool
  priv : NvmeCmdPriv
  queue : Chan → List Desc
  requests : List RpmsgPayload
  past : List Obs

def Fw.view (s : Fw) (c : Slot) : View where
  held := decide (c ∈ s.cmdSlab.used)
  priv := s.cmds c
  queue ch := (s.ch ch).fifo.filter (·.owner = c)
  requests := s.apu.filter (·.priv = c)
  past := past c s.trace

namespace View

def put (v : View) (ch : Chan) (d : Desc) : View :=
  { v with queue := Function.update v.queue ch (v.queue ch ++ [d]), past := .queued ch d v.priv :: v.past }

def note (v : View) (o : Obs) : View := { v with past := o :: v.past }

def setCmd (v : View) (f : NvmeCmdPriv → NvmeCmdPriv) : View := { v with priv := f v.priv }

theorem queue_put_self (v : View) (ch : Chan) (d : Desc) : (v.put ch d).queue ch = v.queue ch ++ [d] :=
  Function.update_self ..

/-- The head of a queue is taken off. -/
def pop (v : View) (ch : Chan) : View := { v with queue := Function.update v.queue ch (v.queue ch).tail }

end View

section

variable {c : Slot} {s t : Fw}

theorem past_other {o : Obs} {tr : List Obs} (h : o.of ≠ some c) : past c (o :: tr) = past c tr := by
  rw [past, if_neg h]

theorem past_own {o : Obs} {tr : List Obs} (h : o.of = some c) (later : o.opens = false) :
    past c (o :: tr) = o :: past c tr := by
  rw [past, if_pos h, later]
  rfl

theorem past_opened {o : Obs} {tr : List Obs} (h : o.of = some c) (opens : o.opens = true) : past c (o :: tr) = [o] := by
  rw [past, if_pos h, if_pos opens]

/-- The view of a command depends on these parts of the state. -/
theorem view_congr (slab : c ∈ t.cmdSlab.used ↔ c ∈ s.cmdSlab.used) (cmd : t.cmds c = s.cmds c)
    (ch : ∀ ch, (t.ch ch).fifo.filter (·.owner = c) = (s.ch ch).fifo.filter (·.owner = c))
    (apu : t.apu.filter (·.priv = c) = s.apu.filter (·.priv = c)) (trace : past c t.trace = past c s.trace) :
    t.view c = s.view c := by
  ext1
  · simp only [Fw.view, slab]
  · exact cmd
  · funext x
    exact ch x
  · exact apu
  · exact trace

theorem view_note_own {o : Obs} (h : o.of = some c) (later : o.opens = false) :
    (s.note o).view c = (s.view c).note o := by
  ext1
  · rfl
  · rfl
  · rfl
  · rfl
  · exact past_own h later

theorem view_note_other {o : Obs} (h : o.of ≠ some c) : (s.note o).view c = s.view c :=
  view_congr .rfl rfl (fun _ => rfl) rfl (past_other h)

theorem view_setCmd_own (f : NvmeCmdPriv → NvmeCmdPriv) : (s.setCmd c f).view c = (s.view c).setCmd f := by
  ext1
  · rfl
  · exact Function.update_self ..
  · rfl
  · rfl
  · rfl

theorem view_setCmd_other {e : Slot} (h : c ≠ e) (f : NvmeCmdPriv → NvmeCmdPriv) :
    (s.setCmd e f).view c = s.view c :=
  view_congr .rfl (Function.update_of_ne h ..) (fun _ => rfl) rfl rfl

theorem fifo_put (s : Fw) (ch ch' : Chan) (d : Desc) :
    ((s.put ch d).ch ch').fifo = if ch' = ch then (s.ch ch').fifo ++ [d] else (s.ch ch').fifo := by
  split
  · rename_i h
    rw [h, Fw.put_ch_self]
  · rename_i h
    rw [Fw.put_ch_of_ne s d h]

theorem view_put_own {ch : Chan} {d : Desc} (owner : d.owner = c) : (s.put ch d).view c = (s.view c).put ch d := by
  ext1
  · rfl
  · rfl
  · funext ch'
    simp only [Fw.view, View.put, fifo_put]
    by_cases h : ch' = ch
    · subst h
      simp [owner]
    · simp [h]
  · rfl
  · rw [← owner]
    exact past_own rfl rfl

theorem view_put_other {ch : Chan} {d : Desc} (h : d.owner ≠ c) : (s.put ch d).view c = s.view c := by
  refine view_congr .rfl rfl (fun ch' => ?_) rfl (past_other fun e => h (Option.some.inj e))
  rw [fifo_put]
  split
  · simp [h]
  · rfl

theorem view_restart (ch : Chan) : (s.restart ch).view c = s.view c :=
  view_congr .rfl rfl (fun ch' => by rw [fifo_restart]) rfl rfl

theorem view_release (d : Desc) : (s.release d).view c = s.view c :=
  view_congr .rfl rfl (fun _ => rfl) rfl (past_other nofun)

theorem view_takeBoth : s.takeBoth.view c = s.view c := by
  refine view_congr .rfl rfl (fun ch => ?_) rfl rfl
  cases ch <;> rfl

theorem get_eq {ch : Chan} {d : Desc} {rest : List Desc} (fifo : (s.ch ch).fifo = d :: rest) :
    s.get ch = (s.setCh ch fun c => { c with fifo := rest }).note (.called ch d) := by
  unfold Fw.get
  rw [fifo]

theorem fifo_get {ch : Chan} {d : Desc} {rest : List Desc} (fifo : (s.ch ch).fifo = d :: rest) (ch' : Chan) :
    ((s.get ch).ch ch').fifo = if ch' = ch then rest else (s.ch ch').fifo := by
  rw [get_eq fifo]
  by_cases h : ch' = ch
  · subst h
    rw [if_pos rfl]
    simp [Fw.note, Fw.setCh]
  · rw [if_neg h]
    simp [Fw.note, Fw.setCh, Function.update_of_ne h]

theorem mem_get {ch ch' : Chan} {d x : Desc} {rest : List Desc} (fifo : (s.ch ch).fifo = d :: rest)
    (mem : x ∈ ((s.get ch).ch ch').fifo) : x ∈ (s.ch ch').fifo := by
  rw [fifo_get fifo] at mem
  split at mem
  · rename_i here
    rw [here, fifo]
    exact List.mem_cons_of_mem _ mem
  · exact mem

theorem view_get_own {ch : Chan} {d : Desc} {rest : List Desc} (fifo : (s.ch ch).fifo = d :: rest) (owner : d.owner = c) :
    (s.get ch).view c = (s.view c).pop ch := by
  ext1
  · rw [get_eq fifo]
    rfl
  · rw [get_eq fifo]
    rfl
  · funext ch'
    simp only [Fw.view, View.pop, fifo_get fifo]
    by_cases h : ch' = ch
    · subst h
      simp [fifo, owner]
    · simp [h]
  · rw [get_eq fifo]
    rfl
  · rw [get_eq fifo]
    exact past_other (o := .called ch d) nofun

theorem view_get_other {ch : Chan} {d : Desc} {rest : List Desc} (fifo : (s.ch ch).fifo = d :: rest) (h : d.owner ≠ c) :
    (s.get ch).view c = s.view c := by
  refine view_congr ?_ ?_ (fun ch' => ?_) ?_ ?_
  · rw [get_eq fifo]
    rfl
  · rw [get_eq fifo]
    rfl
  · rw [fifo_get fifo]
    split
    · rename_i same
      rw [same, fifo]
      simp [h]
    · rfl
  · rw [get_eq fifo]
    rfl
  · rw [get_eq fifo]
    exact past_other nofun

theorem Shape.owner_eq {ch : Chan} {d : Desc} (h : Shape c ch d) : d.owner = c := by
  cases h with
  | list _ _ owner => exact owner
  | data _ _ owner => exact owner

/-- What is done for another command is not seen. -/
theorem FineAct.view_other {P : Platform} {e : Slot} {l : Access} (act : FineAct P e l s t) (h : c ≠ e) :
    t.view c = s.view c := by
  have other {o : Obs} (ho : o.of = some e) : o.of ≠ some c := by
    rw [ho]
    exact fun same => h (Option.some.inj same).symm
  cases act with
  | look => rfl
  | phase => rfl
  | tail => rfl
  | entry s loc cb owner => exact view_put_other (by rw [owner]; exact h.symm)
  | own act =>
    cases act with
    | look => rfl
    | ofCmd => rfl
    | clock => rfl
    | fill => rfl
    | noDescriptor => exact view_note_other (other rfl)
    | put s shape => exact view_put_other (by rw [shape.owner_eq]; exact h.symm)
    | notify => rfl
    | cmd => exact view_setCmd_other h _
    | cmdFree =>
      refine view_congr ?_ rfl (fun _ => rfl) rfl (past_other (other rfl))
      change c ∈ (s.cmdSlab.free e).used ↔ _
      rw [Slab.mem_free]
      exact ⟨fun both => both.2, fun used => ⟨h, used⟩⟩
    | lost => exact view_note_other (other rfl)
    | prpAlloc => exact view_note_other (other rfl)
    | noPrpBuffer => exact view_note_other (other rfl)
    | prpFree => exact view_note_other (other rfl)
    | ram => rfl
    | queues => exact view_setCmd_other h _
    | queue update =>
      cases update with
      | createSq => exact view_note_other nofun
      | createCq => exact view_note_other nofun
      | deleteSq => rfl
      | deleteCq => rfl
    | sent s priv =>
      refine view_congr .rfl rfl (fun _ => rfl) ?_ (past_other (other (congrArg some priv)))
      simp [Fw.note, priv, h.symm]
    | buffer s owner =>
      refine (view_setCmd_other h _).trans (view_note_other (other ?_))
      exact congrArg some owner
    | poolFree => exact view_note_other (other rfl)

end
end AlkaliFw
