import AlkaliFw.Memories
import AlkaliFw.QueuedCopies
import AlkaliFw.Success

/-! What the data transfers of a command leave in the memory that they go to. A write takes from the pages of the host
what they hold when its chunk is moved, a read takes from the ramdisk what that holds; other transfers go on beside. -/

namespace AlkaliFw
open Resumption QueuedCopies

/-- Descriptors that the hardware has not moved yet. -/
def Channel.unmoved (c : Channel) : List Desc := if c.valid then c.fifo.tail else c.fifo

theorem Tracked.unmoved {ch : Chan} {s : Fw} (h : Tracked .steady ch s) :
    s.trace.filterMap (Obs.queued? ch) = (s.ch ch).unmoved.reverse ++ s.trace.filterMap (Obs.finished? ch) := by
  obtain ⟨left, phase, moved⟩ := h.phase
  have same : (s.ch ch).unmoved = left := by
    generalize s.ch ch = c at phase
    cases phase with
    | idle => rfl
    | busy => rfl
    | done => rfl
  rwa [same]

/-- The memory that a channel writes to, and the one that it reads. -/
def Fw.dest (s : Fw) : Chan → Nat → UInt8
  | .rx => s.ram
  | .tx => s.host

def Fw.source (s : Fw) : Chan → Nat → UInt8
  | .rx => s.host
  | .tx => s.ram

namespace Desc

/-- The address in the RPU's memory, of a descriptor that carries data. -/
def addr (d : Desc) : Nat :=
  match d.localAddr with
  | .ram a => a
  | _ => 0

/-- Where a descriptor that carries data takes them, and where it takes them from. -/
def target (d : Desc) : Chan → Nat
  | .rx => d.addr
  | .tx => d.hostAddr

def origin (d : Desc) : Chan → Nat
  | .rx => d.hostAddr
  | .tx => d.addr

/-- The bytes of that memory that the descriptor writes. -/
def written (d : Desc) : Chan → Option (Nat × Nat)
  | .rx =>
    match d.localAddr with
    | .ram a => some (a, d.len)
    | _ => none
  | .tx => some (d.hostAddr, d.len)

theorem carriesData_iff {c : Slot} {d : Desc} : d.carriesData c = true ↔ d.owner = c ∧ d.localAddr = .ram d.addr := by
  unfold carriesData addr
  cases d.localAddr <;> simp

end Desc

/-- Bytes `[a, a + n)` and `[b, b + m)` have nothing in common. -/
def Clear (a n b m : Nat) : Prop := n = 0 ∨ m = 0 ∨ a + n ≤ b ∨ b + m ≤ a

instance (a n b m : Nat) : Decidable (Clear a n b m) := by
  unfold Clear
  infer_instance

def region (spans : List (Nat × Nat)) : Set Nat := {x | ∃ r ∈ spans, r.1 ≤ x ∧ x < r.1 + r.2}

/-- The event writes to none of the spans, but for transfers of which `own` is said. -/
def Avoids (ch : Chan) (own : Desc → Bool) (spans : List (Nat × Nat)) (S : Sys) : Event → Prop
  | .hostStore addr bytes => ch = .tx → ∀ r ∈ spans, Clear addr bytes.length r.1 r.2
  | .apuStore addr bytes => ch = .rx → ∀ r ∈ spans, Clear addr bytes.length r.1 r.2
  | .dmaDone ch' => ch' = ch → ∀ d ∈ (S.fw.ch ch).programmed, own d = false → ∀ w ∈ d.written ch, ∀ r ∈ spans, Clear w.1 w.2 r.1 r.2
  | _ => True

instance (ch : Chan) (own : Desc → Bool) (spans : List (Nat × Nat)) (S : Sys) (e : Event) : Decidable (Avoids ch own spans S e) := by
  cases e <;> (unfold Avoids; infer_instance)

section Bytes

variable {P : Platform} {s t : Fw} {spans : List (Nat × Nat)} {x : Nat}

theorem outside_of_clear {a n : Nat} (clear : ∀ r ∈ spans, Clear a n r.1 r.2) (mem : x ∈ region spans) : ¬(a ≤ x ∧ x < a + n) := by
  obtain ⟨r, here, low, high⟩ := mem
  have apart := clear r here
  unfold Clear at apart
  omega

theorem copyTo_outside {mem src : Nat → UInt8} {a n : Nat} (h : ¬(a ≤ x ∧ x < a + n)) : copyTo mem a n src x = mem x := if_neg h

theorem copyTo_inside {mem src : Nat → UInt8} {a n : Nat} (h : a ≤ x ∧ x < a + n) : copyTo mem a n src x = src (x - a) := if_pos h

/-- What a finished transfer leaves of the memories. -/
structure Transferred (ch : Chan) (d : Desc) (s t : Fw) : Prop where
  source : t.source ch = s.source ch
  outside : ∀ x, (∀ w ∈ d.written ch, ¬(w.1 ≤ x ∧ x < w.1 + w.2)) → t.dest ch x = s.dest ch x
  inside : ∀ a, d.localAddr = .ram a → ∀ x, d.target ch ≤ x → x < d.target ch + d.len → t.dest ch x = s.source ch (d.origin ch + (x - d.target ch))

theorem transferred_of_move {ch : Chan} {d : Desc} (move : s.move P ch d = some t) : Transferred ch d s t := by
  unfold Fw.move at move
  split at move
  · cases move
    refine ⟨rfl, fun x out => copyTo_outside (out _ rfl), fun a loc x low high => ?_⟩
    have byte : s.localByte d.localAddr = fun i => s.ram (a + i) := by
      rw [loc]
      rfl
    have addr : d.addr = a := by
      rw [Desc.addr, loc]
    rw [byte]
    change copyTo s.host d.hostAddr d.len (fun i => s.ram (a + i)) x = s.ram (d.addr + (x - d.hostAddr))
    have here : d.hostAddr ≤ x ∧ x < d.hostAddr + d.len := ⟨low, high⟩
    rw [copyTo_inside here, addr]
  · rename_i a loc
    split at move <;> cases move
    have written : d.written .rx = some (a, d.len) := by
      rw [Desc.written, loc]
    have addr : d.addr = a := by
      rw [Desc.addr, loc]
    refine ⟨rfl, fun x out => ?_, fun b _ x low high => ?_⟩
    · change copyTo s.ram a d.len (fun i => s.host (d.hostAddr + i)) x = s.ram x
      exact copyTo_outside (out _ written)
    · rw [Desc.target, addr] at low high ⊢
      change copyTo s.ram a d.len (fun i => s.host (d.hostAddr + i)) x = s.host (d.hostAddr + (x - a))
      rw [copyTo_inside ⟨low, high⟩]
  · rename_i b loc
    split at move <;> cases move
    exact ⟨rfl, fun _ _ => rfl, fun a other => by rw [loc] at other; cases other⟩
  · rename_i c loc
    cases move
    exact ⟨rfl, fun _ _ => rfl, fun a other => by rw [loc] at other; cases other⟩
  · cases move

/-- A transfer on the other channel changes the source at most. -/
theorem dest_of_move {ch ch' : Chan} {d : Desc} (other : ch' ≠ ch) (move : s.move P ch' d = some t) : t.dest ch = s.dest ch := by
  unfold Fw.move at move
  split at move
  · cases move
    cases ch with
    | rx => rfl
    | tx => exact absurd rfl other
  · split at move <;> cases move
    cases ch with
    | rx => exact absurd rfl other
    | tx => rfl
  · split at move <;> cases move
    cases ch <;> rfl
  · cases move
    cases ch <;> rfl
  · cases move

/-- The code of the firmware leaves every address alone that is not in a response buffer. -/
theorem MemKept.dest {ch : Chan} (h : MemKept P s t) (fixed : ch = .rx → P.Fixed x) : t.dest ch x = s.dest ch x := by
  cases ch with
  | rx => exact h.ram x (fixed rfl)
  | tx => exact congrFun h.host x

end Bytes

section Accounts

/-- The chunks that a command has submitted on a channel, newest first. -/
def chunksOf (ch : Chan) (c : Slot) (h : List Obs) : List Desc := (h.filterMap (Obs.queued? ch)).filter (·.carriesData c)

/-- What was done since `first`. -/
def Sys.since (first S : Sys) : List Obs := S.fw.trace.take (S.fw.trace.length - first.fw.trace.length)

def opened (c : Slot) (h : List Obs) : Bool := h.any fun o => decide (o.of = some c) && o.opens

variable {c : Slot} {ch : Chan} {h new : List Obs}

theorem chunks_append (ch : Chan) (c : Slot) (new h : List Obs) : chunksOf ch c (new ++ h) = chunksOf ch c new ++ chunksOf ch c h := by
  rw [chunksOf, List.filterMap_append, List.filter_append, chunksOf, chunksOf]

theorem past_append_opened (begun : opened c new = true) : past c (new ++ h) = past c new := by
  induction new with
  | nil => cases begun
  | cons o new ih =>
    rw [opened, List.any_cons] at begun
    rw [List.cons_append, past, past]
    by_cases own : o.of = some c
    · rw [if_pos own, if_pos own]
      cases opens : o.opens with
      | true => rfl
      | false =>
        rw [opens, Bool.and_false, Bool.false_or] at begun
        exact congrArg (o :: ·) (ih begun)
    · rw [decide_eq_false own, Bool.false_and, Bool.false_or] at begun
      rw [if_neg own, if_neg own]
      exact ih begun

theorem past_append (same : opened c new = false) : past c (new ++ h) = past c new ++ past c h := by
  induction new with
  | nil => rfl
  | cons o new ih =>
    rw [opened, List.any_cons, Bool.or_eq_false_iff] at same
    rw [List.cons_append, past, past]
    by_cases own : o.of = some c
    · rw [decide_eq_true own, Bool.true_and] at same
      rw [if_pos own, if_pos own, same.1]
      exact congrArg (o :: ·) (ih same.2)
    · rw [if_neg own, if_neg own]
      exact ih same.2

theorem chunks_cons (ch : Chan) (c : Slot) (o : Obs) (h : List Obs) : chunksOf ch c (o :: h) = chunksOf ch c [o] ++ chunksOf ch c h :=
  chunks_append ch c [o] h

theorem chunks_other {o : Obs} (other : o.of ≠ some c) : chunksOf ch c [o] = [] := by
  refine List.filter_eq_nil_iff.mpr fun d mem data => ?_
  obtain ⟨x, here, queued⟩ := List.mem_filterMap.mp mem
  rw [List.mem_singleton.mp here] at queued
  cases o with
  | queued ch' e p =>
    rw [Obs.queued?] at queued
    split at queued <;> cases queued
    exact other (congrArg some (Desc.carriesData_iff.mp data).1)
  | _ => cases queued

/-- The chunks of the command that has the slot are the last that were submitted for it. -/
theorem chunks_past (ch : Chan) (c : Slot) (h : List Obs) : chunksOf ch c (past c h) <+: chunksOf ch c h := by
  induction h with
  | nil => exact List.prefix_rfl
  | cons o h ih =>
    rw [past, chunks_cons ch c o h]
    by_cases own : o.of = some c
    · rw [if_pos own]
      cases o.opens with
      | true => exact List.prefix_append ..
      | false =>
        rw [if_neg Bool.false_ne_true, chunks_cons]
        exact (List.prefix_append_right_inj _).mpr ih
    · rw [if_neg own, chunks_other own, List.nil_append]
      exact ih

theorem chunks_past_eq (same : opened c h = false) : chunksOf ch c (past c h) = chunksOf ch c h := by
  induction h with
  | nil => rfl
  | cons o h ih =>
    rw [opened, List.any_cons, Bool.or_eq_false_iff] at same
    rw [past, chunks_cons ch c o h]
    by_cases own : o.of = some c
    · rw [decide_eq_true own, Bool.true_and] at same
      rw [if_pos own, same.1, if_neg Bool.false_ne_true, chunks_cons, ih same.2]
    · rw [if_neg own, chunks_other own, List.nil_append]
      exact ih same.2

end Accounts

section Since

variable {first S T : Sys} {new : List Obs}

theorem since_self (S : Sys) : S.since S = [] := by
  rw [Sys.since, Nat.sub_self, List.take_zero]

theorem since_eq {l : List Obs} (grown : S.fw.trace = l ++ first.fw.trace) : first.since S = l := by
  rw [Sys.since, grown, List.length_append, Nat.add_sub_cancel, List.take_left]

theorem since_append (grown : first.fw.trace <:+ S.fw.trace) (trace : T.fw.trace = new ++ S.fw.trace) :
    first.since T = new ++ first.since S := by
  obtain ⟨l, old⟩ := grown
  rw [since_eq old.symm]
  refine since_eq ?_
  rw [trace, ← old, List.append_assoc]

theorem since_prefix (first S : Sys) : first.since S <+: S.fw.trace := List.take_prefix ..

end Since

/-- The data transfers of a command on a channel, into the memory of that channel. -/
def copier (ch : Chan) (c : Slot) (first : Sys) : Copier Sys Desc Nat UInt8 where
  done S := made (chunksOf ch c (past c (first.since S))) ((S.fw.ch ch).unmoved.filter (·.carriesData c))
  dest S := S.fw.dest ch
  source S d x := S.fw.source ch (d.origin ch + (x - d.target ch))
  area d := {x | d.target ch ≤ x ∧ x < d.target ch + d.len}

/-- What holds between the steps of every run. -/
structure Sys.Steady (P : Platform) (S : Sys) : Prop where
  sound : S.Sound P
  narrow : S.Narrow P
  engine : (∀ ch, Tracked .steady ch S.fw) ∧ Freed [] S.fw

section Copies

variable {P : Platform} {ch : Chan} {c : Slot} {first S T : Sys} {e : Event} {new : List Obs}

theorem unmoved_append (before : Tracked .steady ch S.fw) (after : Tracked .steady ch T.fw) (trace : T.fw.trace = new ++ S.fw.trace)
    (none : new.filterMap (Obs.finished? ch) = []) :
    (T.fw.ch ch).unmoved = (S.fw.ch ch).unmoved ++ (new.filterMap (Obs.queued? ch)).reverse := by
  have all := after.unmoved
  rw [trace, List.filterMap_append, List.filterMap_append, none, List.nil_append, before.unmoved, ← List.append_assoc] at all
  rw [← List.reverse_reverse (T.fw.ch ch).unmoved, ← List.append_cancel_right all, List.reverse_append, List.reverse_reverse]

/-- A step in which no transfer finishes on the channel. -/
theorem done_beside (before : Tracked .steady ch S.fw) (after : Tracked .steady ch T.fw) (trace : T.fw.trace = new ++ S.fw.trace)
    (none : new.filterMap (Obs.finished? ch) = []) (grown : first.fw.trace <:+ S.fw.trace) :
    (copier ch c first).done T = (copier ch c first).done S ∨ (copier ch c first).done T = [] := by
  have left : (T.fw.ch ch).unmoved.filter (·.carriesData c) =
      (S.fw.ch ch).unmoved.filter (·.carriesData c) ++ (chunksOf ch c new).reverse := by
    rw [unmoved_append before after trace none, List.filter_append, List.filter_reverse, chunksOf]
  simp only [copier, since_append grown trace, left]
  cases begun : opened c new with
  | true =>
    right
    refine made_of_le ?_
    rw [past_append_opened begun, List.length_append, List.length_reverse]
    exact (chunks_past ch c new).length_le.trans (Nat.le_add_left ..)
  | false =>
    left
    rw [past_append begun, chunks_append, chunks_past_eq begun, made_append]

/-- The transfer at the head of the channel finishes. -/
theorem done_moved {d : Desc} (grown : first.fw.trace <:+ S.fw.trace) (trace : T.fw.trace = .finished ch d :: S.fw.trace)
    (before : Tracked .steady ch S.fw) (head : (S.fw.ch ch).unmoved = d :: (T.fw.ch ch).unmoved) :
    if d.carriesData c then
      (copier ch c first).done T = d :: (copier ch c first).done S ∨ (copier ch c first).done T = []
    else (copier ch c first).done T = (copier ch c first).done S := by
  have same : chunksOf ch c (past c (first.since T)) = chunksOf ch c (past c (first.since S)) := by
    have more : first.since T = [.finished ch d] ++ first.since S := since_append grown trace
    rw [more]
    exact congrArg (chunksOf ch c) (past_other (o := .finished ch d) (by simp [Obs.of]))
  have all := before.unmoved
  rw [head] at all
  cases data : d.carriesData c with
  | true =>
    rw [if_pos rfl]
    have left : (S.fw.ch ch).unmoved.filter (·.carriesData c) = d :: (T.fw.ch ch).unmoved.filter (·.carriesData c) := by
      rw [head, List.filter_cons_of_pos data]
    have queue : chunksOf ch c S.fw.trace = (d :: (T.fw.ch ch).unmoved.filter (·.carriesData c)).reverse ++
        (S.fw.trace.filterMap (Obs.finished? ch)).filter (·.carriesData c) := by
      rw [chunksOf, all, List.filter_append, List.filter_reverse, List.filter_cons_of_pos data]
    have here : chunksOf ch c (past c (first.since S)) <+: chunksOf ch c S.fw.trace := by
      obtain ⟨rest, whole⟩ := since_prefix first S
      refine (chunks_past ch c _).trans ?_
      rw [← whole, chunks_append]
      exact List.prefix_append ..
    rw [queue] at here
    simp only [copier, same, left]
    exact made_next here
  | false =>
    rw [if_neg Bool.false_ne_true]
    have left : (S.fw.ch ch).unmoved.filter (·.carriesData c) = (T.fw.ch ch).unmoved.filter (·.carriesData c) := by
      rw [head, List.filter_cons_of_neg (by rw [data]; exact Bool.false_ne_true)]
    simp only [copier, same, left]

/-- A step moves a descriptor of the channel, or none. -/
inductive Motion (P : Platform) (ch : Chan) (S T : Sys) : Event → Prop where
  | moved (d : Desc) (programmed : (S.fw.ch ch).programmed = some d) (head : (S.fw.ch ch).unmoved = d :: (T.fw.ch ch).unmoved)
      (trace : T.fw.trace = .finished ch d :: S.fw.trace) (transferred : Transferred ch d S.fw T.fw) : Motion P ch S T (.dmaDone ch)
  | beside (e : Event) (new : List Obs) (trace : T.fw.trace = new ++ S.fw.trace) (none : new.filterMap (Obs.finished? ch) = [])
      (dest : ∀ spans own, (ch = .rx → ∀ x ∈ region spans, P.Fixed x) → Avoids ch own spans S e →
        ∀ x ∈ region spans, T.fw.dest ch x = S.fw.dest ch x) : Motion P ch S T e

theorem motion_of_finish {ch' : Chan} {t : Fw} (tracked : Tracked .steady ch S.fw) (finish : S.fw.finish P ch' = some t) :
    Motion P ch S { S with fw := t } (.dmaDone ch') := by
  obtain ⟨d, done⟩ := Fw.finished_of_finish finish
  have moved : ∃ u, S.fw.move P ch' d = some u ∧ t.host = u.host ∧ t.ram = u.ram := by
    unfold Fw.finish at finish
    rw [done.programmed] at finish
    obtain ⟨u, move, same⟩ := Option.map_eq_some_iff.mp finish
    exact ⟨u, move, by rw [← same]; rfl, by rw [← same]; rfl⟩
  obtain ⟨u, move, host, ram⟩ := moved
  have dest (ch : Chan) : t.dest ch = u.dest ch := by cases ch <;> assumption
  have source (ch : Chan) : t.source ch = u.source ch := by cases ch <;> assumption
  by_cases same : ch' = ch
  · subst same
    obtain ⟨left, phase, -⟩ := tracked.phase
    obtain ⟨rest, -, fifo, next⟩ := phase.finish done.programmed
    have valid : (S.fw.ch ch').valid = false := by
      have busy := done.programmed
      generalize S.fw.ch ch' = x at phase busy
      cases phase with
      | idle => rfl
      | busy => rfl
      | done => cases busy
    refine .moved d done.programmed ?_ done.trace ?_
    · rw [Channel.unmoved, Channel.unmoved, done.ch_self, valid, fifo]
      rfl
    · obtain ⟨from', outside, inside⟩ := transferred_of_move move
      exact ⟨(source ch').trans from', fun x out => by rw [dest]; exact outside x out,
        fun a loc x low high => by rw [dest]; exact inside a loc x low high⟩
  · refine .beside _ [.finished ch' d] done.trace (List.filterMap_cons_none (if_neg same)) fun _ _ _ _ x _ => ?_
    rw [dest, dest_of_move same move]

theorem Sys.Steady.motion (words : ∀ b, P.respBuf b < 2 ^ 32) (steady : S.Steady P) (step : S.step P e = some T) :
    Motion P ch S T e := by
  have quiet := (steady.narrow.step words steady.sound step).2
  cases e with
  | hostStore addr bytes =>
    rcases Sys.step_cases step with ⟨fw, env, rfl⟩ | ⟨i, withData, no, -⟩ | ⟨no, -⟩
    · cases env
      refine .beside _ [] rfl rfl fun spans own fixed avoids x mem => ?_
      cases ch with
      | rx => rfl
      | tx =>
        change copyTo S.fw.host addr bytes.length (fun i => bytes.getD i 0) x = S.fw.host x
        exact copyTo_outside (outside_of_clear (avoids rfl) mem)
    · cases no
    · cases no
  | apuStore addr bytes =>
    rcases Sys.step_cases step with ⟨fw, env, rfl⟩ | ⟨i, withData, no, -⟩ | ⟨no, -⟩
    · cases env
      refine .beside _ [] rfl rfl fun spans own fixed avoids x mem => ?_
      cases ch with
      | rx =>
        change copyTo S.fw.ram addr bytes.length (fun i => bytes.getD i 0) x = S.fw.ram x
        exact copyTo_outside (outside_of_clear (avoids rfl) mem)
      | tx => rfl
    · cases no
    · cases no
  | dmaDone ch' =>
    rcases Sys.step_cases step with ⟨fw, env, rfl⟩ | ⟨i, withData, no, -⟩ | ⟨no, -⟩
    · exact motion_of_finish (steady.engine.1 ch) env
    · cases no
    · cases no
  | _ =>
    obtain ⟨new, trace, none⟩ := (quiet rfl).trace
    exact .beside _ new trace (none ch) fun spans own fixed _ x mem => (quiet rfl).dest fun rx => fixed rx x mem

/-- A step does to the spans what the transfers of the command do, unless it writes to them otherwise. -/
theorem Motion.copies {spans : List (Nat × Nat)} (motion : Motion P ch S T e) (before : Tracked .steady ch S.fw)
    (after : Tracked .steady ch T.fw) (grown : first.fw.trace <:+ S.fw.trace) (fixed : ch = .rx → ∀ x ∈ region spans, P.Fixed x)
    (avoids : Avoids ch (·.carriesData c) spans S e) : (copier ch c first).Step (region spans) S T := by
  cases motion with
  | moved d programmed head trace transferred =>
    have done := done_moved (c := c) grown trace before head
    cases data : d.carriesData c with
    | true =>
      obtain ⟨-, loc⟩ := Desc.carriesData_iff.mp data
      rw [data, if_pos rfl] at done
      rcases done with more | none
      · refine .made d more (fun x _ here => transferred.inside _ loc x here.1 here.2) fun x _ out => transferred.outside x ?_
        intro w written inside
        refine out ?_
        cases ch with
        | rx =>
          rw [Desc.written, loc] at written
          cases written
          exact inside
        | tx =>
          cases written
          exact inside
      · exact .anew none
    | false =>
      rw [data, if_neg Bool.false_ne_true] at done
      refine .beside (fun x mem => transferred.outside x fun w written => ?_) done
      exact outside_of_clear (avoids rfl d programmed data w written) mem
  | beside e new trace none dest =>
    rcases done_beside before after trace none grown with same | fresh
    · exact .beside (dest spans _ fixed avoids) same
    · exact .anew fresh

end Copies
end AlkaliFw
