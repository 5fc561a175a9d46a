import AlkaliFw.Flash

/-! What the RPU returns for the vendor commands that the APU answers with data, in two runs
that differ in memory nobody has written for them: the block of the pool that the command
got, and the status heads as `new` left them. -/

namespace AlkaliFw

/-- What happens to the application before a command. -/
inductive ApuPast where
  | message (m : RpmsgPayload)
  /-- the thread of an accelerator leaves this in its object -/
  | accelerate (a : Nat) (acc : Acc)
  /-- others write the shared memory -/
  | memory (mem : Nat → UInt8)

def statusId (b : SqBuf) : Nat := b.cdw12 % 2 ^ 16
def statusRae (b : SqBuf) : Nat := b.cdw12 / 2 ^ 31 % 2

section

variable (L : Linux)

/-- The message makes the application calculate the status of this accelerator. -/
def calculates (s : Apu) (m : RpmsgPayload) : Option Nat :=
  if m.id = payloadAdmCmd ∧ m.data.opc = cmdAdmStatus ∧ (mapRequest L m s).1.isSome ∧
      statusId m.data < s.accelerators.length ∧ statusRae m.data = 0 then some (statusId m.data)
  else none

/-- A history, with the accelerators whose status was calculated. -/
def Apu.past (s : Apu) (calculated : List Nat) : List ApuPast → Option (Apu × List Nat)
  | [] => some (s, calculated)
  | .message m :: es => (s.handle L m).bind fun t => t.past ((calculates L s m).toList ++ calculated) es
  | .accelerate a acc :: es => (s.setAcc a fun _ => acc).bind fun t => t.past calculated es
  | .memory mem :: es => { s with mem }.past calculated es

end

/-- The bytes that the RPU returns for the last answer, if it is one with data. -/
def Apu.returned (s : Apu) : Option (List UInt8) :=
  match s.acks with
  | ack :: _ => if ack.id = payloadAckData then some ((List.range ack.bufLen).map fun i => s.mem (ack.buf + i)) else none
  | [] => none

/-- What is returned for `m` after a history, when `block` is in its block of the pool. -/
def answerTo (L : Linux) (mem : Nat → UInt8) (heads : Nat → StatHead) (es : List ApuPast) (m : RpmsgPayload)
    (block : Nat → UInt8) : Option (List UInt8) :=
  ((Apu.boot mem heads).past L [] es).bind fun r =>
    (Apu.handle L { r.1 with mem := copyTo r.1.mem m.buf m.bufLen block } m).bind Apu.returned

/-- The answer does not depend on memory that was not initialised. -/
def Independent (L : Linux) (mem : Nat → UInt8) (es : List ApuPast) (m : RpmsgPayload) : Prop :=
  ∀ heads heads' block block', answerTo L mem heads es m block = answerTo L mem heads' es m block'

/-- A status head in two runs, which started with `old` and `old'` in it. -/
structure HeadAlike (calculated : Prop) (old old' h h' : StatHead) : Prop where
  rsvd : h.rsvd = old.rsvd ∧ h'.rsvd = old'.rsvd
  known : calculated → h'.len = h.len ∧ h'.id = h.id
  unknown : ¬calculated → h = old ∧ h' = old'

/-- The one accelerator that `init` made has an object. -/
def Apu.Staffed (s : Apu) : Prop := ∃ a, s.accelerators = [a] ∧ a < s.nextObj ∧ (s.objs a).isSome

/-- Two runs so far: the same objects in the same states, and the same status where it was calculated. -/
structure Alike (old old' : Nat → StatHead) (calculated : List Nat) (s t : Apu) : Prop where
  staffed : s.Staffed
  accelerators : t.accelerators = s.accelerators
  nextObj : t.nextObj = s.nextObj
  clock : t.clock = s.clock
  objs : ∀ a, (t.objs a).map (·.state) = (s.objs a).map (·.state)
  fwBuffer : t.fwBuffer.length = s.fwBuffer.length
  heads : ∀ id, HeadAlike (id ∈ calculated) (old id) (old' id) (s.heads id) (t.heads id)

section Lockstep

variable {old old' : Nat → StatHead} {calculated : List Nat} {s t : Apu}

theorem Alike.mapRequest (h : Alike old old' calculated s t) (L : Linux) (m : RpmsgPayload) :
    (mapRequest L m t).1 = (mapRequest L m s).1 ∧ Alike old old' calculated (mapRequest L m s).2 (mapRequest L m t).2 := by
  unfold AlkaliFw.mapRequest
  split
  · unfold mmapBuffer
    rw [h.clock]
    exact ⟨rfl, h.staffed, h.accelerators, h.nextObj, rfl, h.objs, h.fwBuffer, h.heads⟩
  · exact ⟨rfl, h⟩

theorem Alike.sendAck (h : Alike old old' calculated s t) (m : RpmsgPayload) (id : Nat) :
    Alike old old' calculated (s.sendAck m id) (t.sendAck m id) := ⟨h.staffed, h.accelerators, h.nextObj, h.clock, h.objs, h.fwBuffer, h.heads⟩

/-- Both are defined and again alike, or neither is defined. -/
inductive Both (old old' : Nat → StatHead) (calculated : List Nat) : Option Apu → Option Apu → Prop where
  | none : Both old old' calculated none none
  | some {s t : Apu} (h : Alike old old' calculated s t) : Both old old' calculated (some s) (some t)

theorem Both.sendAck {r r' : Option Apu} (h : Both old old' calculated r r') (m : RpmsgPayload) (id : Nat) :
    Both old old' calculated (r.map (·.sendAck m id)) (r'.map (·.sendAck m id)) := by
  cases h with
  | none => exact .none
  | some h => exact .some (h.sendAck m id)

theorem Alike.store (h : Alike old old' calculated s t) (buf : Mapped) {bytes bytes' : List UInt8} (length : bytes'.length = bytes.length) :
    Both old old' calculated (s.store buf bytes) (t.store buf bytes') := by
  unfold Apu.store
  rw [length]
  split
  · exact .some ⟨h.staffed, h.accelerators, h.nextObj, h.clock, h.objs, h.fwBuffer, h.heads⟩
  · exact .none

/-- Reading is defined for both, and gives as many bytes. -/
theorem read_cases (s t : Apu) (buf : Mapped) (n : Nat) :
    s.read buf n = none ∧ t.read buf n = none ∨
      ∃ bytes bytes', s.read buf n = some bytes ∧ t.read buf n = some bytes' ∧ bytes'.length = bytes.length := by
  unfold Apu.read
  split
  · exact .inr ⟨_, _, rfl, rfl, by simp⟩
  · exact .inl ⟨rfl, rfl⟩

theorem Alike.setAcc (h : Alike old old' calculated s t) (a : Nat) {f g : Acc → Acc}
    (both : ∀ acc acc', acc'.state = acc.state → (g acc').state = (f acc).state) :
    Both old old' calculated (s.setAcc a f) (t.setAcc a g) := by
  have here := h.objs a
  unfold Apu.setAcc
  cases hs : s.objs a with
  | none =>
    rw [hs] at here
    rw [Option.map_eq_none_iff.mp here]
    exact .none
  | some acc =>
    rw [hs] at here
    obtain ⟨acc', ht, same⟩ := Option.map_eq_some_iff.mp here
    rw [ht]
    refine .some ⟨?_, h.accelerators, h.nextObj, h.clock, fun b => ?_, h.fwBuffer, h.heads⟩
    · obtain ⟨b, one, lt, object⟩ := h.staffed
      refine ⟨b, one, lt, ?_⟩
      dsimp only
      by_cases at' : b = a
      · rw [at', Function.update_self]
        rfl
      · rw [Function.update_of_ne at']
        exact object
    by_cases at' : b = a
    · subst at'
      simp only [Function.update_self, Option.map_some, both acc acc' same]
    · simp only [Function.update_of_ne at']
      exact h.objs b

theorem copyInto_cases {l l' bytes bytes' : List UInt8} (at' : Nat) (length : l'.length = l.length)
    (length' : bytes'.length = bytes.length) :
    copyInto l at' bytes = none ∧ copyInto l' at' bytes' = none ∨
      ∃ r r', copyInto l at' bytes = some r ∧ copyInto l' at' bytes' = some r' ∧ r'.length = r.length := by
  unfold copyInto
  rw [length, length']
  split
  · refine .inr ⟨_, _, rfl, rfl, ?_⟩
    simp only [List.length_append, List.length_take, List.length_drop, length, length']
  · exact .inl ⟨rfl, rfl⟩

theorem Alike.admCmdFwDownload (h : Alike old old' calculated s t) (m : RpmsgPayload) (buf : Mapped) :
    Both old old' calculated (admCmdFwDownload m buf s) (admCmdFwDownload m buf t) := by
  simp only [AlkaliFw.admCmdFwDownload]
  rcases read_cases s t buf (dwordBytes m.data.cdw10) with ⟨none, none'⟩ | ⟨bytes, bytes', read, read', length⟩
  · rw [none, none']
    exact .none
  · rw [read, read']
    have grown : (if t.fwBuffer.length < dwordBytes ((m.data.cdw11 + m.data.cdw10) % 2 ^ 32) then
          resize t.fwBuffer (dwordBytes ((m.data.cdw11 + m.data.cdw10) % 2 ^ 32)) else t.fwBuffer).length =
        (if s.fwBuffer.length < dwordBytes ((m.data.cdw11 + m.data.cdw10) % 2 ^ 32) then
          resize s.fwBuffer (dwordBytes ((m.data.cdw11 + m.data.cdw10) % 2 ^ 32)) else s.fwBuffer).length := by
      rw [h.fwBuffer]
      split
      · simp only [resize, List.length_append, List.length_take, List.length_replicate, h.fwBuffer]
      · exact h.fwBuffer
    rcases copyInto_cases (dwordBytes m.data.cdw11) grown length with ⟨none, none'⟩ | ⟨r, r', copy, copy', same⟩
    · simp only [bind, Option.bind_some, none, none']
      exact .none
    · simp only [bind, Option.bind_some, copy, copy']
      exact .some ⟨h.staffed, h.accelerators, h.nextObj, h.clock, h.objs, same, h.heads⟩

theorem length_leBytes (n value : Nat) : (leBytes n value).length = n := by
  induction n generalizing value with
  | zero => rfl
  | succ n ih => rw [leBytes, List.length_cons, ih]

theorem StatHead.length_bytes (h : StatHead) : h.bytes.length = 32 := by
  simp only [StatHead.bytes, List.length_append, List.length_map, List.length_range, length_leBytes]

theorem Alike.calculateStatus (h : Alike old old' calculated s t) (id : Nat) :
    Both old old' (id :: calculated) (calculateStatus id s) (calculateStatus id t) := by
  simp only [AlkaliFw.calculateStatus, h.accelerators]
  cases s.accelerators[id]? with
  | none => exact .none
  | some a =>
    have here := h.objs a
    simp only [bind, Option.bind_some]
    cases hs : s.objs a with
    | none =>
      rw [hs] at here
      rw [Option.map_eq_none_iff.mp here]
      exact .none
    | some acc =>
      rw [hs] at here
      obtain ⟨acc', ht, same⟩ := Option.map_eq_some_iff.mp here
      rw [ht]
      refine .some ⟨h.staffed, rfl, h.nextObj, h.clock, h.objs, h.fwBuffer, fun i => ?_⟩
      by_cases at' : i = id
      · subst at'
        simp only [Function.update_self, same]
        exact ⟨(h.heads i).rsvd, fun _ => ⟨rfl, rfl⟩, fun new => absurd List.mem_cons_self new⟩
      · simp only [Function.update_of_ne at', List.mem_cons, at', false_or]
        exact h.heads i

/-- What the status command leaves in its buffer is as long in both. -/
theorem Alike.putStatus (h : Alike old old' calculated s t) (id : Nat) (m : RpmsgPayload) (buf : Mapped) :
    Both old old' calculated (if m.bufLen ≤ 32 then s.store buf ((s.heads id).bytes.take m.bufLen) else some s)
      (if m.bufLen ≤ 32 then t.store buf ((t.heads id).bytes.take m.bufLen) else some t) := by
  split
  · exact h.store buf (by simp only [List.length_take, StatHead.length_bytes])
  · exact .some h

theorem Alike.admCmdStatus (h : Alike old old' calculated s t) (m : RpmsgPayload) (buf : Mapped) :
    Both old old' ((if statusId m.data < s.accelerators.length ∧ statusRae m.data = 0 then [statusId m.data] else []) ++ calculated)
      (admCmdStatus m buf s) (admCmdStatus m buf t) := by
  unfold AlkaliFw.admCmdStatus statusId statusRae
  dsimp only
  rw [h.accelerators]
  generalize m.data.cdw12 % 2 ^ 16 = id
  generalize m.data.cdw12 / 2 ^ 31 % 2 = rae
  by_cases beyond : id ≥ s.accelerators.length
  · rw [if_pos beyond, if_pos beyond, if_neg (by omega)]
    exact .some h
  · rw [if_neg beyond, if_neg beyond]
    by_cases now : rae = 0
    · rw [if_pos now, if_pos now, if_pos ⟨by omega, now⟩]
      have both := h.calculateStatus id
      generalize AlkaliFw.calculateStatus _ s = r at both ⊢
      generalize AlkaliFw.calculateStatus _ t = r' at both ⊢
      cases both with
      | none => exact .none
      | some h => exact h.putStatus _ m buf
    · rw [if_neg now, if_neg now, if_neg fun both => now both.2]
      exact h.putStatus _ m buf

theorem Alike.admCmd_other (h : Alike old old' calculated s t) (m : RpmsgPayload) (buf : Mapped) (other : m.data.opc ≠ cmdAdmStatus) :
    Both old old' calculated (admCmd m buf s) (admCmd m buf t) := by
  unfold AlkaliFw.admCmd
  split
  · exact .some ⟨h.staffed, h.accelerators, h.nextObj, h.clock, h.objs, h.fwBuffer, h.heads⟩
  · exact (h.admCmdFwDownload m buf).sendAck m _
  · exact (h.store buf rfl).sendAck m _
  · unfold admCmdAccCtl
    split <;> exact .some ⟨h.staffed, h.accelerators, h.nextObj, h.clock, h.objs, h.fwBuffer, h.heads⟩
  · exact absurd ‹_› other
  · exact .some (h.sendAck m _)

theorem Alike.ioCmdSendFw (h : Alike old old' calculated s t) (m : RpmsgPayload) (buf : Mapped) :
    Both old old' calculated (ioCmdSendFw m buf s) (ioCmdSendFw m buf t) := by
  simp only [AlkaliFw.ioCmdSendFw]
  split
  · exact .none
  · rcases read_cases s t buf m.bufLen with ⟨none, none'⟩ | ⟨bytes, bytes', read, read', -⟩
    · rw [none, none']
      exact .none
    · rw [read, read']
      exact .some ⟨h.staffed, h.accelerators, h.nextObj, h.clock, h.objs, h.fwBuffer, h.heads⟩

theorem Alike.ioCmdLba (h : Alike old old' calculated s t) (m : RpmsgPayload) {f : Acc → Nat → Nat → Acc}
    (same : ∀ acc base size, (f acc base size).state = acc.state) : Both old old' calculated (ioCmdLba f m s) (ioCmdLba f m t) := by
  unfold AlkaliFw.ioCmdLba
  dsimp only
  rw [h.accelerators]
  split
  · refine h.setAcc _ fun acc acc' state => ?_
    rw [same, same, state]
  · exact .some h

theorem Alike.resetAcc (h : Alike old old' calculated s t) {id a : Nat} (at' : s.accelerators[id]? = some a) :
    Alike old old' calculated (s.resetAcc id a) (t.resetAcc id a) := by
  refine ⟨?_, ?_, ?_, h.clock, fun b => ?_, h.fwBuffer, h.heads⟩
  · obtain ⟨b, one, lt, -⟩ := h.staffed
    have zero : id = 0 := by
      have : id < s.accelerators.length := (List.getElem?_eq_some_iff.mp at').1
      rw [one, List.length_singleton] at this
      omega
    rw [one, zero] at at'
    cases at'
    refine ⟨s.nextObj, ?_, Nat.lt_succ_self _, ?_⟩
    · rw [Apu.resetAcc, one, zero]
      rfl
    · simp only [Apu.resetAcc, Function.update_of_ne (Nat.ne_of_gt lt), Function.update_self, Option.isSome_some]
  · simp only [Apu.resetAcc, h.accelerators, h.nextObj]
  · simp only [Apu.resetAcc, h.nextObj]
  · simp only [Apu.resetAcc, h.nextObj]
    by_cases gone : b = a
    · rw [gone, Function.update_self, Function.update_self]
    · rw [Function.update_of_ne gone, Function.update_of_ne gone]
      by_cases new : b = s.nextObj
      · rw [new, Function.update_self, Function.update_self]
      · rw [Function.update_of_ne new, Function.update_of_ne new]
        exact h.objs b

theorem Alike.ioCmdAccCtl (h : Alike old old' calculated s t) (m : RpmsgPayload) :
    Both old old' calculated (ioCmdAccCtl m s) (ioCmdAccCtl m t) := by
  unfold AlkaliFw.ioCmdAccCtl
  dsimp only
  rw [h.accelerators]
  split
  · exact .some h
  · rename_i a at'
    split
    · exact .some (h.resetAcc at')
    · exact .some ⟨h.staffed, rfl, h.nextObj, h.clock, h.objs, h.fwBuffer, h.heads⟩
    · exact .some h
    · unfold Apu.setFw
      dsimp only
      refine Alike.setAcc ?_ _ fun _ _ state => state
      exact ⟨h.staffed, h.accelerators, h.nextObj, h.clock, h.objs, h.fwBuffer, h.heads⟩
    · exact .some h

theorem Alike.ioCmd (h : Alike old old' calculated s t) (m : RpmsgPayload) (buf : Mapped) :
    Both old old' calculated (ioCmd m buf s) (ioCmd m buf t) := by
  have ctl : Both old old' calculated ((AlkaliFw.ioCmdAccCtl m s).map (·.sendAck m payloadAck))
      ((AlkaliFw.ioCmdAccCtl m t).map (·.sendAck m payloadAck)) := (h.ioCmdAccCtl m).sendAck m _
  unfold AlkaliFw.ioCmd
  split
  · exact (h.ioCmdSendFw m buf).sendAck m _
  · exact Both.sendAck (h.ioCmdLba m (f := Acc.addRamdiskIn) fun _ _ _ => rfl) m _
  · exact Both.sendAck (h.ioCmdLba m (f := Acc.addRamdiskOut) fun _ _ _ => rfl) m _
  · exact ctl
  · exact ctl
  · exact ctl
  · exact ctl
  · exact .some (h.sendAck m _)

/-- A message. -/
theorem Alike.handle (h : Alike old old' calculated s t) (L : Linux) (m : RpmsgPayload) :
    Both old old' ((calculates L s m).toList ++ calculated) (s.handle L m) (t.handle L m) := by
  obtain ⟨same, mapped⟩ := h.mapRequest L m
  have quiet (none : calculates L s m = none) {r r' : Option Apu} (both : Both old old' calculated r r') :
      Both old old' ((calculates L s m).toList ++ calculated) r r' := by
    rw [none]
    exact both
  unfold Apu.handle
  by_cases adm : m.id = payloadAdmCmd
  · rw [if_pos adm, if_pos adm]
    unfold handleAdmCmd handleWith
    rcases hs : AlkaliFw.mapRequest L m s with ⟨buf | buf, u⟩ <;> rcases ht : AlkaliFw.mapRequest L m t with ⟨buf' | buf', v⟩ <;>
      rw [hs, ht] at same mapped
    · refine quiet ?_ (.some (mapped.sendAck m _))
      rw [calculates, hs]
      exact if_neg fun all => nomatch all.2.2.1
    · cases same
    · cases same
    · cases same
      by_cases status : m.data.opc = cmdAdmStatus
      · have counted : (calculates L s m).toList =
            if statusId m.data < u.accelerators.length ∧ statusRae m.data = 0 then [statusId m.data] else [] := by
          obtain ⟨n, clock⟩ := mapRequest_clock L m s
          rw [hs] at clock
          have objs : u.accelerators = s.accelerators := by rw [show u = _ from clock]
          rw [calculates, hs, objs]
          simp only [adm, status, Option.isSome_some, true_and]
          split <;> rfl
        rw [counted]
        have both := mapped.admCmdStatus m buf
        simp only [AlkaliFw.admCmd, status]
        exact both.sendAck m _
      · refine quiet ?_ (mapped.admCmd_other m buf status)
        exact if_neg fun all => status all.2.1
  · rw [if_neg adm, if_neg adm]
    refine quiet (if_neg fun all => adm all.1) ?_
    split
    · unfold handleIoCmd handleWith
      rcases hs : AlkaliFw.mapRequest L m s with ⟨buf | buf, u⟩ <;> rcases ht : AlkaliFw.mapRequest L m t with ⟨buf' | buf', v⟩ <;>
        rw [hs, ht] at same mapped
      · exact .some (mapped.sendAck m _)
      · cases same
      · cases same
      · cases same
        exact mapped.ioCmd m buf
    · exact .some h

theorem Alike.calculates (h : Alike old old' calculated s t) (L : Linux) (m : RpmsgPayload) :
    calculates L t m = calculates L s m := by
  unfold AlkaliFw.calculates
  rw [(h.mapRequest L m).1, h.accelerators]

/-- A history that one run goes through, the other goes through as well. -/
theorem Alike.past (h : Alike old old' calculated s t) (L : Linux) {es : List ApuPast} {u : Apu} {calculated' : List Nat}
    (run : s.past L calculated es = some (u, calculated')) :
    ∃ v, t.past L calculated es = some (v, calculated') ∧ Alike old old' calculated' u v := by
  induction es generalizing s t calculated with
  | nil =>
    cases run
    exact ⟨t, rfl, h⟩
  | cons e es ih =>
    cases e with
    | message m =>
      obtain ⟨s', handled, run⟩ := Option.bind_eq_some_iff.mp run
      have both := h.handle L m
      rw [handled] at both
      rw [Apu.past, h.calculates L m]
      cases ht : t.handle L m with
      | none =>
        rw [ht] at both
        cases both
      | some t' =>
        rw [ht] at both
        cases both with
        | some h' => exact ih h' run
    | accelerate a acc =>
      obtain ⟨s', left, run⟩ := Option.bind_eq_some_iff.mp run
      have both := h.setAcc a (f := fun _ => acc) (g := fun _ => acc) fun _ _ _ => rfl
      rw [left] at both
      rw [Apu.past]
      cases ht : t.setAcc a fun _ => acc with
      | none =>
        rw [ht] at both
        cases both
      | some t' =>
        rw [ht] at both
        cases both with
        | some h' => exact ih h' run
    | memory mem =>
      rw [Apu.past] at run ⊢
      refine ih ?_ run
      exact ⟨h.staffed, h.accelerators, h.nextObj, h.clock, h.objs, h.fwBuffer, h.heads⟩

end Lockstep

theorem alike_boot (mem : Nat → UInt8) (heads heads' : Nat → StatHead) :
    Alike heads heads' [] (Apu.boot mem heads) (Apu.boot mem heads') :=
  ⟨⟨0, rfl, Nat.zero_lt_one, rfl⟩, rfl, rfl, rfl, fun _ => rfl, rfl,
    fun _ => ⟨⟨rfl, rfl⟩, fun now => (nomatch now), fun _ => ⟨rfl, rfl⟩⟩⟩

/-! The last answer. -/

/-- The status head that the command finds, after its own calculation if it makes one. -/
def Apu.headFor (s : Apu) (m : RpmsgPayload) : StatHead :=
  if statusRae m.data = 0 then
    match s.accelerators[statusId m.data]?.bind s.objs with
    | some acc => { s.heads (statusId m.data) with len := 8, id := acc.state.toNat }
    | none => s.heads (statusId m.data)
  else s.heads (statusId m.data)

/-- The bytes that the command writes into its buffer. -/
def Apu.writes (s : Apu) (m : RpmsgPayload) : List UInt8 :=
  if m.data.opc = cmdAdmIdentify then apuIdentifyStruct.take m.bufLen
  else if statusId m.data < s.accelerators.length ∧ m.bufLen ≤ 32 then (s.headFor m).bytes.take m.bufLen
  else []

/-- `bytes` in front of what was in a block. -/
def filled (bytes : List UInt8) (block : Nat → UInt8) (n : Nat) : List UInt8 :=
  (List.range n).map fun i => if i < bytes.length then bytes.getD i 0 else block i

section Last

variable {L : Linux} {s t : Apu} {m : RpmsgPayload}

theorem length_apuIdentifyStruct : apuIdentifyStruct.length = 4096 := by
  simp only [apuIdentifyStruct, capEntry, List.length_append, length_leBytes, List.length_replicate, identifyStructBufSize,
    List.length_cons, List.length_nil]

theorem copyTo_of_mem {mem src : Nat → UInt8} {addr len i : Nat} (lt : i < len) : copyTo mem addr len src (addr + i) = src i := by
  rw [copyTo, if_pos (by omega), Nat.add_sub_cancel_left]

theorem copyTo_beyond {mem src : Nat → UInt8} {addr len i : Nat} (le : len ≤ i) : copyTo mem addr len src (addr + i) = mem (addr + i) := by
  rw [copyTo, if_neg (by omega)]

/-- What is returned once `bytes` have been stored in the buffer of the message. -/
theorem returned_store {buf : Mapped} {bytes : List UInt8} {block : Nat → UInt8} {mem : Nat → UInt8}
    (before : s.mem = copyTo mem m.buf m.bufLen block) (place : buf.len = m.bufLen ∧ (buf.len = 0 ∨ buf.base = m.buf))
    (fits : bytes.length ≤ m.bufLen) :
    ((s.store buf bytes).map (·.sendAck m payloadAckData)).bind Apu.returned = some (filled bytes block m.bufLen) := by
  rw [Apu.store, if_pos (by omega)]
  simp only [Option.map_some, Option.bind_some, Apu.returned, Apu.sendAck, if_true]
  refine congrArg some (List.map_congr_left fun i hi => ?_)
  have lt : i < m.bufLen := List.mem_range.mp hi
  have base : buf.base = m.buf := by omega
  rw [base, before]
  by_cases written : i < bytes.length
  · rw [copyTo_of_mem written, if_pos written]
  · rw [copyTo_beyond (Nat.not_lt.mp written), copyTo_of_mem lt, if_neg written]

/-- Nothing has been stored. -/
theorem returned_same {block mem : Nat → UInt8} (before : s.mem = copyTo mem m.buf m.bufLen block) :
    (s.sendAck m payloadAckData).returned = some (filled [] block m.bufLen) := by
  simp only [Apu.returned, Apu.sendAck, if_true]
  refine congrArg some (List.map_congr_left fun i hi => ?_)
  rw [before, copyTo_of_mem (List.mem_range.mp hi)]
  rfl

theorem mapRequest_mem (L : Linux) (s : Apu) (m : RpmsgPayload) (mem : Nat → UInt8) :
    mapRequest L m { s with mem } = ((mapRequest L m s).1, { (mapRequest L m s).2 with mem }) := by
  unfold mapRequest
  split <;> rfl

theorem returned_identify {buf : Mapped} {block mem : Nat → UInt8} (before : s.mem = copyTo mem m.buf m.bufLen block)
    (place : buf.len = m.bufLen ∧ (buf.len = 0 ∨ buf.base = m.buf)) :
    ((admCmdIdentify m buf s).map (·.sendAck m payloadAckData)).bind Apu.returned =
      some (filled (apuIdentifyStruct.take m.bufLen) block m.bufLen) := by
  have all : apuIdentifyStruct.take (if m.bufLen > 4096 then 4096 else m.bufLen) = apuIdentifyStruct.take m.bufLen := by
    split
    · rw [List.take_of_length_le (by rw [length_apuIdentifyStruct]),
        List.take_of_length_le (by rw [length_apuIdentifyStruct]; omega)]
    · rfl
  rw [admCmdIdentify, all]
  exact returned_store before place (List.length_take_le _ _)

theorem Apu.Staffed.object (staffed : s.Staffed) {id : Nat} (lt : id < s.accelerators.length) :
    ∃ a acc, s.accelerators[id]? = some a ∧ s.objs a = some acc := by
  obtain ⟨a, one, -, object⟩ := staffed
  obtain ⟨acc, here⟩ := Option.isSome_iff_exists.mp object
  rw [one, List.length_singleton] at lt
  refine ⟨a, acc, ?_, here⟩
  rw [one, Nat.lt_one_iff.mp lt]
  rfl

/-- The head as the command finds it goes out. -/
theorem admCmdStatus_known {buf : Mapped} (staffed : s.Staffed) (known : statusId m.data < s.accelerators.length) :
    admCmdStatus m buf s =
      (fun u : Apu => if m.bufLen ≤ 32 then u.store buf ((s.headFor m).bytes.take m.bufLen) else some u)
        { s with heads := Function.update s.heads (statusId m.data) (s.headFor m) } := by
  obtain ⟨a, acc, at', object⟩ := staffed.object known
  have now : (if statusRae m.data = 0 then calculateStatus (statusId m.data) s else some s) =
      some { s with heads := Function.update s.heads (statusId m.data) (s.headFor m) } := by
    simp only [Apu.headFor, calculateStatus, at', bind, Option.bind_some, object]
    split
    · rfl
    · rw [Function.update_eq_self]
  unfold statusId statusRae at now
  unfold statusId at known
  simp only [admCmdStatus]
  rw [if_neg (Nat.not_le.mpr known), now]
  simp only [Option.bind_some, Function.update_self, statusId]

theorem returned_status {buf : Mapped} {block mem : Nat → UInt8} (staffed : s.Staffed)
    (before : s.mem = copyTo mem m.buf m.bufLen block) (place : buf.len = m.bufLen ∧ (buf.len = 0 ∨ buf.base = m.buf)) :
    ((admCmdStatus m buf s).map (·.sendAck m payloadAckData)).bind Apu.returned =
      some (filled (if statusId m.data < s.accelerators.length ∧ m.bufLen ≤ 32 then (s.headFor m).bytes.take m.bufLen else [])
        block m.bufLen) := by
  by_cases known : statusId m.data < s.accelerators.length
  · rw [admCmdStatus_known staffed known]
    simp only [known, true_and]
    split
    · exact returned_store before place (List.length_take_le _ _)
    · exact returned_same before
  · have unknown := known
    unfold statusId at unknown
    rw [if_neg fun both => known both.1]
    simp only [admCmdStatus]
    rw [if_pos (Nat.not_lt.mp unknown)]
    exact returned_same before

/-- The last answer, if the command is one that is answered with data. -/
theorem returned_handle (staffed : s.Staffed) (adm : m.id = payloadAdmCmd)
    (opc : m.data.opc = cmdAdmIdentify ∨ m.data.opc = cmdAdmStatus) (block : Nat → UInt8) :
    (Apu.handle L { s with mem := copyTo s.mem m.buf m.bufLen block } m).bind Apu.returned =
      if (mapRequest L m s).1.isSome then some (filled (s.writes m) block m.bufLen) else none := by
  obtain ⟨n, clock⟩ := mapRequest_clock L m s
  rw [Apu.handle, if_pos adm, handleAdmCmd, handleWith, mapRequest_mem, clock]
  cases mapped : (mapRequest L m s).1 with
  | none => rfl
  | some buf =>
    have place := mapRequest_buf L mapped
    rw [if_pos (show (some buf).isSome = true from rfl), Apu.writes]
    dsimp only
    rcases opc with identify | status
    · simp only [admCmd, identify, if_true]
      exact returned_identify rfl place
    · simp only [admCmd, status]
      exact returned_status (s := { s with mem := copyTo s.mem m.buf m.bufLen block, clock := n }) staffed rfl place

end Last

/-- The command overwrites all that is returned of its buffer, with a status that was calculated. -/
def Covered (s : Apu) (calculated : List Nat) (m : RpmsgPayload) : Prop :=
  (m.data.opc = cmdAdmIdentify → m.bufLen ≤ 4096) ∧
    (m.data.opc = cmdAdmStatus → 0 < m.bufLen →
      statusId m.data < s.accelerators.length ∧ m.bufLen ≤ 8 ∧ (statusRae m.data = 0 ∨ statusId m.data ∈ calculated))

section Dependence

variable {L : Linux} {mem : Nat → UInt8} {heads heads' : Nat → StatHead} {es : List ApuPast} {s t : Apu} {calculated : List Nat}
  {m : RpmsgPayload}

/-- The answer in the run that started with these heads. -/
theorem answerTo_eq (past : (Apu.boot mem heads).past L [] es = some (s, calculated)) (adm : m.id = payloadAdmCmd)
    (opc : m.data.opc = cmdAdmIdentify ∨ m.data.opc = cmdAdmStatus) (block : Nat → UInt8) :
    answerTo L mem heads es m block =
      if (mapRequest L m s).1.isSome then some (filled (s.writes m) block m.bufLen) else none := by
  obtain ⟨t, past', alike⟩ := (alike_boot mem heads heads).past L past
  rw [past] at past'
  cases past'
  rw [answerTo, past]
  exact returned_handle alike.staffed adm opc block

theorem filled_of_le {bytes : List UInt8} {block : Nat → UInt8} {n : Nat} (le : n ≤ bytes.length) :
    filled bytes block n = bytes.take n := by
  refine List.ext_getElem? fun i => ?_
  rw [filled, List.getElem?_map, List.getElem?_take]
  by_cases lt : i < n
  · rw [List.getElem?_range lt, if_pos lt, Option.map_some, if_pos (by omega), List.getD_eq_getElem?_getD,
      List.getElem?_eq_getElem (by omega)]
    rfl
  · rw [if_neg lt, List.getElem?_eq_none (by rw [List.length_range]; omega)]
    rfl

/-- What shows nothing of the block is long enough. -/
theorem le_length_of_filled {bytes : List UInt8} {n : Nat}
    (same : filled bytes (fun _ => 0) n = filled bytes (fun _ => 1) n) : n ≤ bytes.length := by
  by_contra short
  have at' := congrArg (·[bytes.length]?) same
  simp only [filled, List.getElem?_map, List.getElem?_range (Nat.not_le.mp short), Option.map_some, Nat.lt_irrefl, if_false,
    Option.some.injEq] at at'
  exact absurd at' (by decide)

theorem take_bytes (h : StatHead) {n : Nat} (le : n ≤ 8) : h.bytes.take n = (leBytes 4 h.len ++ leBytes 4 h.id).take n := by
  rw [StatHead.bytes, List.take_append_of_le_length]
  simp only [List.length_append, length_leBytes]
  exact le

theorem Covered.length (covered : Covered s calculated m) (opc : m.data.opc = cmdAdmIdentify ∨ m.data.opc = cmdAdmStatus) :
    m.bufLen ≤ (s.writes m).length := by
  unfold Apu.writes
  by_cases identify : m.data.opc = cmdAdmIdentify
  · have le := covered.1 identify
    rw [if_pos identify, List.length_take, length_apuIdentifyStruct]
    omega
  · rw [if_neg identify]
    rcases Nat.eq_zero_or_pos m.bufLen with empty | pos
    · rw [empty]
      exact Nat.zero_le _
    · obtain ⟨known, le, -⟩ := covered.2 (opc.resolve_left identify) pos
      rw [if_pos ⟨known, by omega⟩, List.length_take, StatHead.length_bytes]
      omega

/-- Where all is overwritten, the same bytes are written in both runs. -/
theorem Alike.writes (h : Alike heads heads' calculated s t) (covered : Covered s calculated m)
    (opc : m.data.opc = cmdAdmIdentify ∨ m.data.opc = cmdAdmStatus) : t.writes m = s.writes m := by
  unfold Apu.writes
  by_cases identify : m.data.opc = cmdAdmIdentify
  · rw [if_pos identify, if_pos identify]
  · rw [if_neg identify, if_neg identify, h.accelerators]
    have status := opc.resolve_left identify
    split
    · rcases Nat.eq_zero_or_pos m.bufLen with empty | pos
      · rw [empty, List.take_zero, List.take_zero]
      · obtain ⟨known, le, current⟩ := covered.2 status pos
        have fields : (t.headFor m).len = (s.headFor m).len ∧ (t.headFor m).id = (s.headFor m).id := by
          unfold Apu.headFor
          split
          · obtain ⟨a, acc, at', object⟩ := h.staffed.object known
            have there := h.objs a
            rw [object] at there
            obtain ⟨acc', object', state⟩ := Option.map_eq_some_iff.mp there
            rw [h.accelerators, at', Option.bind_some, Option.bind_some, object, object']
            exact ⟨rfl, congrArg AccState.toNat state⟩
          · rename_i later
            exact (h.heads _).known (current.resolve_left later)
        rw [take_bytes _ le, take_bytes _ le, fields.1, fields.2]
    · rfl

theorem Apu.headFor_rsvd (s : Apu) (m : RpmsgPayload) : (s.headFor m).rsvd = (s.heads (statusId m.data)).rsvd := by
  unfold Apu.headFor
  split
  · split <;> rfl
  · rfl

theorem StatHead.bytes_len (h : StatHead) : h.bytes[0]? = some (UInt8.ofNat h.len) := rfl

theorem StatHead.bytes_rsvd (h : StatHead) : h.bytes[8]? = some (h.rsvd 0) := rfl

/-- Heads that differ from these in all that a calculation may leave. -/
def otherHeads (heads : Nat → StatHead) : Nat → StatHead := fun id =>
  ⟨(heads id).len + 1, (heads id).id, fun i => (heads id).rsvd i + 1⟩

/-- A status that shows nothing of the heads of the start is short, and was calculated. -/
theorem Alike.known_of_status (h : Alike heads (otherHeads heads) calculated s t) {n : Nat} (pos : 0 < n)
    (same : (s.headFor m).bytes.take n = (t.headFor m).bytes.take n) :
    n ≤ 8 ∧ (statusRae m.data = 0 ∨ statusId m.data ∈ calculated) := by
  have head := h.heads (statusId m.data)
  have byte {i : Nat} (lt : i < n) : (s.headFor m).bytes[i]? = (t.headFor m).bytes[i]? := by
    have at' := congrArg (·[i]?) same
    simpa only [List.getElem?_take, if_pos lt] using at'
  constructor
  · by_contra long
    have at' := byte (i := 8) (by omega)
    rw [StatHead.bytes_rsvd, StatHead.bytes_rsvd, Apu.headFor_rsvd, Apu.headFor_rsvd, head.rsvd.1, head.rsvd.2,
      Option.some.injEq] at at'
    refine absurd at'.symm ?_
    change (heads (statusId m.data)).rsvd 0 + 1 ≠ (heads (statusId m.data)).rsvd 0
    intro equal
    have word := congrArg UInt8.toNat equal
    have lt := UInt8.toNat_lt ((heads (statusId m.data)).rsvd 0)
    rw [UInt8.toNat_add] at word
    simp only [UInt8.toNat_one] at word
    omega
  · by_contra stale
    obtain ⟨rae, unknown⟩ := not_or.mp stale
    have at' := byte (i := 0) pos
    rw [Apu.headFor, if_neg rae, Apu.headFor, if_neg rae, (head.unknown unknown).1, (head.unknown unknown).2,
      StatHead.bytes_len, StatHead.bytes_len, Option.some.injEq] at at'
    have word := congrArg UInt8.toNat at'
    simp only [UInt8.toNat_ofNat', otherHeads] at word
    omega

/-- What the host gets for an identification or a status, after any history. -/
theorem answer_independent_iff (past : (Apu.boot mem heads).past L [] es = some (s, calculated))
    (adm : m.id = payloadAdmCmd) (opc : m.data.opc = cmdAdmIdentify ∨ m.data.opc = cmdAdmStatus) :
    Independent L mem es m ↔ ((mapRequest L m s).1.isSome → Covered s calculated m) := by
  constructor
  · intro independent mapped
    have answers (block) := answerTo_eq past adm opc block
    simp only [if_pos mapped] at answers
    have all : m.bufLen ≤ (s.writes m).length := by
      have same := independent heads heads (fun _ => 0) fun _ => 1
      rw [answers, answers, Option.some.injEq] at same
      exact le_length_of_filled same
    refine ⟨fun identify => ?_, fun status pos => ?_⟩
    · rw [Apu.writes, if_pos identify, List.length_take, length_apuIdentifyStruct] at all
      omega
    · have other : m.data.opc ≠ cmdAdmIdentify := by
        rw [status]
        decide
      have writes : statusId m.data < s.accelerators.length ∧ m.bufLen ≤ 32 := by
        by_contra nothing
        rw [Apu.writes, if_neg other, if_neg nothing] at all
        exact absurd all (Nat.not_le.mpr pos)
      obtain ⟨t, past', alike⟩ := (alike_boot mem heads (otherHeads heads)).past L past
      have same := independent heads (otherHeads heads) (fun _ => 0) fun _ => 0
      have writes' : statusId m.data < t.accelerators.length ∧ m.bufLen ≤ 32 := by
        rw [alike.accelerators]
        exact writes
      have status_writes {u : Apu} (h : statusId m.data < u.accelerators.length ∧ m.bufLen ≤ 32) :
          u.writes m = (u.headFor m).bytes.take m.bufLen := by
        rw [Apu.writes, if_neg other, if_pos h]
      have long (h : StatHead) : m.bufLen ≤ (h.bytes.take m.bufLen).length := by
        rw [List.length_take, StatHead.length_bytes]
        omega
      rw [answers, answerTo_eq past' adm opc, (alike.mapRequest L m).1, if_pos mapped, Option.some.injEq,
        status_writes writes, status_writes writes', filled_of_le (long _), filled_of_le (long _), List.take_take,
        List.take_take, Nat.min_self] at same
      exact ⟨writes.1, alike.known_of_status pos same⟩
  · intro covered h h' block block'
    -- both runs compare to the one that is known to go through
    have answer (g : Nat → StatHead) (block : Nat → UInt8) : answerTo L mem g es m block =
        if (mapRequest L m s).1.isSome then some ((s.writes m).take m.bufLen) else none := by
      obtain ⟨t, past', alike⟩ := (alike_boot mem heads g).past L past
      rw [answerTo_eq past' adm opc, (alike.mapRequest L m).1]
      split
      · rename_i mapped
        rw [alike.writes (covered mapped) opc, filled_of_le ((covered mapped).length opc)]
      · rfl
    rw [answer, answer]

end Dependence

/-- An identification of this length, without a history. -/
def identification (bufLen : Nat) (word : bufLen < 2 ^ 32) : RpmsgPayload :=
  message payloadAdmCmd 0x1000 bufLen (dwords cmdAdmIdentify []) word

/-- The whole structure is returned. -/
theorem identify_independent : (Apu.boot (fun _ => 7) noHeads).past plainLinux [] [] = some (Apu.boot (fun _ => 7) noHeads, []) ∧
    Independent plainLinux (fun _ => 7) [] (identification 4096 (by decide)) := by
  have past : (Apu.boot (fun _ => 7) noHeads).past plainLinux [] [] = some (Apu.boot (fun _ => 7) noHeads, []) := rfl
  refine ⟨past, (answer_independent_iff past rfl (.inl (by decide))).mpr fun _ => ⟨fun _ => by decide, fun status => ?_⟩⟩
  exact absurd status (by decide)

/-- The status of an accelerator that does not exist is what was in the block. -/
theorem unknown_status_leaks : ¬∀ (L : Linux) (mem : Nat → UInt8) (es : List ApuPast) (m : RpmsgPayload),
    m.id = payloadAdmCmd → m.data.opc = cmdAdmIdentify ∨ m.data.opc = cmdAdmStatus → Independent L mem es m := by
  intro claim
  have same := claim plainLinux (fun _ => 7) [] (message payloadAdmCmd 0x1000 8 (dwords cmdAdmStatus [(12, 1)]) (by decide))
    rfl (.inr (by decide)) noHeads noHeads (fun _ => 0) fun _ => 1
  exact absurd same (by decide +kernel)

end AlkaliFw
