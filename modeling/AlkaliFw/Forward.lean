import AlkaliFw.Board
import AlkaliFw.Flash
import AlkaliFw.Lifecycle

/-! From `send_cmd` on the RPU to the answer of the APU. -/

namespace AlkaliFw
open Resumption

/-- Messages that `send_cmd` sends, for whatever command. -/
def Forwarded (P : Platform) (m : RpmsgPayload) : Prop :=
  ∃ c s t, (sendCmd P c).run s = some ((), t) ∧ t.apu = s.apu ++ [m]

theorem forwarded_fields {P : Platform} {m : RpmsgPayload} (h : Forwarded P m) :
    (m.id = payloadAdmCmd ∨ m.id = payloadIoCmd) ∧ m.bufLen = dwordBytes m.data.cdw10 := by
  obtain ⟨c, s, t, run, sent⟩ := h
  simp only [sendCmd, lose, loseUnless, ofCmd, Prog.run_bind, Prog.run_look, Prog.run_swap, Option.bind_some] at run
  have none {u : List RpmsgPayload} (same : u = u ++ [m]) : False := by
    have := congrArg List.length same
    simp at this
  split at run
  · cases run
    exact (none sent).elim
  · simp only [Prog.run_bind, Prog.run_swap, Option.bind_some] at run
    split at run
    · cases run
      have same := List.append_cancel_left sent
      cases same
      refine ⟨?_, rfl⟩
      dsimp only
      split
      · exact .inr rfl
      · exact .inl rfl
    · cases run
      exact (none sent).elim

/-- The invariant of the application, with or without races. -/
structure Sane (S : ApuSys) : Prop where
  placed : Placed S.apu
  made : ∀ t ∈ S.threads, AccMade t.obj t.rest
  word : S.apu.fwBuffer.length < 2 ^ 32

section

variable {L : Linux}

theorem placed_message {s t : Apu} {m : RpmsgPayload} (h : Placed s) (handled : s.handle L m = some t) : Placed t := by
  rcases message_handle handled with calm | ⟨-, -, n, act⟩
  · exact h.calm calm
  · have h' := h.calm (Apu.Still.clock s n).toCalm
    cases act with
    | start _ _ started =>
      have calm : s.Calm { t with created := s.created } := ⟨started.accelerators, started.nextObj, rfl, started.objs⟩
      have placed := h.calm calm
      exact placed
    | reset _ here replaced => exact (h'.reset here).calm replaced
    | config _ _ configured => exact h'.configured configured

theorem word_message {s t : Apu} {m : RpmsgPayload} (h : s.fwBuffer.length < 2 ^ 32) (handled : s.handle L m = some t) :
    t.fwBuffer.length < 2 ^ 32 := by
  have step := fwStep_handle handled h
  generalize fwAction L s m = action at step
  cases step with
  | commit buffer => rwa [buffer]
  | download word => exact word
  | other same => rwa [same.1]

theorem sane_step {S T : ApuSys} {e : ApuEvent} (h : Sane S) (step : S.step L e = some T) : Sane T := by
  cases e with
  | message m =>
    obtain ⟨t, handled, rfl⟩ := Option.map_eq_some_iff.mp step
    refine ⟨placed_message h.placed handled, fun th hth => ?_, word_message h.word handled⟩
    rcases List.mem_append.mp hth with old | new
    · exact h.made th old
    · obtain ⟨a, -, spawn⟩ := List.mem_filterMap.mp new
      obtain ⟨acc, -, rfl⟩ := Option.map_eq_some_iff.mp spawn
      exact made_runBPF
  | memory mem =>
    cases step
    exact ⟨h.placed, h.made, h.word⟩
  | thread i =>
    simp only [ApuSys.step, ApuSys.stepThread] at step
    split at step
    · cases step
    · rename_i t here
      have made := h.made t (List.mem_of_getElem? here)
      split at step
      · rename_i l f k code
        rw [code] at made
        obtain ⟨⟨-, still⟩, rest⟩ := made S.apu trivial
        have placed := h.placed.calm still.toCalm
        have word : (f S.apu).fwBuffer.length < 2 ^ 32 := by
          rw [still.fwBuffer]
          exact h.word
        split at step
        · cases step
          exact ⟨placed, fun u hu => h.made u ((List.eraseIdx_sublist ..).subset hu), word⟩
        · cases step
        · cases step
          refine ⟨placed, fun u hu => ?_, word⟩
          rcases List.mem_or_eq_of_mem_set hu with old | rfl
          · exact h.made u old
          · exact rest
      · cases step

theorem ApuRun.sane {ok : ApuSys → ApuEvent → Prop} {mem : Nat → UInt8} {heads : Nat → StatHead} {S : ApuSys}
    (run : ApuRun L ok (ApuSys.boot mem heads) S) : Sane S := by
  induction run with
  | refl =>
    refine ⟨fun i a here => ?_, fun t ht => ?_, Nat.two_pow_pos 32⟩
    · cases i with
      | zero =>
        cases here
        exact ⟨Nat.one_pos, _, rfl, rfl⟩
      | succ i => cases here
    · cases ht
  | step e _ _ next ih => exact sane_step ih next

/-- One answer, about the command and the buffer of the request. -/
def Answers (m : RpmsgPayload) (s : Apu) (r : Option Apu) : Prop :=
  ∃ t id, r = some t ∧ t.acks = ⟨id, m.priv, m.buf, m.bufLen⟩ :: s.acks ∧ (id = payloadAck ∨ id = payloadAckData)

theorem answers_map {m : RpmsgPayload} {s t : Apu} {r : Option Apu} {id : Nat} (done : r = some t)
    (same : t.acks = s.acks) (known : id = payloadAck ∨ id = payloadAckData) : Answers m s (r.map (·.sendAck m id)) := by
  refine ⟨t.sendAck m id, id, ?_, ?_, known⟩
  · rw [done]
    rfl
  · rw [Apu.sendAck, same]

theorem store_some {s : Apu} {buf : Mapped} {bytes : List UInt8} (fits : bytes.length ≤ buf.len) :
    ∃ t, s.store buf bytes = some t ∧ t.acks = s.acks := by
  rw [Apu.store, if_pos fits]
  exact ⟨_, rfl, rfl⟩

theorem setAcc_some {s : Apu} {id a : Nat} {f : Acc → Acc} (placed : Placed s) (here : s.accelerators[id]? = some a) :
    ∃ t, s.setAcc a f = some t ∧ t.acks = s.acks := by
  obtain ⟨-, c, config, -⟩ := placed id a here
  obtain ⟨acc, obj, -⟩ := Option.map_eq_some_iff.mp config
  rw [Apu.setAcc, obj]
  exact ⟨_, rfl, rfl⟩

theorem admCmdIdentify_some {m : RpmsgPayload} {buf : Mapped} {s : Apu} (len : buf.len = m.bufLen) :
    ∃ t, admCmdIdentify m buf s = some t ∧ t.acks = s.acks := by
  refine store_some ?_
  rw [List.length_take]
  split <;> omega

theorem admCmdStatus_some {m : RpmsgPayload} {buf : Mapped} {s : Apu} (placed : Placed s) (len : buf.len = m.bufLen) :
    ∃ t, admCmdStatus m buf s = some t ∧ t.acks = s.acks := by
  have fits (h : StatHead) : (h.bytes.take m.bufLen).length ≤ buf.len := by
    rw [List.length_take]
    omega
  unfold admCmdStatus
  dsimp only
  split
  · exact ⟨s, rfl, rfl⟩
  · rename_i inside
    obtain ⟨u, fresh, acks⟩ : ∃ u, (if m.data.cdw12 / 2 ^ 31 % 2 = 0 then calculateStatus (m.data.cdw12 % 2 ^ 16) s
        else some s) = some u ∧ u.acks = s.acks := by
      split
      · have here := List.getElem?_eq_getElem (Nat.not_le.mp inside)
        obtain ⟨-, c, config, -⟩ := placed _ _ here
        obtain ⟨acc, obj, -⟩ := Option.map_eq_some_iff.mp config
        unfold calculateStatus
        simp only [here, obj, Option.bind_eq_bind, Option.bind_some]
        exact ⟨_, rfl, rfl⟩
      · exact ⟨s, rfl, rfl⟩
    rw [fresh, Option.bind_some]
    split
    · obtain ⟨t, stored, same⟩ := store_some (s := u) (fits (u.heads (m.data.cdw12 % 2 ^ 16)))
      exact ⟨t, stored, same.trans acks⟩
    · exact ⟨u, rfl, acks⟩

/-- A chunk that ends beyond 2^32 bytes is written outside of `fw_buffer`: the size that the
buffer is given wraps around. -/
def Overflows (L : Linux) (s : Apu) (m : RpmsgPayload) : Prop :=
  m.id = payloadAdmCmd ∧ m.data.opc = cmdAdmFwDownload ∧ (mapRequest L m s).1.isSome ∧
    2 ^ 32 ≤ dwordBytes m.data.cdw11 + dwordBytes m.data.cdw10

theorem admCmdFwDownload_some {m : RpmsgPayload} {buf : Mapped} {s : Apu} (word : s.fwBuffer.length < 2 ^ 32)
    (len : buf.len = dwordBytes m.data.cdw10) :
    (∃ t, admCmdFwDownload m buf s = some t ∧ t.acks = s.acks) ↔
      dwordBytes m.data.cdw11 + dwordBytes m.data.cdw10 < 2 ^ 32 := by
  have size : dwordBytes ((m.data.cdw11 + m.data.cdw10) % 2 ^ 32) =
      (dwordBytes m.data.cdw11 + dwordBytes m.data.cdw10) % 2 ^ 32 := by
    simp only [dwordBytes]
    omega
  have grown : (if s.fwBuffer.length < dwordBytes ((m.data.cdw11 + m.data.cdw10) % 2 ^ 32) then
      resize s.fwBuffer (dwordBytes ((m.data.cdw11 + m.data.cdw10) % 2 ^ 32)) else s.fwBuffer).length =
      max s.fwBuffer.length ((dwordBytes m.data.cdw11 + dwordBytes m.data.cdw10) % 2 ^ 32) := by
    rw [size]
    split
    · rw [resize_eq_grow ‹_›, Patch.length_grow]
    · exact (max_eq_left (Nat.not_lt.mp ‹_›)).symm
  have read : s.read buf (dwordBytes m.data.cdw10) = some ((List.range (dwordBytes m.data.cdw10)).map fun i => s.mem (buf.base + i)) :=
    if_pos len.ge
  have bound (n : Nat) : dwordBytes n < 2 ^ 32 := Nat.mod_lt _ (by decide)
  have off := bound m.data.cdw11
  have ndw := bound m.data.cdw10
  simp only [admCmdFwDownload, read, Option.bind_eq_bind, Option.bind_some]
  generalize (if s.fwBuffer.length < _ then _ else _) = l at grown
  generalize hbytes : (List.range (dwordBytes m.data.cdw10)).map _ = bytes
  have length : bytes.length = dwordBytes m.data.cdw10 := by
    rw [← hbytes, List.length_map, List.length_range]
  unfold copyInto
  rw [length, grown]
  constructor
  · rintro ⟨t, run, -⟩
    split at run
    · omega
    · cases run
  · intro small
    rw [if_pos (by omega)]
    exact ⟨_, rfl, rfl⟩

theorem answers_ioCmd {m : RpmsgPayload} {buf : Mapped} {s : Apu} (placed : Placed s) (len : buf.len = m.bufLen)
    (count : m.bufLen = dwordBytes m.data.cdw10) : Answers m s (ioCmd m buf s) := by
  have lba (add) : Answers m s ((ioCmdLba add m s).map (·.sendAck m payloadAck)) := by
    unfold ioCmdLba
    dsimp only
    split
    · obtain ⟨t, run, acks⟩ := setAcc_some placed ‹_›
      exact answers_map run acks (.inl rfl)
    · exact answers_map rfl rfl (.inl rfl)
  have ctl : Answers m s ((ioCmdAccCtl m s).map (·.sendAck m payloadAck)) := by
    unfold ioCmdAccCtl
    dsimp only
    split
    · exact answers_map rfl rfl (.inl rfl)
    · rename_i a here
      split
      · exact answers_map rfl rfl (.inl rfl)
      · exact answers_map rfl rfl (.inl rfl)
      · exact answers_map rfl rfl (.inl rfl)
      · have run := setAcc_some (s := { s with fwMap := Function.update s.fwMap m.data.cdw14 (some ((s.fwMap m.data.cdw14).getD [])) })
          (f := fun acc => { acc with firmware := (s.fwMap m.data.cdw14).getD [] }) placed here
        obtain ⟨t, run, acks⟩ := run
        exact answers_map (r := s.setFw a m.data.cdw14) run acks (.inl rfl)
      · exact answers_map rfl rfl (.inl rfl)
  unfold ioCmd
  split
  · have read : s.read buf m.bufLen = some ((List.range m.bufLen).map fun i => s.mem (buf.base + i)) := if_pos len.ge
    have run : ∃ t, ioCmdSendFw m buf s = some t ∧ t.acks = s.acks := by
      simp only [ioCmdSendFw, if_neg (not_not.mpr count.symm), read, Option.bind_eq_bind, Option.bind_some]
      exact ⟨_, rfl, rfl⟩
    obtain ⟨t, run, acks⟩ := run
    exact answers_map run acks (.inl rfl)
  · exact lba _
  · exact lba _
  · exact ctl
  · exact ctl
  · exact ctl
  · exact ctl
  · exact ⟨_, _, rfl, rfl, .inl rfl⟩

theorem answers_admCmd_iff {m : RpmsgPayload} {buf : Mapped} {s : Apu} (placed : Placed s) (word : s.fwBuffer.length < 2 ^ 32)
    (len : buf.len = m.bufLen) (count : m.bufLen = dwordBytes m.data.cdw10) :
    Answers m s (admCmd m buf s) ↔
      ¬(m.data.opc = cmdAdmFwDownload ∧ 2 ^ 32 ≤ dwordBytes m.data.cdw11 + dwordBytes m.data.cdw10) := by
  unfold admCmd
  split
  · rename_i opc
    exact ⟨fun _ h => by rw [opc] at h; exact absurd h.1 (by decide), fun _ => ⟨_, _, rfl, rfl, .inl rfl⟩⟩
  · rename_i opc
    have defined := admCmdFwDownload_some word (len.trans count)
    rw [and_iff_right (show m.data.opc = cmdAdmFwDownload from opc), Nat.not_le, ← defined]
    constructor
    · rintro ⟨t, id, run, acks, known⟩
      obtain ⟨u, load, rfl⟩ := Option.map_eq_some_iff.mp run
      exact ⟨u, load, (List.cons.inj acks).2⟩
    · rintro ⟨t, run, acks⟩
      exact answers_map run acks (.inl rfl)
  · rename_i opc
    obtain ⟨t, run, acks⟩ := admCmdIdentify_some (s := s) len
    exact ⟨fun _ h => by rw [opc] at h; exact absurd h.1 (by decide), fun _ => answers_map run acks (.inr rfl)⟩
  · rename_i opc
    refine ⟨fun _ h => by rw [opc] at h; exact absurd h.1 (by decide), fun _ => ⟨_, _, rfl, ?_, .inl rfl⟩⟩
    unfold admCmdAccCtl
    split <;> rfl
  · rename_i opc
    obtain ⟨t, run, acks⟩ := admCmdStatus_some placed len
    exact ⟨fun _ h => by rw [opc] at h; exact absurd h.1 (by decide), fun _ => answers_map run acks (.inr rfl)⟩
  · rename_i download _ _ _
    exact ⟨fun _ h => absurd h.1 download, fun _ => ⟨_, _, rfl, rfl, .inl rfl⟩⟩

end

/-- The APU reads the length of the buffer off the command as the RPU did, stays inside the buffer,
and gives one answer. -/
structure Agreed (L : Linux) (s : Apu) (m : RpmsgPayload) : Prop where
  count : dwordBytes m.data.cdw10 = m.bufLen
  answer : Answers m s (s.handle L m)

theorem agreed_iff (P : Platform) (L : Linux) (m : RpmsgPayload) (mem : Nat → UInt8) (heads : Nat → StatHead) (S : ApuSys)
    (sent : Forwarded P m) (run : ApuRun L (fun _ _ => True) (ApuSys.boot mem heads) S) :
    Agreed L S.apu m ↔ ¬Overflows L S.apu m := by
  obtain ⟨id, count⟩ := forwarded_fields sent
  obtain ⟨placed, -, word⟩ := run.sane
  obtain ⟨n, clock⟩ := mapRequest_clock L m S.apu
  have tick := placed.calm (Apu.Still.clock S.apu n).toCalm
  suffices answer : Answers m S.apu (S.apu.handle L m) ↔ ¬Overflows L S.apu m from
    ⟨fun h => answer.mp h.answer, fun h => ⟨count.symm, answer.mpr h⟩⟩
  have other : payloadIoCmd ≠ payloadAdmCmd := by decide
  cases map : (mapRequest L m S.apu).1 with
  | none =>
    -- the mapping failed, and this is answered
    have pair : mapRequest L m S.apu = (none, { S.apu with clock := n }) := Prod.ext map clock
    have answered : Answers m S.apu (S.apu.handle L m) := by
      refine ⟨Apu.sendAck { S.apu with clock := n } m payloadAck, payloadAck, ?_, rfl, .inl rfl⟩
      rcases id with adm | io
      · rw [Apu.handle, if_pos adm, handleAdmCmd, handleWith, pair]
      · rw [Apu.handle, if_neg (io ▸ other), if_pos io, handleIoCmd, handleWith, pair]
    refine ⟨fun _ beyond => ?_, fun _ => answered⟩
    have mapped := beyond.2.2.1
    rw [map] at mapped
    cases mapped
  | some buf =>
    have pair : mapRequest L m S.apu = (some buf, { S.apu with clock := n }) := Prod.ext map clock
    have len := (mapRequest_buf L map).1
    rcases id with adm | io
    · have step : S.apu.handle L m = admCmd m buf { S.apu with clock := n } := by
        rw [Apu.handle, if_pos adm, handleAdmCmd, handleWith, pair]
      rw [step]
      refine (answers_admCmd_iff tick word len count).trans (not_congr ⟨fun h => ?_, fun h => ⟨h.2.1, h.2.2.2⟩⟩)
      exact ⟨adm, h.1, by rw [map]; rfl, h.2⟩
    · have step : S.apu.handle L m = ioCmd m buf { S.apu with clock := n } := by
        rw [Apu.handle, if_neg (io ▸ other), if_pos io, handleIoCmd, handleWith, pair]
      rw [step]
      exact ⟨fun _ beyond => other (io ▸ beyond.1), fun _ => answers_ioCmd tick len count⟩

/-- The request that the RPU makes for a command. -/
def requestOf (p : NvmeCmdPriv) : RpmsgPayload :=
  { id := if 0 < p.qid.val then rpmsgHandleCustomIoCommand else rpmsgHandleCustomAdmCommand
    len := 64, priv := 0, buf := p.block.data, bufLen := bufferSize p.sqBuf.ndt, data := p.sqBuf
    word := p.bufferSize_lt }

theorem forwarded_requestOf (mps : Nat) (p : NvmeCmdPriv) : Forwarded (board mps) (requestOf p) :=
  ⟨0, { cmds := fun _ => p }, _, rfl, rfl⟩

/-- One double word of firmware for the last offset that CDW11 can name. -/
def lastDword : NvmeCmdPriv :=
  { qid := admQueueId, block := ⟨0x60000000, 1⟩, sqBuf := dwords cmdAdmFwDownload [(10, 1), (11, 2 ^ 30 - 1)] }

/-- Its bytes are copied almost 4 GiB beyond an empty `fw_buffer`. -/
theorem lastDword_unanswered : ¬∀ (P : Platform) (L : Linux) (m : RpmsgPayload) (mem : Nat → UInt8) (heads : Nat → StatHead)
    (S : ApuSys), Forwarded P m → ApuRun L (fun _ _ => True) (ApuSys.boot mem heads) S → Agreed L S.apu m := by
  intro claim
  have agreed := claim _ plainLinux _ (fun _ => 0) (fun _ => ⟨0, 0, fun _ => 0⟩) _ (forwarded_requestOf (2 ^ 12) lastDword) (.refl _)
  obtain ⟨t, id, run, -⟩ := agreed.answer
  have undefined' : (((ApuSys.boot (fun _ => 0) fun _ => ⟨0, 0, fun _ => 0⟩).apu.handle plainLinux
      (requestOf lastDword)).isSome) = false := by decide +kernel
  rw [run] at undefined'
  cases undefined'

/-- An IDENTIFY of a page. -/
theorem identify_agreed : Agreed plainLinux (Apu.boot (fun _ => 0) fun _ => ⟨0, 0, fun _ => 0⟩)
    (requestOf { qid := admQueueId, block := ⟨0x60000000, 1⟩, sqBuf := dwords cmdAdmIdentify [(10, 1024)] }) :=
  (agreed_iff _ plainLinux _ _ _ _ (forwarded_requestOf (2 ^ 12) _) (.refl _)).mpr fun beyond =>
    absurd beyond.2.1 (by decide)

end AlkaliFw
