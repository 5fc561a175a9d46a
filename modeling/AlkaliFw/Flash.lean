import AlkaliFw.Apu
import AlkaliFw.Patches

/-! The firmware images that commits hand to `flash_fw`, against the chunks that were
downloaded since the commit before. -/

namespace AlkaliFw

/-- The chunk that a download message describes: as long, and at the offset, that its
double words say. -/
def chunk (s : Apu) (m : RpmsgPayload) : Patch UInt8 :=
  ⟨m.data.cdw11 * 4, (List.range (m.data.cdw10 * 4)).map fun i => s.mem (m.buf + i)⟩

section

variable (L : Linux)

/-- Commands that get past the mapping of their buffer. -/
inductive FwAction where
  | download (p : Patch UInt8)
  | commit
  | other

def fwAction (s : Apu) (m : RpmsgPayload) : FwAction :=
  if m.id = payloadAdmCmd ∧ (mapRequest L m s).1.isSome then
    match m.data.opc with
    | cmdAdmFwCommit => .commit
    | cmdAdmFwDownload => .download (chunk s m)
    | _ => .other
  else .other

/-- A commit: the chunks since the one before, what that one left in `fw_buffer`, and the image
that it hands to `flash_fw`. -/
structure Commit where
  since : List (Patch UInt8)
  base : List UInt8
  image : List UInt8

/-- The commits of a history. Shared memory may change before every message. -/
def commits (s : Apu) (base : List UInt8) (since : List (Patch UInt8)) :
    List ((Nat → UInt8) × RpmsgPayload) → List Commit
  | [] => []
  | (mem, m) :: rest =>
    let s := { s with mem }
    match s.handle L m with
    | none => []
    | some t =>
      match fwAction L s m with
      | .commit => ⟨since, base, t.flashed.headD []⟩ :: commits t t.fwBuffer [] rest
      | .download p => commits t base (since ++ [p]) rest
      | .other => commits t base since rest

end

/-- The firmware of the board is not touched. -/
def SameFw (s t : Apu) : Prop := t.fwBuffer = s.fwBuffer ∧ t.flashed = s.flashed

theorem sameFw_setAcc {s t : Apu} {a : Nat} {f : Acc → Acc} (h : s.setAcc a f = some t) : SameFw s t := by
  obtain ⟨acc, -, rfl⟩ := Option.map_eq_some_iff.mp h
  exact ⟨rfl, rfl⟩

theorem sameFw_store {s t : Apu} {b : Mapped} {bytes : List UInt8} (h : s.store b bytes = some t) : SameFw s t := by
  unfold Apu.store at h
  split at h
  · cases h
    exact ⟨rfl, rfl⟩
  · cases h

theorem sameFw_admCmdStatus {recv : RpmsgPayload} {buf : Mapped} {s t : Apu} (h : admCmdStatus recv buf s = some t) :
    SameFw s t := by
  simp only [admCmdStatus] at h
  split at h
  · cases h
    exact ⟨rfl, rfl⟩
  · obtain ⟨u, status, h⟩ := Option.bind_eq_some_iff.mp h
    have same : SameFw s u := by
      split at status
      · obtain ⟨a, -, status⟩ := Option.bind_eq_some_iff.mp status
        obtain ⟨acc, -, status⟩ := Option.bind_eq_some_iff.mp status
        cases status
        exact ⟨rfl, rfl⟩
      · cases status
        exact ⟨rfl, rfl⟩
    split at h
    · have last := sameFw_store h
      exact ⟨last.1.trans same.1, last.2.trans same.2⟩
    · cases h
      exact same

theorem sameFw_ioCmd {recv : RpmsgPayload} {buf : Mapped} {s t : Apu} (h : ioCmd recv buf s = some t) : SameFw s t := by
  have lba (add) (h : (ioCmdLba add recv s).map (·.sendAck recv payloadAck) = some t) : SameFw s t := by
    obtain ⟨u, lba, rfl⟩ := Option.map_eq_some_iff.mp h
    unfold ioCmdLba at lba
    dsimp only at lba
    split at lba
    · have same := sameFw_setAcc lba
      exact same
    · cases lba
      exact ⟨rfl, rfl⟩
  have ctl (h : (ioCmdAccCtl recv s).map (·.sendAck recv payloadAck) = some t) : SameFw s t := by
    obtain ⟨u, ctl, rfl⟩ := Option.map_eq_some_iff.mp h
    unfold ioCmdAccCtl at ctl
    dsimp only at ctl
    split at ctl
    · cases ctl
      exact ⟨rfl, rfl⟩
    · split at ctl
      · cases ctl
        exact ⟨rfl, rfl⟩
      · cases ctl
        exact ⟨rfl, rfl⟩
      · cases ctl
        exact ⟨rfl, rfl⟩
      · have same := sameFw_setAcc ctl
        exact same
      · cases ctl
        exact ⟨rfl, rfl⟩
  unfold ioCmd at h
  split at h
  · obtain ⟨u, fw, rfl⟩ := Option.map_eq_some_iff.mp h
    simp only [ioCmdSendFw] at fw
    split at fw
    · cases fw
    · obtain ⟨bytes, -, fw⟩ := Option.bind_eq_some_iff.mp fw
      cases fw
      exact ⟨rfl, rfl⟩
  · exact lba _ h
  · exact lba _ h
  · exact ctl h
  · exact ctl h
  · exact ctl h
  · exact ctl h
  · cases h
    exact ⟨rfl, rfl⟩

theorem chunk_stop (s : Apu) (m : RpmsgPayload) : (chunk s m).stop = m.data.cdw11 * 4 + m.data.cdw10 * 4 := by
  simp [chunk, Patch.stop]

theorem copyInto_eq {l l' bytes : List UInt8} {at' : Nat} (h : copyInto l at' bytes = some l') :
    (Patch.mk at' bytes).stop ≤ l.length ∧ l' = Patch.write l ⟨at', bytes⟩ := by
  unfold copyInto at h
  split at h
  · cases h
    exact ⟨‹_›, rfl⟩
  · cases h

theorem resize_eq_grow {l : List UInt8} {n : Nat} (longer : l.length < n) : resize l n = Patch.grow 0 l n := by
  rw [resize, Patch.grow, List.take_of_length_le longer.le]

theorem length_resize_lt {l : List UInt8} {n : Nat} (hl : l.length < 2 ^ 32) (hn : n < 2 ^ 32) :
    (if l.length < n then resize l n else l).length < 2 ^ 32 := by
  split
  · rw [resize_eq_grow ‹_›, Patch.length_grow]
    exact max_lt hl hn
  · exact hl

/-- The buffer keeps a length below 2^32; a chunk that ends below 2^32 is written as it should be. -/
theorem admCmdFwDownload_spec {m : RpmsgPayload} {buf : Mapped} {s t : Apu} (base : buf.len = 0 ∨ buf.base = m.buf)
    (h : admCmdFwDownload m buf s = some t) (word : s.fwBuffer.length < 2 ^ 32) :
    t.flashed = s.flashed ∧ t.fwBuffer.length < 2 ^ 32 ∧
      ((chunk s m).stop < 2 ^ 32 → t.fwBuffer = Patch.apply 0 s.fwBuffer (chunk s m)) := by
  simp only [admCmdFwDownload] at h
  obtain ⟨bytes, read, h⟩ := Option.bind_eq_some_iff.mp h
  obtain ⟨fw, copied, h⟩ := Option.bind_eq_some_iff.mp h
  cases h
  obtain ⟨fits, rfl⟩ := copyInto_eq copied
  refine ⟨rfl, ?_, fun small => ?_⟩
  · rw [Patch.length_write fits]
    exact length_resize_lt word (Nat.mod_lt _ (by decide))
  · rw [chunk_stop] at small
    unfold Apu.read at read
    split at read
    · rename_i inside
      cases read
      have off : dwordBytes m.data.cdw11 = m.data.cdw11 * 4 := Nat.mod_eq_of_lt (by omega)
      have ndw : dwordBytes m.data.cdw10 = m.data.cdw10 * 4 := Nat.mod_eq_of_lt (by omega)
      have size : dwordBytes ((m.data.cdw11 + m.data.cdw10) % 2 ^ 32) = (chunk s m).stop := by
        rw [chunk_stop, dwordBytes]
        omega
      have same : Patch.mk (dwordBytes m.data.cdw11)
          ((List.range (dwordBytes m.data.cdw10)).map fun i => s.mem (buf.base + i)) = chunk s m := by
        rw [off, ndw, chunk]
        rcases base with empty | base
        · have : m.data.cdw10 * 4 = 0 := by omega
          rw [this]
          rfl
        · rw [base]
      have grown : (if s.fwBuffer.length < (chunk s m).stop then resize s.fwBuffer (chunk s m).stop else s.fwBuffer) =
          Patch.grow 0 s.fwBuffer (chunk s m).stop := by
        split
        · exact resize_eq_grow ‹_›
        · rename_i long
          rw [Patch.grow, Nat.sub_eq_zero_of_le (Nat.not_lt.mp long), List.replicate_zero, List.append_nil]
      rw [same, size, grown]
      rfl
    · cases read

theorem sameFw_admCmd {m : RpmsgPayload} {buf : Mapped} {s t : Apu} (h : admCmd m buf s = some t)
    (commit : m.data.opc ≠ cmdAdmFwCommit) (download : m.data.opc ≠ cmdAdmFwDownload) : SameFw s t := by
  unfold admCmd at h
  split at h
  · contradiction
  · contradiction
  · obtain ⟨u, store, rfl⟩ := Option.map_eq_some_iff.mp h
    have same := sameFw_store store
    exact same
  · cases h
    unfold admCmdAccCtl
    split <;> exact ⟨rfl, rfl⟩
  · obtain ⟨u, status, rfl⟩ := Option.map_eq_some_iff.mp h
    have same := sameFw_admCmdStatus status
    exact same
  · cases h
    exact ⟨rfl, rfl⟩

/-- What a message does to the firmware of the board. -/
inductive FwStep (s t : Apu) : FwAction → Prop where
  | commit (buffer : t.fwBuffer = s.fwBuffer) (flashed : t.flashed = s.fwBuffer :: s.flashed) : FwStep s t .commit
  | download {p : Patch UInt8} (word : t.fwBuffer.length < 2 ^ 32)
      (written : p.stop < 2 ^ 32 → t.fwBuffer = Patch.apply 0 s.fwBuffer p) : FwStep s t (.download p)
  | other (same : SameFw s t) : FwStep s t .other

theorem fwStep_handle {L : Linux} {s t : Apu} {m : RpmsgPayload} (h : s.handle L m = some t)
    (word : s.fwBuffer.length < 2 ^ 32) : FwStep s t (fwAction L s m) := by
  obtain ⟨n, clock⟩ := mapRequest_clock L m s
  rcases handle_cases L h with ⟨adm, -, rfl⟩ | ⟨-, none, rfl⟩ | ⟨buf, some', ⟨adm, cmd⟩ | ⟨io, cmd⟩⟩
  · rw [fwAction, if_neg fun c => adm c.1]
    exact .other ⟨rfl, rfl⟩
  · rw [fwAction, if_neg fun c => by simp [none] at c, clock]
    exact .other ⟨rfl, rfl⟩
  · rw [clock] at cmd
    rw [fwAction, if_pos ⟨adm, by rw [some']; rfl⟩]
    split
    · rename_i opc
      simp only [admCmd, opc] at cmd
      cases cmd
      exact .commit rfl rfl
    · rename_i opc
      simp only [admCmd, opc] at cmd
      obtain ⟨u, load, rfl⟩ := Option.map_eq_some_iff.mp cmd
      obtain ⟨-, length, written⟩ := admCmdFwDownload_spec (mapRequest_buf L some').2 load word
      exact .download length written
    · rename_i commit download
      have same := sameFw_admCmd cmd commit download
      exact .other same
  · rw [clock] at cmd
    rw [fwAction, if_neg fun c => by rw [io] at c; exact absurd c.1 (by decide)]
    have same := sameFw_ioCmd cmd
    exact .other same

/-- What is left of an earlier image does not show under the chunks. -/
structure Hidden (base : List UInt8) (since : List (Patch UInt8)) : Prop where
  words : ∀ p ∈ since, p.stop < 2 ^ 32
  length : base.length ≤ Patch.stopOf since
  gaps : ∀ i, (∀ p ∈ since, ¬p.Covers i) → base.getD i 0 = 0

/-- `fw_buffer` between two commits. -/
structure Buffered (base : List UInt8) (since : List (Patch UInt8)) (l : List UInt8) : Prop where
  word : l.length < 2 ^ 32
  overlay : (∀ p ∈ since, p.stop < 2 ^ 32) → l = Patch.overlay 0 base since

theorem Buffered.append {base l l' : List UInt8} {since : List (Patch UInt8)} {p : Patch UInt8} (h : Buffered base since l)
    (word : l'.length < 2 ^ 32) (written : p.stop < 2 ^ 32 → l' = Patch.apply 0 l p) : Buffered base (since ++ [p]) l' := by
  refine ⟨word, fun all => ?_⟩
  rw [written (all p (List.mem_append_right _ List.mem_cons_self)), h.overlay fun q hq => all q (List.mem_append_left _ hq)]
  simp only [Patch.overlay, List.foldl_append, List.foldl_cons, List.foldl_nil]

theorem stop_le_stopOf {p : Patch UInt8} {ps : List (Patch UInt8)} (h : p ∈ ps) : p.stop ≤ Patch.stopOf ps := by
  induction ps with
  | nil => cases h
  | cons q ps ih =>
    rcases List.mem_cons.mp h with rfl | later
    · exact le_max_left _ _
    · exact (ih later).trans (le_max_right _ _)

theorem Buffered.image_iff {base l : List UInt8} {since : List (Patch UInt8)} (h : Buffered base since l) :
    l = Patch.overlay 0 [] since ↔ Hidden base since := by
  by_cases words : ∀ p ∈ since, p.stop < 2 ^ 32
  · rw [h.overlay words, Patch.overlay_eq_iff]
    exact ⟨fun hidden => ⟨words, hidden.1, hidden.2⟩, fun hidden => ⟨hidden.length, hidden.gaps⟩⟩
  · -- such a chunk ends beyond what `fw_buffer` can hold
    refine ⟨fun same => absurd (fun p hp => ?_) words, fun hidden => absurd hidden.words words⟩
    have length := congrArg List.length same
    rw [Patch.length_overlay, List.length_nil] at length
    have := stop_le_stopOf hp
    have := h.word
    omega

theorem commits_image {L : Linux} {s : Apu} {base : List UInt8} {since : List (Patch UInt8)}
    {ms : List ((Nat → UInt8) × RpmsgPayload)} (h : Buffered base since s.fwBuffer) :
    ∀ c ∈ commits L s base since ms, c.image = Patch.overlay 0 [] c.since ↔ Hidden c.base c.since := by
  induction ms generalizing s base since with
  | nil =>
    intro c hc
    cases hc
  | cons m ms ih =>
    rw [commits]
    cases run : Apu.handle L { s with mem := m.1 } m.2 with
    | none =>
      intro c hc
      cases hc
    | some t =>
      have step := fwStep_handle run h.word
      dsimp only
      generalize fwAction L { s with mem := m.1 } m.2 = action at step
      cases step with
      | commit buffer flashed =>
        intro c hc
        rcases List.mem_cons.mp hc with rfl | later
        · rw [flashed]
          exact h.image_iff
        · refine ih ⟨?_, fun _ => rfl⟩ c later
          rw [buffer]
          exact h.word
      | download word written => exact ih (h.append word written)
      | other same =>
        refine ih ?_
        rw [same.1]
        exact h

/-- The commits of a history from power on. -/
theorem commit_exact_iff (L : Linux) (mem : Nat → UInt8) (heads : Nat → StatHead)
    (ms : List ((Nat → UInt8) × RpmsgPayload)) :
    ∀ c ∈ commits L (Apu.boot mem heads) [] [] ms,
      c.image = Patch.overlay 0 [] c.since ↔ Hidden c.base c.since :=
  commits_image ⟨Nat.two_pow_pos 32, fun _ => rfl⟩

def noHeads : Nat → StatHead := fun _ => ⟨0, 0, fun _ => 0⟩

def fwDownload (ndw off : Nat) (word : ndw * 4 < 2 ^ 32) : RpmsgPayload :=
  message payloadAdmCmd 0x1000 (ndw * 4) (dwords cmdAdmFwDownload [(10, ndw), (11, off)]) word

def fwCommit : RpmsgPayload := message payloadAdmCmd 0 0 (dwords cmdAdmFwCommit []) noBuffer_word

/-- Eight bytes are committed, then four: the second image has eight as well. -/
theorem commit_keeps_tail : ¬∀ (L : Linux) (mem : Nat → UInt8) (heads : Nat → StatHead)
    (ms : List ((Nat → UInt8) × RpmsgPayload)),
    ∀ c ∈ commits L (Apu.boot mem heads) [] [] ms, c.image = Patch.overlay 0 [] c.since := by
  intro claim
  let mem : Nat → UInt8 := fun _ => 7
  have all := claim plainLinux mem noHeads [(mem, fwDownload 2 0 (by decide)), (mem, fwCommit),
    (mem, fwDownload 1 0 (by decide)), (mem, fwCommit)]
  have lengths : (commits plainLinux (Apu.boot mem noHeads) [] [] [(mem, fwDownload 2 0 (by decide)), (mem, fwCommit),
      (mem, fwDownload 1 0 (by decide)), (mem, fwCommit)]).all
        (fun c => c.image.length == (Patch.overlay 0 [] c.since).length) = false := by decide +kernel
  refine absurd (List.all_eq_true.mpr fun c hc => ?_) (Bool.eq_false_iff.mp lengths)
  rw [all c hc]
  exact beq_self_eq_true _

/-- The first commit after power on. -/
theorem first_commit_exact : ∃ c ∈ commits plainLinux (Apu.boot (fun _ => 7) noHeads) [] []
      [(fun _ => 7, fwDownload 2 0 (by decide)), (fun _ => 7, fwCommit)],
    c.since.length = 1 ∧ c.image = Patch.overlay 0 [] c.since := by
  have one : ((commits plainLinux (Apu.boot (fun _ => 7) noHeads) [] []
      [(fun _ => 7, fwDownload 2 0 (by decide)), (fun _ => 7, fwCommit)])[0]?.map fun c =>
        (c.base, c.since.map Patch.stop)) = some ([], [8]) := by decide +kernel
  obtain ⟨c, here, facts⟩ := Option.map_eq_some_iff.mp one
  have mem := List.mem_of_getElem? here
  simp only [Prod.mk.injEq] at facts
  obtain ⟨base, stops⟩ := facts
  have words : ∀ p ∈ c.since, p.stop < 2 ^ 32 := by
    intro p hp
    have : p.stop ∈ c.since.map Patch.stop := List.mem_map_of_mem hp
    rw [stops] at this
    rw [List.mem_singleton.mp this]
    decide
  refine ⟨c, mem, by simpa using congrArg List.length stops, (commit_exact_iff _ _ _ _ c mem).mpr ⟨words, ?_, ?_⟩⟩
  · rw [base]
    exact Nat.zero_le _
  · intro i _
    rw [base]
    rfl

end AlkaliFw
