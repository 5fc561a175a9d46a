import AlkaliFw.Flash

/-! Sequences of firmware downloads. Where the double words of a request stand for a range of
32-bit positions, `fw_buffer` takes its chunk like any other overlay; the handler computes
positions of any other request as well, but modulo 2^32. -/

namespace AlkaliFw

/-- A download whose data is where the request says, as the controller forwards it. -/
structure IsDownload (L : Linux) (m : RpmsgPayload) : Prop where
  id : m.id = payloadAdmCmd
  opc : m.data.opc = cmdAdmFwDownload
  len : m.bufLen = dwordBytes m.data.cdw10
  mapped : ∀ clock, L.mmap clock m.buf m.bufLen = true

/-- The range of the request ends within 32 bits. -/
def Representable (m : RpmsgPayload) : Prop := 4 * (m.data.cdw11 + m.data.cdw10) < 2 ^ 32

instance (m : RpmsgPayload) : Decidable (Representable m) := by
  unfold Representable
  infer_instance

/-- What is left of `fw_buffer` if requests that are not representable are refused. -/
def downloaded (s : Apu) (m : RpmsgPayload) : List UInt8 :=
  if Representable m then Patch.apply 0 s.fwBuffer (chunk s m) else s.fwBuffer

/-- The wrapped positions lie within `fw_buffer`, where the data stands already. -/
def Unchanging (s : Apu) (m : RpmsgPayload) : Prop :=
  dwordBytes ((m.data.cdw11 + m.data.cdw10) % 2 ^ 32) ≤ s.fwBuffer.length ∧
    ∀ i < dwordBytes m.data.cdw10, s.fwBuffer[dwordBytes m.data.cdw11 + i]? = some (s.mem (m.buf + i))

/-- What the handler makes of `fw_buffer`, if the copy stays within it. -/
def downloadInto (s : Apu) (m : RpmsgPayload) : Option (List UInt8) :=
  let size := dwordBytes ((m.data.cdw11 + m.data.cdw10) % 2 ^ 32)
  copyInto (if s.fwBuffer.length < size then resize s.fwBuffer size else s.fwBuffer) (dwordBytes m.data.cdw11)
    ((List.range (dwordBytes m.data.cdw10)).map fun i => s.mem (m.buf + i))

section Step

variable {L : Linux} {m : RpmsgPayload} {s t : Apu}

/-- The mapping succeeds and has room for the data, so the copy decides. -/
theorem handle_download (h : IsDownload L m) : ∃ n,
    s.handle L m = (downloadInto s m).map fun fwBuffer => Apu.sendAck { s with clock := n, fwBuffer } m payloadAck := by
  obtain ⟨n, clock⟩ := mapRequest_clock L m s
  cases map : (mapRequest L m s).1 with
  | none =>
    unfold mapRequest at map
    split at map
    · rw [mmapBuffer, h.mapped] at map
      cases map
    · cases map
  | some buf =>
    obtain ⟨len, base⟩ := mapRequest_buf L map
    have read : Apu.read { s with clock := n } buf (dwordBytes m.data.cdw10) =
        some ((List.range (dwordBytes m.data.cdw10)).map fun i => s.mem (m.buf + i)) := by
      rw [Apu.read, if_pos (by rw [len, h.len])]
      rcases base with empty | base
      · have none : dwordBytes m.data.cdw10 = 0 := by rw [← h.len, ← len, empty]
        rw [none]
        rfl
      · rw [base]
    have pair : mapRequest L m s = (some buf, { s with clock := n }) := Prod.ext map clock
    refine ⟨n, ?_⟩
    rw [Apu.handle, if_pos h.id, handleAdmCmd, handleWith, pair]
    simp only [admCmd, h.opc, cmdAdmFwDownload, admCmdFwDownload, read, Option.bind_eq_bind, Option.bind_some]
    rw [← downloadInto]
    cases downloadInto s m <;> rfl

/-- A representable request is written as it should be. -/
theorem downloadInto_representable (fits : Representable m) :
    downloadInto s m = some (Patch.apply 0 s.fwBuffer (chunk s m)) := by
  have stop : (chunk s m).stop = m.data.cdw11 * 4 + m.data.cdw10 * 4 := chunk_stop s m
  rw [Representable] at fits
  have off : dwordBytes m.data.cdw11 = m.data.cdw11 * 4 := Nat.mod_eq_of_lt (by omega)
  have ndw : dwordBytes m.data.cdw10 = m.data.cdw10 * 4 := Nat.mod_eq_of_lt (by omega)
  have size : dwordBytes ((m.data.cdw11 + m.data.cdw10) % 2 ^ 32) = (chunk s m).stop := by
    rw [stop, dwordBytes]
    omega
  have grown : (if s.fwBuffer.length < (chunk s m).stop then resize s.fwBuffer (chunk s m).stop else s.fwBuffer) =
      Patch.grow 0 s.fwBuffer (chunk s m).stop := by
    split
    · exact resize_eq_grow ‹_›
    · rename_i long
      rw [Patch.grow, Nat.sub_eq_zero_of_le (Nat.not_lt.mp long), List.replicate_zero, List.append_nil]
  have room : (chunk s m).stop ≤ (Patch.grow 0 s.fwBuffer (chunk s m).stop).length := by
    rw [Patch.length_grow]
    exact le_max_right _ _
  rw [downloadInto, size, grown, off, ndw]
  exact if_pos room

/-- Bytes that stand where they are written leave a list as it is, and no others do. -/
theorem copyInto_same_iff {l bytes : List UInt8} {at' : Nat} (start : bytes.length = 0 → at' ≤ l.length) :
    copyInto l at' bytes = some l ↔ ∀ i < bytes.length, l[at' + i]? = some (bytes.getD i 0) := by
  constructor
  · intro same i hi
    obtain ⟨fits, written⟩ := copyInto_eq same
    have inside : at' + i < l.length := Nat.lt_of_lt_of_le (by omega) (show at' + bytes.length ≤ l.length from fits)
    have byte : l.getD (at' + i) 0 = (Patch.write l ⟨at', bytes⟩).getD (at' + i) 0 := congrArg (·.getD (at' + i) 0) written
    rw [Patch.getD_write 0 fits, if_pos ⟨by simp, by simp [Patch.stop]; omega⟩, Nat.add_sub_cancel_left] at byte
    rw [List.getElem?_eq_getElem inside, ← byte, List.getD_eq_getElem _ _ inside]
  · intro here
    have fits : at' + bytes.length ≤ l.length := by
      by_contra beyond
      have some' : bytes.length ≠ 0 := fun none => beyond (by have := start none; omega)
      have last := here (bytes.length - 1) (by omega)
      rw [List.getElem?_eq_none (by omega)] at last
      cases last
    rw [copyInto, if_pos fits]
    refine congrArg some (Patch.ext_getD 0 (Patch.length_write (p := ⟨at', bytes⟩) fits) fun i => ?_)
    refine (Patch.getD_write 0 (p := ⟨at', bytes⟩) fits i).trans ?_
    split
    · rename_i covers
      obtain ⟨low, high⟩ := covers
      simp only [Patch.stop] at low high
      have byte := here (i - at') (by omega)
      rw [show at' + (i - at') = i by omega] at byte
      rw [List.getD_eq_getElem?_getD (l := l), byte]
      rfl
    · rfl

/-- A request leaves `fw_buffer` as it is where it would change nothing. -/
theorem downloadInto_same_iff : downloadInto s m = some s.fwBuffer ↔ Unchanging s m := by
  have bytes : ∀ i, i < dwordBytes m.data.cdw10 →
      ((List.range (dwordBytes m.data.cdw10)).map fun i => s.mem (m.buf + i)).getD i 0 = s.mem (m.buf + i) := by
    intro i hi
    simp [hi]
  by_cases longer : s.fwBuffer.length < dwordBytes ((m.data.cdw11 + m.data.cdw10) % 2 ^ 32)
  · refine ⟨fun same => ?_, fun same => absurd same.1 (Nat.not_le.mpr longer)⟩
    rw [downloadInto, if_pos longer] at same
    obtain ⟨fits, written⟩ := copyInto_eq same
    have length := congrArg List.length written
    rw [Patch.length_write fits, resize_eq_grow longer, Patch.length_grow] at length
    omega
  · rw [downloadInto, if_neg longer, copyInto_same_iff, List.length_map, List.length_range, Unchanging]
    · constructor
      · exact fun here => ⟨Nat.not_lt.mp longer, fun i hi => (here i hi).trans (congrArg some (bytes i hi))⟩
      · exact fun same i hi => (same.2 i hi).trans (congrArg some (bytes i hi).symm)
    · intro none
      rw [List.length_map, List.length_range, dwordBytes] at none
      rw [dwordBytes] at longer ⊢
      omega

end Step

/-- The double words are unwrapped, or wrapped positions change nothing. -/
def Ranged (s : Apu) (m : RpmsgPayload) : Prop := Representable m ∨ Unchanging s m

section Sequence

variable (L : Linux)

/-- Requests one after the other. Shared memory may change before each of them. -/
def downloads (s : Apu) : List ((Nat → UInt8) × RpmsgPayload) → Option Apu
  | [] => some s
  | (mem, m) :: rest => (Apu.handle L { s with mem } m).bind fun t => downloads t rest

/-- Every request of a sequence meets a condition on the state before it. -/
def Each (ok : Apu → RpmsgPayload → Prop) (s : Apu) : List ((Nat → UInt8) × RpmsgPayload) → Prop
  | [] => True
  | (mem, m) :: rest => ok { s with mem } m ∧ ∀ t, Apu.handle L { s with mem } m = some t → Each ok t rest

/-- The chunks of the representable requests. -/
def chunks (s : Apu) (cs : List ((Nat → UInt8) × RpmsgPayload)) : List (Patch UInt8) :=
  (cs.filter fun c => decide (Representable c.2)).map fun c => chunk { s with mem := c.1 } c.2

/-- A request does to `fw_buffer` what it should, and no more. -/
def Downloads (s : Apu) (m : RpmsgPayload) : Prop := ∃ t, s.handle L m = some t ∧ t.fwBuffer = downloaded s m

/-- Each request of the sequence is carried out or refused, so that `fw_buffer` is overlaid with
the chunks. The order of chunks that are apart does not matter. -/
structure Overlaid (s : Apu) (cs : List ((Nat → UInt8) × RpmsgPayload)) : Prop where
  each : Each L (Downloads L) s cs
  done : ∃ t, downloads L s cs = some t
  length : ∀ t, downloads L s cs = some t → t.fwBuffer.length = max s.fwBuffer.length (Patch.stopOf (chunks s cs))
  byte : ∀ t, downloads L s cs = some t → ∀ i, t.fwBuffer.getD i 0 =
    match (chunks s cs).reverse.find? (fun p => decide (p.Covers i)) with
    | some p => p.data.getD (i - p.off) 0
    | none => s.fwBuffer.getD i 0
  commute : (chunks s cs).Pairwise Patch.Apart → ∀ ds, ds.Perm cs → Each L (Downloads L) s ds →
    ∀ t u, downloads L s cs = some t → downloads L s ds = some u → u.fwBuffer = t.fwBuffer

variable {L} {s : Apu} {cs : List ((Nat → UInt8) × RpmsgPayload)}

theorem downloads_iff {m : RpmsgPayload} (h : IsDownload L m) : Downloads L s m ↔ Ranged s m := by
  obtain ⟨n, handled⟩ := handle_download (s := s) h
  have result : Downloads L s m ↔ downloadInto s m = some (downloaded s m) := by
    rw [Downloads, handled]
    constructor
    · rintro ⟨t, some', buffer⟩
      obtain ⟨fw, into, rfl⟩ := Option.map_eq_some_iff.mp some'
      rw [into]
      exact congrArg some buffer
    · intro into
      rw [into]
      exact ⟨_, rfl, rfl⟩
  rw [result, downloaded, Ranged]
  split
  · rename_i fits
    exact ⟨fun _ => .inl fits, fun _ => downloadInto_representable fits⟩
  · rename_i wraps
    rw [downloadInto_same_iff]
    exact ⟨.inr, fun h => h.resolve_left wraps⟩

theorem each_iff (h : ∀ c ∈ cs, IsDownload L c.2) : Each L (Downloads L) s cs ↔ Each L Ranged s cs := by
  induction cs generalizing s with
  | nil => exact Iff.rfl
  | cons c cs ih =>
    have rest (t : Apu) := ih (s := t) fun d hd => h d (List.mem_cons_of_mem _ hd)
    refine and_congr (downloads_iff (h c List.mem_cons_self)) (forall_congr' fun t => forall_congr' fun _ => rest t)

/-- Requests that each do what they should overlay the buffer. -/
theorem overlay_of_each (each : Each L (Downloads L) s cs) :
    ∃ t, downloads L s cs = some t ∧ t.fwBuffer = Patch.overlay 0 s.fwBuffer (chunks s cs) := by
  induction cs generalizing s with
  | nil => exact ⟨s, rfl, rfl⟩
  | cons c cs ih =>
    obtain ⟨mem, m⟩ := c
    obtain ⟨⟨t, handled, buffer⟩, rest⟩ := each
    obtain ⟨u, run, overlaid⟩ := ih (rest t handled)
    refine ⟨u, by rw [downloads, handled]; exact run, ?_⟩
    rw [overlaid, buffer, downloaded]
    by_cases fits : Representable m
    · rw [if_pos fits, chunks, chunks, List.filter_cons_of_pos (by simpa using fits)]
      rfl
    · rw [if_neg fits, chunks, chunks, List.filter_cons_of_neg (by simpa using fits)]
      rfl

/-- A sequence of downloads is an overlay exactly when no request of it wraps, or it wraps to
where it changes nothing. -/
theorem overlaid_iff (L : Linux) (s : Apu) (cs : List ((Nat → UInt8) × RpmsgPayload)) (h : ∀ c ∈ cs, IsDownload L c.2) :
    Overlaid L s cs ↔ Each L Ranged s cs := by
  refine ⟨fun overlaid => (each_iff h).mp overlaid.each, fun ranged => ?_⟩
  have each := (each_iff h).mpr ranged
  obtain ⟨t, run, overlaid⟩ := overlay_of_each each
  have only {u : Apu} (hu : downloads L s cs = some u) : u = t := Option.some.inj (hu.symm.trans run)
  refine ⟨each, ⟨t, run⟩, fun u hu => ?_, fun u hu i => ?_, fun apart ds perm each' u v hu hv => ?_⟩
  · rw [only hu, overlaid, Patch.length_overlay]
  · rw [only hu, overlaid, Patch.getD_overlay]
    cases (chunks s cs).reverse.find? (fun p => decide (p.Covers i)) <;> rfl
  · obtain ⟨w, run', overlaid'⟩ := overlay_of_each each'
    obtain rfl : v = w := Option.some.inj (hv.symm.trans run')
    have perm' : (chunks s cs).Perm (chunks s ds) := ((perm.symm.filter _).map _)
    rw [only hu, overlaid, overlaid', Patch.overlay_perm 0 _ perm' apart]

end Sequence

/-- One double word at offset 2^30 lands at offset 0. -/
theorem wrapped_overwrites : ¬∀ (L : Linux) (s : Apu) (cs : List ((Nat → UInt8) × RpmsgPayload)),
    (∀ c ∈ cs, IsDownload L c.2) → Overlaid L s cs := by
  intro claim
  let s := Apu.boot (fun _ => 7) noHeads
  have overlaid := claim plainLinux s [(fun _ => 7, fwDownload 1 (2 ^ 30) (by decide))] fun c hc => by
    rw [List.mem_singleton.mp hc]
    exact ⟨rfl, by decide, by decide, fun _ => rfl⟩
  have four : (downloads plainLinux s [(fun _ => 7, fwDownload 1 (2 ^ 30) (by decide))]).map (·.fwBuffer.length) = some 4 := by
    decide +kernel
  obtain ⟨t, run, length⟩ := Option.map_eq_some_iff.mp four
  have none := overlaid.length t run
  rw [length] at none
  exact absurd none (by decide +kernel)

/-- Two chunks that leave a gap. -/
theorem twoChunks_overlaid : Overlaid plainLinux (Apu.boot (fun _ => 7) noHeads)
    [(fun _ => 7, fwDownload 1 0 (by decide)), (fun _ => 8, fwDownload 1 2 (by decide))] := by
  refine (overlaid_iff _ _ _ fun c hc => ?_).mpr ⟨.inl (by decide), fun t _ => ⟨.inl (by decide), fun _ _ => trivial⟩⟩
  rcases List.mem_pair.mp hc with rfl | rfl <;> exact ⟨rfl, by decide, by decide, fun _ => rfl⟩

end AlkaliFw
