import AlkaliFw.Cmd

/-! What `nvme_cmd_return` changes: the completion ring of its queue, the entry of the
command and the DMA queue that carries it. -/

namespace AlkaliFw
open Resumption

section Grown

variable {ok : Obs → Prop} {old : List Obs}

/-- Beyond `old` the trace has only events that are `ok`. -/
def Fw.Grown (ok : Obs → Prop) (old : List Obs) (s : Fw) : Prop := ∃ new, s.trace = new ++ old ∧ ∀ o ∈ new, ok o

theorem Fw.Grown.refl (s : Fw) : s.Grown ok s.trace := ⟨[], rfl, fun _ h => nomatch h⟩

theorem Fw.Grown.note {s : Fw} (h : s.Grown ok old) {o : Obs} (ho : ok o) : (s.note o).Grown ok old := by
  obtain ⟨new, e, all⟩ := h
  refine ⟨o :: new, by rw [Fw.note, e, List.cons_append], fun x hx => ?_⟩
  rcases List.mem_cons.mp hx with rfl | later
  · exact ho
  · exact all x later

end Grown

section

variable (P : Platform) {I : Fw → Prop}

theorem keeps_nvmeDmaXfer (ch : Chan) (tag host : Nat) (loc : Local) (len : Nat)
    (callback : Option (Cb × Slot)) (owner : Slot)
    (slab : ∀ s d n, I s → I { s with descSlab := d, clock := n })
    (failed : ∀ s, I s → I (s.note (.noDescriptor owner)))
    (put : ∀ s block q, I s → I (s.put ch ⟨callback, host, loc, len, tag, block, owner, q⟩)) :
    Prog.Keeps I (nvmeDmaXfer P ch tag host loc len callback owner) := by
  refine Prog.keeps_swap_bind (fun s h => ?_) fun s => ?_
  · dsimp only
    split
    · exact slab s _ _ h
    · exact failed _ (slab s _ _ h)
  · cases got : (P.descSlabAlloc s.descSlab s.clock).1 with
    | none =>
      simp only [got]
      exact Prog.keeps_pure _
    | some block =>
      simp only [got]
      exact Prog.keeps_bind (Prog.keeps_change fun s h => put s _ _ h) fun _ => Prog.keeps_pure _

theorem keeps_nvmeTcGetCqAddr (q : QId)
    (ring : ∀ s phase tail, I s → I (s.setTc fun tc => { tc with cqPhase := phase, cqTail := tail })) :
    Prog.Keeps I (nvmeTcGetCqAddr q) := by
  refine Prog.keeps_bind (Prog.keeps_look ..) fun tail => Prog.keeps_bind (Prog.keeps_look ..) fun size => ?_
  refine Prog.keeps_ite (fun _ => Prog.keeps_stuck) fun _ => Prog.keeps_bind (Prog.keeps_look ..) fun head => ?_
  refine Prog.keeps_ite (fun _ => ?_) fun _ => Prog.keeps_pure _
  refine Prog.keeps_bind (Prog.keeps_look ..) fun first => Prog.keeps_bind ?_ fun _ => ?_
  · exact Prog.keeps_when fun _ => Prog.keeps_bind (Prog.keeps_look ..) fun _ =>
      Prog.keeps_change fun s h => ring s _ s.tc.cqTail h
  · refine Prog.keeps_bind (Prog.keeps_look ..) fun base => Prog.keeps_bind (Prog.keeps_look ..) fun index => ?_
    exact Prog.keeps_bind (Prog.keeps_change fun s h => ring s s.tc.cqPhase _ h) fun _ => Prog.keeps_pure _

/-- What a return of `c` may leave in the trace. -/
def Obs.returns (c : Slot) : Obs → Prop
  | .queued .tx d _ => d.localAddr = .cqBuf c ∧ d.owner = c ∧ d.callback = some (.cqCb, c)
  | .noDescriptor o => o = c
  | .lost o _ => o = c
  | _ => False

theorem keeps_nvmeCmdReturn (c : Slot)
    (slab : ∀ s d n, I s → I { s with descSlab := d, clock := n })
    (ring : ∀ s phase tail, I s → I (s.setTc fun tc => { tc with cqPhase := phase, cqTail := tail }))
    (entry : ∀ s (f : NvmeCmdPriv → NvmeCqEntry), I s → I (s.setCmd c fun p => { p with cqBuf := f p }))
    (channel : ∀ s ch f, I s → I (s.setCh ch f))
    (noted : ∀ s o, o.returns c → I s → I (s.note o)) : Prog.Keeps I (nvmeCmdReturn P c) := by
  refine Prog.keeps_bind (Prog.keeps_look ..) fun qid => Prog.keeps_bind (keeps_nvmeTcGetCqAddr qid ring) fun cqAddr => ?_
  refine Prog.keeps_ite (fun _ => Prog.keeps_change fun s h => noted s _ rfl h) fun _ => ?_
  refine Prog.keeps_bind (Prog.keeps_look ..) fun phase =>
    Prog.keeps_bind (Prog.keeps_change fun s h => entry s _ h) fun _ => ?_
  refine Prog.keeps_bind (keeps_nvmeDmaXfer P _ _ _ _ _ _ _ slab (fun s h => noted s _ rfl h) fun s block q h => ?_) fun ok => ?_
  · exact noted _ _ ⟨rfl, rfl, rfl⟩ (channel s _ _ h)
  · exact Prog.keeps_when fun _ => Prog.keeps_change fun s h => noted s _ rfl h

/-- A return leaves the pool and the record alone, except for the completion entry. -/
structure Returned (c : Slot) (s t : Fw) : Prop where
  pool : t.pool = s.pool
  page : t.tc.memoryPageSize = s.tc.memoryPageSize
  cmd : ∃ e, t.cmds = Function.update s.cmds c { s.cmds c with cqBuf := e }
  trace : t.Grown (Obs.returns c) s.trace

theorem returned_of_run {c : Slot} {s t : Fw} (run : (nvmeCmdReturn P c).run s = some ((), t)) : Returned c s t := by
  refine (keeps_nvmeCmdReturn P c ?_ ?_ ?_ ?_ ?_).run (s := s) ?_ run
  · exact fun u d n h => ⟨h.pool, h.page, h.cmd, h.trace⟩
  · exact fun u phase tail h => ⟨h.pool, h.page, h.cmd, h.trace⟩
  · intro u f h
    obtain ⟨e, he⟩ := h.cmd
    refine ⟨h.pool, h.page, ⟨f (u.cmds c), ?_⟩, h.trace⟩
    rw [Fw.setCmd, he, Function.update_self, Function.update_idem]
  · exact fun u ch f h => ⟨h.pool, h.page, h.cmd, h.trace⟩
  · exact fun u o ho h => ⟨h.pool, h.page, h.cmd, h.trace.note ho⟩
  · exact ⟨rfl, rfl, ⟨_, (Function.update_eq_self c s.cmds).symm⟩, .refl s⟩

/-- The ring with one more slot taken. -/
def NvmeTcPriv.allot (tc : NvmeTcPriv) (q : QId) : NvmeTcPriv :=
  { tc with
    cqPhase := if tc.cqTail q = 0 then Function.update tc.cqPhase q (!tc.cqPhase q) else tc.cqPhase
    cqTail := Function.update tc.cqTail q ((tc.cqTail q + 1) % tc.cqSize q % 2 ^ 16) }

def NvmeTcPriv.cqFull (tc : NvmeTcPriv) (q : QId) : Prop := tc.cqHead q = (tc.cqTail q + 1) % tc.cqSize q

instance (tc : NvmeTcPriv) (q : QId) : Decidable (tc.cqFull q) := by
  unfold NvmeTcPriv.cqFull
  infer_instance

theorem run_nvmeTcGetCqAddr {q : QId} {s : Fw} (ring : 0 < s.tc.cqSize q) :
    (nvmeTcGetCqAddr q).run s = some (if s.tc.cqFull q then (0, s) else
      ((s.tc.cqBase q + s.tc.cqTail q * nvmeTcCqEntrySize) % 2 ^ 64, s.setTc (·.allot q))) := by
  simp only [nvmeTcGetCqAddr, nvmeTcFlipPhase, Prog.run_bind, Prog.run_look, Option.bind_some,
    if_neg (Nat.pos_iff_ne_zero.mp ring)]
  by_cases full : s.tc.cqHead q = (s.tc.cqTail q + 1) % s.tc.cqSize q
  · rw [if_neg (not_not.mpr full), if_pos (show s.tc.cqFull q from full)]
    rfl
  · rw [if_pos full, if_neg (show ¬s.tc.cqFull q from full)]
    simp only [Prog.run_bind, Prog.run_look, Prog.run_when, Prog.run_change, Option.bind_some]
    by_cases first : s.tc.cqTail q = 0
    · simp [first, Fw.setTc, NvmeTcPriv.allot]
    · simp [first, Fw.setTc, NvmeTcPriv.allot]

/-- A return needs no more than a completion queue with a size. -/
theorem run_nvmeCmdReturn_total {c : Slot} {s : Fw} (ring : 0 < s.tc.cqSize (s.cmds c).qid) :
    ∃ t, (nvmeCmdReturn P c).run s = some ((), t) := by
  have run := run_nvmeTcGetCqAddr ring
  generalize (if s.tc.cqFull _ then _ else _) = r at run
  obtain ⟨a, t⟩ := r
  simp only [nvmeCmdReturn, lose, loseUnless, nvmeDmaXferMemToHost, Prog.run_bind, ofCmd, setCmd, Prog.run_look,
    Option.bind_some, run]
  split
  · exact ⟨_, rfl⟩
  · simp only [Prog.run_bind, Prog.run_look, Prog.run_change, Option.bind_some]
    rcases run_nvmeDmaXfer P .tx 0x55 a (.cqBuf c) nvmeTcCqEntrySize (some (.cqCb, c)) c
      (t.setCmd c fun p => { p with cqBuf := { p.cqBuf with p := t.tc.cqPhase (s.cmds c).qid } }) with
      ⟨block, slab, run', -⟩ | ⟨run', -⟩
    · rw [run']
      exact ⟨_, rfl⟩
    · rw [run']
      exact ⟨_, rfl⟩

end
end AlkaliFw
