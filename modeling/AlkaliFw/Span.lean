import AlkaliFw.Walk

/-! Whatever the PRPs and the lists hold, the data path of a command stays within the bytes
that it was started for. -/

namespace AlkaliFw
open Resumption Prp

/-- From `s` to `t` the transfer that `p` describes has moved on, within its length. -/
def Spans (P : Platform) (c : Slot) (p : NvmeCmdPriv) (s t : Fw) : Prop :=
  ∃ (off size : Nat) (ks : List Chunk) (fs : List ListFetch), off ≤ p.xferLen ∧ Moved P c s t (p.at off size) (ks.map (chunkOf c p)) fs ∧
    ∀ k ∈ ks, k.off + k.len ≤ p.xferLen

theorem Spans.refl {P : Platform} {c : Slot} {p : NvmeCmdPriv} {s : Fw} {off size : Nat} (at' : s.cmds c = p.at off size)
    (hoff : off ≤ p.xferLen) : Spans P c p s s :=
  ⟨off, size, [], [], hoff, at' ▸ Moved.refl c s, List.forall_mem_nil _⟩

theorem Spans.trans {P : Platform} {c : Slot} {p : NvmeCmdPriv} {s t u : Fw} (h : Spans P c p s t) (g : Spans P c p t u) :
    Spans P c p s u := by
  obtain ⟨_, _, ks, fs, _, moved, inside⟩ := h
  obtain ⟨off, size, ks', fs', hoff, moved', inside'⟩ := g
  refine ⟨off, size, ks ++ ks', fs ++ fs', hoff, by simpa using moved.trans moved', fun k hk => ?_⟩
  exact (List.mem_append.mp hk).elim (inside k) (inside' k)

section

variable (P : Platform) (c : Slot) {p : NvmeCmdPriv} {s t : Fw} {off size : Nat}

theorem spans_transferChunk (host n : Nat) (at' : s.cmds c = p.at off size) (hoff : off ≤ p.xferLen)
    (hn : n ≤ p.xferLen - off) (hlen : p.xferLen < 2 ^ 32) :
    ∃ t, (transferChunk P c host (s.cmds c).xferBuf n).run s = some ((), t) ∧ t.cmds c = p.at (off + n) size ∧
      Spans P c p s t := by
  obtain ⟨t, run, moved, -⟩ := run_transferChunk P c host n at' hoff hn hlen
  refine ⟨t, run, moved.cmd, off + n, size, [⟨host, off, n⟩], [], by omega, moved, fun k hk => ?_⟩
  rw [List.mem_singleton.mp hk]
  simp only
  omega

theorem spans_prpFetch (b host mps : Nat) (at' : s.cmds c = p.at off size) (hoff : off ≤ p.xferLen) :
    ∃ t, (prpFetch P c b host mps).run s = some ((), t) ∧ Spans P c p s t := by
  obtain ⟨t, run, moved⟩ := run_prpFetch P c b host mps at'
  exact ⟨t, run, off, _, [], _, hoff, moved, List.forall_mem_nil _⟩

theorem spans_prpLoop (b mps prpSize fuel i : Nat) (at' : s.cmds c = p.at off size) (hoff : off ≤ p.xferLen)
    (hlen : p.xferLen < 2 ^ 32) (run : (prpLoop P c b mps prpSize fuel i).run s = some ((), t)) : Spans P c p s t := by
  induction fuel generalizing i off s with
  | zero => cases run
  | succ fuel ih =>
    have left : (s.cmds c).xferLen = p.xferLen - off := by rw [at', NvmeCmdPriv.at]
    simp only [prpLoop, Prog.run_bind, ofCmd, Prog.run_look, Option.bind_some, left] at run
    by_cases more : p.xferLen - off > 0
    · rw [if_pos more] at run
      by_cases fits : (i + 1) * 8 ≤ P.nvmePrpListSize
      · by_cases link : i + 1 = prpSize / 8 ∧ p.xferLen - off > mps
        · simp only [if_pos link, prpEntry, if_pos fits, Prog.run_bind, Prog.run_look, Option.bind_some] at run
          obtain ⟨u, run', spans⟩ := spans_prpFetch P c b (le (s.prpMem b) (8 * i) 8) mps at' hoff
          rw [run'] at run
          cases run
          exact spans
        · simp only [if_neg link, prpEntry, if_pos fits, Prog.run_bind, Prog.run_look, Option.bind_some] at run
          obtain ⟨u, run', at'', spans⟩ := spans_transferChunk P c (le (s.prpMem b) (8 * i) 8)
            (if mps > p.xferLen - off then p.xferLen - off else mps) at' hoff (by split <;> omega) hlen
          rw [run'] at run
          exact spans.trans (ih (i + 1) at'' (by split <;> omega) run)
      · simp only [prpEntry, if_neg fits] at run
        split at run <;> cases run
    · rw [if_neg more] at run
      cases run
      have freed : Moved P c s (Fw.note { s with prpSlab := s.prpSlab.free b } (.prpFree c b)) (s.cmds c) [] [] :=
        .quiet rfl rfl rfl (submits_prpFree c b) (by simp [Served]) rfl
      exact ⟨off, size, [], [], hoff, at' ▸ freed, List.forall_mem_nil _⟩

theorem spans_prpCb (b : Nat) (at' : s.cmds c = p.at off size) (hoff : off ≤ p.xferLen) (hlen : p.xferLen < 2 ^ 32)
    (run : (prpCb P c (.prp b)).run s = some ((), t)) : Spans P c p s t := by
  simp only [prpCb, Prog.run_bind, ofCmd, Prog.run_look, Option.bind_some] at run
  by_cases mps : s.tc.memoryPageSize = 0
  · rw [if_pos mps] at run
    cases run
  · rw [if_neg mps] at run
    exact spans_prpLoop P c b _ _ _ 0 at' hoff hlen run

/-- The first chunk goes to PRP1. What follows stays in the span too; without a list buffer
the command is returned instead. -/
theorem spans_transferDataWithPrps (mps : s.tc.memoryPageSize ≠ 0) (hbuf : (s.cmds c).xferBuf < 2 ^ 32)
    (hlen : (s.cmds c).xferLen < 2 ^ 32) :
    ∃ n u, n = min (s.tc.memoryPageSize - (s.cmds c).sqBuf.prp1 % s.tc.memoryPageSize) (s.cmds c).xferLen ∧
      Moved P c s u ((s.cmds c).at n (s.cmds c).prpSize) [chunkOf c (s.cmds c) ⟨(s.cmds c).sqBuf.prp1, 0, n⟩] [] ∧
      ((∃ t, (transferDataWithPrps P c).run s = some ((), t) ∧ Spans P c (s.cmds c) u t) ∨
        (transferDataWithPrps P c).run s =
          (nvmeCmdReturn P c).run (Fw.note { u with clock := u.clock + 1 } (.noPrpBuffer c))) := by
  have least : (if s.tc.memoryPageSize - (s.cmds c).sqBuf.prp1 % s.tc.memoryPageSize > (s.cmds c).xferLen then
      (s.cmds c).xferLen else s.tc.memoryPageSize - (s.cmds c).sqBuf.prp1 % s.tc.memoryPageSize) =
      min (s.tc.memoryPageSize - (s.cmds c).sqBuf.prp1 % s.tc.memoryPageSize) (s.cmds c).xferLen := by
    split <;> omega
  simp only [transferDataWithPrps, Prog.run_bind, ofCmd, Prog.run_look, Option.bind_some, if_neg mps, least]
  generalize hn : min (s.tc.memoryPageSize - (s.cmds c).sqBuf.prp1 % s.tc.memoryPageSize) (s.cmds c).xferLen = n
  obtain ⟨u, run, moved, -⟩ := run_transferChunk P c (s.cmds c).sqBuf.prp1 n (NvmeCmdPriv.at_zero hbuf).symm
    (Nat.zero_le _) (by omega) hlen
  rw [Nat.zero_add] at moved
  have at' := moved.cmd
  have left : (u.cmds c).xferLen = (s.cmds c).xferLen - n := by rw [at', NvmeCmdPriv.at]
  have hoff : n ≤ (s.cmds c).xferLen := by omega
  refine ⟨n, u, rfl, moved, ?_⟩
  rw [run]
  simp only [Option.bind_some, left]
  split
  · exact .inl ⟨u, rfl, Spans.refl at' hoff⟩
  split
  · rcases run_prpAlloc P c u with ⟨-, alloc⟩ | ⟨b, u', alloc, grabbed⟩
    · right
      rw [Prog.run_bind, alloc]
      rfl
    · left
      have grabs : Spans P c (s.cmds c) u u' := ⟨n, _, [], [], hoff, at' ▸ grabbed, List.forall_mem_nil _⟩
      have at'' := grabbed.cmd.trans at'
      obtain ⟨v, run', spans⟩ := spans_prpFetch P c b (u'.cmds c).sqBuf.prp2 s.tc.memoryPageSize at'' hoff
      simp only [Prog.run_bind, alloc, Option.bind_some, Prog.run_look, run']
      exact ⟨v, rfl, grabs.trans spans⟩
  · left
    obtain ⟨v, run', -, spans⟩ := spans_transferChunk P c (u.cmds c).sqBuf.prp2 ((s.cmds c).xferLen - n) at' hoff
      le_rfl hlen
    simp only [Prog.run_bind, Prog.run_look, Option.bind_some, left, run']
    exact ⟨v, rfl, spans⟩

theorem run_transferDataWithPrps_zero (mps : s.tc.memoryPageSize = 0) : (transferDataWithPrps P c).run s = none := by
  simp only [transferDataWithPrps, Prog.run_bind, ofCmd, Prog.run_look, Option.bind_some, if_pos mps, Prog.run_stuck]

end
end AlkaliFw
