import AlkaliFw.Fetch
import AlkaliFw.Reset
import AlkaliFw.QueueCommands

/-! The loop of the tail handler, round by round. The head goes around the ring; the tail is
what the host wrote, cut to 16 bits and otherwise unchecked. -/

namespace AlkaliFw
open Resumption

/-- `n` rounds of the loop lead from `s` to `t`, where head and tail meet. -/
inductive Rounds (P : Platform) (q : QId) : Nat → Fw → Fw → Prop where
  | done (s : Fw) (met : s.tc.sqTail q = s.tc.sqHead q) : Rounds P q 0 s s
  | more {n : Nat} {s u t : Fw} (away : s.tc.sqTail q ≠ s.tc.sqHead q) (fetch : (nvmeTcFetch P q).run s = some ((), u))
      (rest : Rounds P q n u t) : Rounds P q (n + 1) s t

/-- The tail is set to the low half of the doorbell. -/
def Fw.announce (s : Fw) (q : QId) : Fw :=
  s.setTc fun tc => { tc with sqTail := Function.update tc.sqTail q (s.regs (doorbellTail q) % 2 ^ 16) }

/-- The tail handler meets a ring index in less than a pass, and leaves the queue alone for any
other value of the doorbell. -/
def TailExact (P : Platform) (q : QId) (s : Fw) : Prop :=
  ∃ t, (nvmeTcTailHandler P q).run s = some ((), t) ∧
    if s.regs (doorbellTail q) < s.tc.sqSize q then
      (∃ n, n < s.tc.sqSize q ∧ Rounds P q n (s.announce q) t) ∧
        t.tc.sqHead q = t.tc.sqTail q ∧ t.tc.sqTail q < s.tc.sqSize q
    else t.tc.sqRow q = s.tc.sqRow q

section Rounds

variable {P : Platform} {q : QId} {s t : Fw} {n : Nat}

theorem rounds_iff {fuel : Nat} : (nvmeTcFetchLoop P q fuel).run s = some ((), t) ↔ ∃ n, n < fuel ∧ Rounds P q n s t := by
  induction fuel generalizing s with
  | zero =>
    refine iff_of_false (fun run => nomatch run) ?_
    rintro ⟨n, lt, -⟩
    exact absurd lt (Nat.not_lt_zero n)
  | succ fuel ih =>
    simp only [nvmeTcFetchLoop, Prog.run_bind, Prog.run_look, Option.bind_some, Prog.run_ite, decide_eq_true_eq]
    by_cases met : s.tc.sqTail q = s.tc.sqHead q
    · rw [if_neg (not_not.mpr met)]
      constructor
      · intro run
        cases run
        exact ⟨0, Nat.succ_pos _, .done _ met⟩
      · rintro ⟨n, -, rounds⟩
        cases rounds with
        | done => rfl
        | more away => exact absurd met away
    · rw [if_pos met]
      constructor
      · intro run
        obtain ⟨⟨⟨⟩, u⟩, fetch, rest⟩ := Option.bind_eq_some_iff.mp run
        obtain ⟨n, lt, rounds⟩ := ih.mp rest
        exact ⟨n + 1, Nat.succ_lt_succ lt, .more met fetch rounds⟩
      · rintro ⟨n, lt, rounds⟩
        cases rounds with
        | done _ same => exact absurd same met
        | more _ fetch rest => exact Option.bind_eq_some_iff.mpr ⟨_, fetch, ih.mpr ⟨_, Nat.lt_of_succ_lt_succ lt, rest⟩⟩

theorem run_tailHandler : (nvmeTcTailHandler P q).run s = (nvmeTcFetchLoop P q (2 ^ 16 + 1)).run (s.announce q) := by
  simp only [nvmeTcTailHandler, q.isLt, dite_true, Prog.run_bind, Prog.run_change, Option.bind_some]
  rfl

theorem Rounds.count {m : Nat} {u : Fw} (h : Rounds P q n s t) (h' : Rounds P q m s u) : n = m := by
  induction h generalizing m with
  | done s met =>
    cases h' with
    | done => rfl
    | more away => exact absurd met away
  | more away fetch _ ih =>
    cases h' with
    | done _ met => exact absurd met away
    | more _ fetch' rest =>
      cases fetch.symm.trans fetch'
      rw [ih rest]

/-- A fetch moves the head and nothing else of the queues. -/
theorem tc_of_fetch (fetch : (nvmeTcFetch P q).run s = some ((), t)) : 0 < s.tc.sqSize q ∧ t.tc = (s.advanceSq q).2.tc := by
  rcases Nat.eq_zero_or_pos (s.tc.sqSize q) with zero | pos
  · rw [run_nvmeTcFetch_stuck zero] at fetch
    cases fetch
  · obtain ⟨t', run, outcome⟩ := run_nvmeTcFetch (P := P) pos
    cases fetch.symm.trans run
    exact ⟨pos, outcome.tc⟩

theorem Rounds.met (h : Rounds P q n s t) : t.tc.sqHead q = t.tc.sqTail q ∧ t.tc.sqTail q = s.tc.sqTail q := by
  induction h with
  | done s met => exact ⟨met.symm, rfl⟩
  | more _ fetch _ ih =>
    refine ⟨ih.1, ih.2.trans ?_⟩
    rw [(tc_of_fetch fetch).2]
    rfl

/-- From a head inside the ring the tail is reached after as many rounds as it is ahead. -/
theorem rounds_dist (word : s.tc.sqSize q < 2 ^ 16) (inside : s.tc.sqHead q < s.tc.sqSize q)
    (tail : s.tc.sqTail q < s.tc.sqSize q) (count : Ring.dist (s.tc.sqSize q) (s.tc.sqHead q) (s.tc.sqTail q) = n) :
    ∃ t, Rounds P q n s t := by
  induction n generalizing s with
  | zero =>
    by_cases met : s.tc.sqTail q = s.tc.sqHead q
    · exact ⟨s, .done s met⟩
    · have := Ring.dist_next inside tail met
      omega
  | succ n ih =>
    by_cases met : s.tc.sqTail q = s.tc.sqHead q
    · rw [met, Ring.dist_self] at count
      cases count
    · have size : 0 < s.tc.sqSize q := by omega
      obtain ⟨u, fetch, -⟩ := run_nvmeTcFetch (P := P) size
      obtain ⟨-, tc⟩ := tc_of_fetch fetch
      have next := Nat.mod_lt (s.tc.sqHead q + 1) size
      have head : u.tc.sqHead q = (s.tc.sqHead q + 1) % s.tc.sqSize q := by
        rw [tc]
        exact (Function.update_self ..).trans (Nat.mod_eq_of_lt (by omega))
      have size' : u.tc.sqSize q = s.tc.sqSize q := by rw [tc]; rfl
      have tail' : u.tc.sqTail q = s.tc.sqTail q := by rw [tc]; rfl
      have closer := Ring.dist_next inside tail met
      obtain ⟨t, rest⟩ := ih (s := u) (by omega) (by omega) (by omega) (by rw [size', head, tail']; omega)
      exact ⟨t, .more met fetch rest⟩

/-- A head outside the ring is inside after one more round. -/
theorem rounds_outside (word : s.tc.sqSize q < 2 ^ 16) (outside : s.tc.sqSize q ≤ s.tc.sqHead q)
    (tail : s.tc.sqTail q < s.tc.sqSize q) :
    ∃ t, Rounds P q (Ring.dist (s.tc.sqSize q) ((s.tc.sqHead q + 1) % s.tc.sqSize q) (s.tc.sqTail q) + 1) s t := by
  have size : 0 < s.tc.sqSize q := by omega
  obtain ⟨u, fetch, -⟩ := run_nvmeTcFetch (P := P) size
  obtain ⟨-, tc⟩ := tc_of_fetch fetch
  have next := Nat.mod_lt (s.tc.sqHead q + 1) size
  have head : u.tc.sqHead q = (s.tc.sqHead q + 1) % s.tc.sqSize q := by
    rw [tc]
    exact (Function.update_self ..).trans (Nat.mod_eq_of_lt (by omega))
  have size' : u.tc.sqSize q = s.tc.sqSize q := by rw [tc]; rfl
  have tail' : u.tc.sqTail q = s.tc.sqTail q := by rw [tc]; rfl
  obtain ⟨t, rest⟩ := rounds_dist (P := P) (q := q) (s := u) (by omega) (by omega) (by omega) rfl
  rw [size', head, tail'] at rest
  exact ⟨t, .more (by omega) fetch rest⟩

end Rounds

/-- One round and then less than the rest of a pass, unless the position was one before the tail. -/
theorem dist_after {size head tail : Nat} (lt : tail < size) :
    Ring.dist size ((head + 1) % size) tail + 1 < size ↔ head % size ≠ tail := by
  have here := Nat.mod_lt head (show 0 < size by omega)
  rw [← Ring.next]
  generalize head % size = h at here ⊢
  by_cases last : h + 1 = size
  · rw [Ring.next_last last, Ring.dist_of_le (Nat.zero_le _) lt]
    omega
  · rw [Ring.next_of_lt (by omega)]
    rcases Nat.lt_or_ge tail (h + 1) with before | after
    · rw [Ring.dist_of_lt before (by omega)]
      omega
    · rw [Ring.dist_of_le after lt]
      omega

/-- A ring index, with the head inside the ring or not at the same position; or the value that head
and tail have already. -/
theorem tailExact_iff (P : Platform) (q : QId) (s : Fw) (size : 0 < s.tc.sqSize q) (word : s.tc.sqSize q < 2 ^ 16) :
    TailExact P q s ↔
      s.regs (doorbellTail q) < s.tc.sqSize q ∧
          (s.tc.sqHead q < s.tc.sqSize q ∨ s.tc.sqHead q % s.tc.sqSize q ≠ s.regs (doorbellTail q)) ∨
        s.tc.sqSize q ≤ s.regs (doorbellTail q) ∧ s.tc.sqTail q = s.regs (doorbellTail q) % 2 ^ 16 ∧
          s.tc.sqHead q = s.regs (doorbellTail q) % 2 ^ 16 := by
  have tail : (s.announce q).tc.sqTail q = s.regs (doorbellTail q) % 2 ^ 16 := Function.update_self ..
  have size' : (s.announce q).tc.sqSize q = s.tc.sqSize q := rfl
  have head : (s.announce q).tc.sqHead q = s.tc.sqHead q := rfl
  unfold TailExact
  simp only [run_tailHandler, rounds_iff]
  by_cases index : s.regs (doorbellTail q) < s.tc.sqSize q
  · have low : s.regs (doorbellTail q) % 2 ^ 16 = s.regs (doorbellTail q) := Nat.mod_eq_of_lt (by omega)
    rw [low] at tail
    have inRing : (s.announce q).tc.sqTail q < (s.announce q).tc.sqSize q := by rw [tail]; exact index
    have exists_of {n : Nat} (lt : n < s.tc.sqSize q) (h : ∃ t, Rounds P q n (s.announce q) t) :
        ∃ t, (∃ n, n < 2 ^ 16 + 1 ∧ Rounds P q n (s.announce q) t) ∧
          (∃ n, n < s.tc.sqSize q ∧ Rounds P q n (s.announce q) t) ∧
            t.tc.sqHead q = t.tc.sqTail q ∧ t.tc.sqTail q < s.tc.sqSize q := by
      obtain ⟨t, rounds⟩ := h
      refine ⟨t, ⟨n, by omega, rounds⟩, ⟨n, lt, rounds⟩, rounds.met.1, ?_⟩
      rw [rounds.met.2, tail]
      exact index
    simp only [if_pos index]
    rw [or_iff_left (by omega), and_iff_right index]
    rcases Nat.lt_or_ge (s.tc.sqHead q) (s.tc.sqSize q) with inside | outside
    · refine iff_of_true ?_ (.inl inside)
      exact exists_of (Ring.dist_lt inRing) (rounds_dist word inside inRing rfl)
    · have rounds := rounds_outside (P := P) (s := s.announce q) word outside inRing
      rw [tail, size', head] at rounds
      rw [or_iff_right (by omega), ← dist_after index]
      constructor
      · rintro ⟨t, -, ⟨n, lt, few⟩, -⟩
        obtain ⟨u, all⟩ := rounds
        rwa [all.count few]
      · exact fun few => exists_of few rounds
  · simp only [if_neg index]
    rw [or_iff_right (by omega), and_iff_right (by omega)]
    constructor
    · rintro ⟨t, ⟨n, -, rounds⟩, row⟩
      obtain ⟨met, kept⟩ := rounds.met
      have sameTail : t.tc.sqTail q = s.tc.sqTail q := congrArg (·.2.2.2.1) row
      have sameHead : t.tc.sqHead q = s.tc.sqHead q := congrArg (·.2.2.2.2.1) row
      omega
    · rintro ⟨sameTail, sameHead⟩
      refine ⟨s.announce q, ⟨0, by decide, .done _ (by rw [tail, head, sameHead])⟩, ?_⟩
      simp only [NvmeTcPriv.sqRow, tail, ← sameTail]
      rfl

/-- Ring sizes are 16-bit words. -/
theorem sizes_closed (P : Platform) : Closed P fun s => ∀ q, s.tc.sqSize q < 2 ^ 16 where
  fine c l s t act h := by
    cases act with
    | own act =>
      cases act with
      | queue update p =>
        cases update with
        | createSq => exact update_lt h (Nat.mod_lt _ (Nat.two_pow_pos 16)) _
        | _ => exact h
      | _ => exact h
    | _ => exact h
  handled c s h := h
  tc l s t act h := by
    cases act with
    | cc =>
      obtain ⟨size, on, tc, -⟩ := ccHandler_tc s
      rw [tc]
      exact h
    | aqa =>
      refine update_lt h ?_ _
      have : nvmeTcGetField (s.regs nvmeTcRegAqa) 0 12 < 2 ^ 12 := Nat.mod_lt _ (Nat.two_pow_pos 12)
      omega
    | _ => exact h
  fetch l s t act h := by cases act <;> exact h
  status ch s h := h
  get ch s h := by
    unfold Fw.get
    split <;> exact h
  descFree b s h := h
  restart ch s h := h
  outside s t act h := by
    cases act with
    | done finish =>
      obtain ⟨d, -, ⟨host, ram, prpMem, cmds, rfl⟩, -⟩ := Fw.finished_of_finish finish
      exact h
    | _ => exact h

theorem Reachable.sqSize_lt {P : Platform} {S : Sys} (h : Reachable P S) (q : QId) : S.fw.tc.sqSize q < 2 ^ 16 := by
  obtain ⟨host, ram, run⟩ := h
  exact run.closed (sizes_closed P) (fun _ => Nat.two_pow_pos 16) q

/-- The second entry of a queue of two is announced. -/
theorem oneEntry_exact :
    TailExact (board (2 ^ 12)) ioQueueId
      { createSq { qid := admQueueId, sqBuf := Function.update (fun _ => 0) 10 0x10001 } ioQueueId {} with regs := fun _ => 1 } :=
  (tailExact_iff (board (2 ^ 12)) ioQueueId _ (by decide) (by decide)).mpr (.inl ⟨by decide, .inl (by decide)⟩)

/-- An admin queue of 16 entries, and 16 in its doorbell. -/
theorem beyondRing_loops : ¬∀ S, Reachable (board (2 ^ 12)) S → ∀ q, 0 < S.fw.tc.sqSize q → TailExact (board (2 ^ 12)) q S.fw := by
  intro all
  have runs : ((Sys.boot (fun _ => 0) fun _ => 0).exec (board (2 ^ 12)) (setUp ++ [.hostWrite (doorbellTail 0 / 4) 16])).map
      (fun S => decide (S.fw.tc.sqSize admQueueId = 16 ∧ S.fw.tc.sqHead admQueueId = 0 ∧
        S.fw.regs (doorbellTail admQueueId) = 16)) = some true := by decide +kernel
  obtain ⟨S, exec, facts⟩ := Option.map_eq_some_iff.mp runs
  obtain ⟨size, head, doorbell⟩ := of_decide_eq_true facts
  have reach : Reachable (board (2 ^ 12)) S := ⟨_, _, (Run.refl _).exec exec⟩
  have holds := (tailExact_iff _ admQueueId S.fw (by omega) (reach.sqSize_lt _)).mp (all S reach admQueueId (by omega))
  rw [doorbell, size, head] at holds
  omega

end AlkaliFw
