import AlkaliFw.Success

/-! Get Log Page for the SMART log. The count of double words is incremented and multiplied in
32 bits before it is compared with the size of the log. -/

namespace AlkaliFw
open Resumption

/-- The data of the log: the pieces follow one another in the buffer of the log, they make up
what was asked for, at most the log, and all of them have been moved. -/
structure LogReturned (P : Platform) (c : Slot) (s : Fw) : Prop where
  total : ((parts .tx (past c s.trace)).map (·.len)).sum = min smartRespSize (4 * ((s.cmds c).sqBuf.numd + 1))
  covers : ∃ n, Covers .tx (past c s.trace) (P.respBuf .smart) n n
  finished : ∀ ch, (s.trace.filterMap (Obs.queued? ch)).filter (·.carriesData c) =
    (s.trace.filterMap (Obs.finished? ch)).filter (·.carriesData c)

/-- The completion entry of the command is on its way to the host, or its callback has not run. -/
def Completes (c : Slot) (s : Fw) : Prop := ∃ d ∈ (s.ch .tx).fifo, d.owner = c ∧ d.callback = some (.cqCb, c)

/-- Some descriptor carries the command on. -/
def CarriedOn (c : Slot) (s : Fw) : Prop := ∃ ch, ∃ d ∈ (s.ch ch).fifo, d.owner = c ∧ ∃ f, d.callback = some (f, c)

theorem Laid.sum {off stop : Nat} {xs : List Piece} (h : Laid off xs stop) : off + (xs.map (·.len)).sum = stop := by
  induction xs generalizing off with
  | nil => exact h
  | cons x xs ih =>
    rw [List.map_cons, List.sum_cons, ← Nat.add_assoc]
    exact ih h.2

theorem numd_lt (b : SqBuf) : b.numd < 2 ^ 32 := by
  have low : b.cdw10 < 2 ^ 32 := (b 10).isLt
  unfold SqBuf.numd
  omega

theorem logLen_exact_iff (b : SqBuf) :
    b.logLen = min smartRespSize (4 * (b.numd + 1)) ↔ b.numd + 1 < 2 ^ 30 ∨ 128 ≤ (b.numd + 1) % 2 ^ 30 := by
  have size : smartRespSize = 512 := rfl
  have bound := numd_lt b
  have wrap : (b.numd + 1) % 2 ^ 32 * 4 % 2 ^ 32 = 4 * ((b.numd + 1) % 2 ^ 30) := by omega
  rw [SqBuf.logLen, wrap, size]
  split <;> omega

section

variable {P : Platform} {c : Slot} {S : Sys}

/-- A command in its slot, outside of the call of the polling thread, waits for a callback, or its loss was recorded. -/
theorem Standing.carriedOn (h : Standing P c (S.fw.view c)) (held : c ∈ S.fw.cmdSlab.used) (other : (S.fw.cmds c).demand P ≠ .vendor) :
    CarriedOn c S.fw ∨ ∃ why, .lost c why ∈ S.fw.trace := by
  have waiting {ch : Chan} {d : Desc} {f : Cb} (waits : Waits (S.fw.view c) ch d) (cb : d.callback = some (f, c)) : CarriedOn c S.fw := by
    obtain ⟨ds, queue, -⟩ := waits.last
    have mem : d ∈ (S.fw.view c).queue ch := by
      rw [queue]
      exact List.mem_append_right _ (List.mem_singleton_self d)
    obtain ⟨inside, owner⟩ := List.mem_filter.mp mem
    exact ⟨ch, d, inside, of_decide_eq_true owner, f, cb⟩
  cases h with
  | free no =>
    have yes : (S.fw.view c).held = true := decide_eq_true held
    rw [no] at yes
    cases yes
  | fetched d _ _ waits _ cb => exact .inl (waiting waits cb)
  | listing d _ _ waits cb => exact .inl (waiting waits cb)
  | ending d f _ _ waits cb => exact .inl (waiting waits cb)
  | away m _ _ _ _ _ _ vendor => exact absurd vendor other
  | posted d _ _ waits entered => exact .inl (waiting waits entered.cb)
  | lost why _ _ _ lost => exact .inr ⟨why, mem_past lost⟩

end

/-- Of a log that the host asks for it gets what it asked for if the length in bytes is below
2^32, or is not less than the log after it has wrapped around. -/
theorem log_returned_iff (P : Platform) (host ram : Nat → UInt8) (S : Sys) (run : Run P (Accepting P) (Sys.boot host ram) S)
    (c : Slot) (logs : (S.fw.cmds c).Logs) (psdt : (S.fw.cmds c).sqBuf.psdt = 0) :
    (Completes c S.fw → (LogReturned P c S.fw ↔
      (S.fw.cmds c).sqBuf.numd + 1 < 2 ^ 30 ∨ 128 ≤ ((S.fw.cmds c).sqBuf.numd + 1) % 2 ^ 30)) ∧
      (c ∈ S.fw.cmdSlab.used → (∀ call ∈ S.call, call.cmd ≠ c) → CarriedOn c S.fw ∨ ∃ why, .lost c why ∈ S.fw.trace) := by
  have ledger := run.ledger fun _ _ met => met.1
  have served : Served c (past c S.fw.trace) := served_of_accepted (run.events fun _ _ met => met.2)
  constructor
  · rintro ⟨d, mem, owner, cb⟩
    obtain ⟨standing, queue⟩ := ledger.waiting mem owner cb
    have entered := standing.entered queue cb
    obtain ⟨⟨tx, rx⟩, moved⟩ := entered.settled.moved served fun _ => psdt
    obtain ⟨some', dir, base, size⟩ := entered.settled.logged served logs psdt
    have covers := (moved served).2 some'
    rw [dir, base, size] at covers
    have sum := covers.laid.sum
    rw [Nat.zero_add] at sum
    rw [← logLen_exact_iff]
    constructor
    · intro returned
      exact sum.symm.trans returned.total
    · intro exact'
      exact ⟨sum.trans exact', ⟨_, covers⟩, entered.finished run.engine.tracked tx rx⟩
  · intro held free
    rcases ledger.standing c with standing | ⟨call, here, cmd, -⟩
    · exact standing.carriedOn held fun vendor => not_logs_of_vendor vendor logs
    · exact absurd cmd (free call here)

/-- Host memory with a Get Log Page command for `2 ^ 30` double words, or for one. -/
def logCommand (many : Bool) : Nat → UInt8 := fun a =>
  if a = 0x10000 ∨ a = 0x10028 then 2
  else if many ∧ (a = 0x1002A ∨ a = 0x1002B ∨ a = 0x1002C) then 0xFF else if many ∧ a = 0x1002D then 0x3F else 0

def logEvents : List Event :=
  setUp ++ [.hostWrite (doorbellTail 0 / 4) 1, .tcIrq, .dmaDone .rx, .dmaIrq, .dmaDone .tx, .dmaIrq]

/-- Of `2 ^ 30` double words nothing is left. -/
theorem log_wraps : ¬∀ (P : Platform) (host ram : Nat → UInt8) (S : Sys), Run P (Accepting P) (Sys.boot host ram) S →
    ∀ c, (S.fw.cmds c).Logs → (S.fw.cmds c).sqBuf.psdt = 0 → Completes c S.fw → LogReturned P c S.fw := by
  intro claim
  have runs : ((Sys.boot (logCommand true) fun _ => 0).execOk (board (2 ^ 12)) (fun S e => decide (Accepting (board (2 ^ 12)) S e))
      logEvents).map (fun S => decide ((S.fw.cmds 0).Logs ∧ (S.fw.cmds 0).sqBuf.psdt = 0 ∧
        (∃ d ∈ (S.fw.ch .tx).fifo, d.owner = 0 ∧ d.callback = some (.cqCb, 0)) ∧
        ((parts .tx (past 0 S.fw.trace)).map (·.len)).sum = 0)) = some true := by decide +kernel
  obtain ⟨S, exec, all⟩ := Option.map_eq_some_iff.mp runs
  obtain ⟨logs, psdt, entry, none⟩ := of_decide_eq_true all
  have run : Run (board (2 ^ 12)) (Accepting (board (2 ^ 12))) _ S := (Run.refl _).execOk (fun S e h => of_decide_eq_true h) exec
  have total := (claim _ _ _ S run 0 logs psdt entry).total
  have size : smartRespSize = 512 := rfl
  omega

/-- One double word. -/
theorem log_of_one : ∃ S : Sys, Completes 0 S.fw ∧ LogReturned (board (2 ^ 12)) 0 S.fw ∧
    ((parts .tx (past 0 S.fw.trace)).map (·.len)).sum = 4 := by
  have runs : ((Sys.boot (logCommand false) fun _ => 0).execOk (board (2 ^ 12)) (fun S e => decide (Accepting (board (2 ^ 12)) S e))
      logEvents).map (fun S => decide ((S.fw.cmds 0).Logs ∧ (S.fw.cmds 0).sqBuf.psdt = 0 ∧
        (∃ d ∈ (S.fw.ch .tx).fifo, d.owner = 0 ∧ d.callback = some (.cqCb, 0)) ∧ (S.fw.cmds 0).sqBuf.numd = 0 ∧
        ((parts .tx (past 0 S.fw.trace)).map (·.len)).sum = 4)) = some true := by decide +kernel
  obtain ⟨S, exec, all⟩ := Option.map_eq_some_iff.mp runs
  obtain ⟨logs, psdt, entry, zero, four⟩ := of_decide_eq_true all
  have run : Run (board (2 ^ 12)) (Accepting (board (2 ^ 12))) _ S := (Run.refl _).execOk (fun S e h => of_decide_eq_true h) exec
  have returned := ((log_returned_iff _ _ _ S run 0 logs psdt).1 entry).mpr (.inl (by rw [zero]; decide))
  exact ⟨S, entry, returned, four⟩

end AlkaliFw
