import AlkaliFw.Tc

/-! Which handler a doorbell reaches. `DOORBELL_TAIL(n)` multiplies by two without parentheses,
so with `n + 1` for `n` the register numbers advance by one queue and one register at once. -/

namespace AlkaliFw
open Resumption

/-- The handler that the `k`-th doorbell register is meant for, among `queues` queues. -/
def doorbellHandler (queues k : Nat) : RegHandler :=
  if k / 2 < queues then (if k % 2 = 0 then .tail (k / 2) else .head (k / 2)) else .nothing

/-- The register that a handler reads its value from. -/
def RegHandler.source : RegHandler → Option Nat
  | .cc => some nvmeTcRegCc
  | .aqa => some nvmeTcRegAqa
  | .asq => some nvmeTcRegAsq1
  | .acq => some nvmeTcRegAcq1
  | .tail q => some (doorbellTail q)
  | .head q => some (doorbellHead q)
  | .nothing => none

def RegHandler.queue : RegHandler → Option Nat
  | .tail q | .head q => some q
  | _ => none

/-- The `k`-th doorbell is handled as itself, and no other one is handled as it. -/
structure DispatchExact (queues k : Nat) : Prop where
  handler : regHandler queues (doorbellReg k) = doorbellHandler queues k
  source : ∀ reg, (regHandler queues (doorbellReg k)).source = some reg → reg = doorbellReg k
  bound : ∀ q, (regHandler queues (doorbellReg k)).queue = some q → q < queues
  alone : ∀ j, j < 2 * doorbells → j ≠ k → regHandler queues (doorbellReg j) = regHandler queues (doorbellReg k) →
    regHandler queues (doorbellReg k) = .nothing

theorem doorbellReg_inj {j k : Nat} : doorbellReg j = doorbellReg k ↔ j = k := by
  unfold doorbellReg
  omega

/-- From the third doorbell on, the loop finds a register by its head macro, `k - 2` being the queue. -/
theorem ioDoorbell_eq (queues k n : Nat) (le : n ≤ queues) (later : queues - n + 3 ≤ k) :
    ioDoorbell queues (doorbellReg k) n = if k < queues + 3 then .head (k - 2) else .nothing := by
  induction n with
  | zero =>
    rw [ioDoorbell, if_neg (by omega)]
  | succ n ih =>
    simp only [ioDoorbell, nvmeTcRegIoTail, nvmeTcRegIoHead, doorbellReg_inj]
    rw [if_neg (by omega)]
    by_cases here : k = queues - (n + 1) + 1 * 2 + 1
    · rw [if_pos here, if_pos (by omega)]
      congr 1
      omega
    · rw [if_neg here]
      exact ih (by omega) (by omega)

theorem doorbellReg_above (k : Nat) : 0x1000 ≤ doorbellReg k := Nat.le_add_right ..

/-- What the switch selects for the `k`-th doorbell. -/
theorem regHandler_doorbell (queues k : Nat) (some' : 0 < queues) :
    regHandler queues (doorbellReg k) =
      if k = 0 then .tail 0 else if k = 1 then .head 0 else if k = 2 then .tail 1
      else if k < queues + 3 then .head (k - 2) else .nothing := by
  have above := doorbellReg_above k
  have other {reg : Nat} (below : reg < 0x1000) : doorbellReg k ≠ reg := by omega
  have tail : doorbellTail admQueueId = doorbellReg 0 := rfl
  have head : doorbellHead admQueueId = doorbellReg 1 := rfl
  unfold regHandler
  rw [if_neg (other (by decide)), if_neg (other (by decide)), if_neg (other (by decide)), if_neg (other (by decide)),
    if_neg (other (by decide)), if_neg (other (by decide)), tail, head]
  simp only [doorbellReg_inj]
  by_cases first : k = 0
  · rw [if_pos first, if_pos first]
    rfl
  rw [if_neg first, if_neg first]
  by_cases second : k = 1
  · rw [if_pos second, if_pos second]
    rfl
  rw [if_neg second, if_neg second]
  by_cases third : k = 2
  · obtain ⟨n, rfl⟩ := Nat.exists_eq_succ_of_ne_zero (Nat.pos_iff_ne_zero.mp some')
    simp only [Nat.succ_eq_add_one, ioDoorbell, nvmeTcRegIoTail, doorbellReg_inj]
    rw [if_pos third, if_pos (by omega), Nat.sub_self]
  rw [if_neg third]
  exact ioDoorbell_eq queues k queues (Nat.le_refl _) (by omega)

/-- A doorbell is dispatched as it should be, for `io + 1` queues: both of the admin queue, both of
the first IO queue if there is one, and those beyond the last queue and beyond the loop. -/
def DispatchCovered (io k : Nat) : Prop := k < 2 ∨ k < 4 ∧ 0 < io ∨ io + 3 < k ∧ 2 * (io + 1) ≤ k

theorem dispatchExact_iff_covered (io k : Nat) : DispatchExact (io + 1) k ↔ DispatchCovered io k := by
  have here := regHandler_doorbell (io + 1) k (Nat.succ_pos io)
  unfold DispatchCovered
  constructor
  · rintro ⟨handler, -, -, -⟩
    rw [here] at handler
    unfold doorbellHandler at handler
    split_ifs at handler <;> first | omega | (injection handler; omega)
  · intro covered
    have handler : regHandler (io + 1) (doorbellReg k) = doorbellHandler (io + 1) k := by
      rw [here]
      unfold doorbellHandler
      split_ifs <;> first | omega | rfl | (congr 1; omega)
    refine ⟨handler, fun reg source => ?_, fun q queue => ?_, fun j _ other same => ?_⟩
    · rw [handler] at source
      unfold doorbellHandler at source
      split_ifs at source with inside even
      · cases source
        rw [doorbellTail, doorbellReg_inj]
        omega
      · cases source
        rw [doorbellHead, doorbellReg_inj]
        omega
      · cases source
    · rw [handler] at queue
      unfold doorbellHandler at queue
      split_ifs at queue <;> cases queue
      · assumption
      · assumption
    · have there := regHandler_doorbell (io + 1) j (Nat.succ_pos io)
      rw [there, here] at same
      rw [here]
      split_ifs at same ⊢ <;> first | rfl | omega | cases same | (injection same; omega)

/-- The interrupt handler takes a pending doorbell write and runs the handler that the switch selects. -/
theorem run_irqLoop_doorbell (P : Platform) (n k : Nat) (below : k < 2 * doorbells) {s : Fw} {rest : List Nat}
    (writes : s.writes = doorbellReg k / 4 :: rest) :
    (nvmeTcIrqLoop P (n + 1)).run s =
      ((handleReg P (regHandler queues (doorbellReg k))).run { s with writes := rest }).bind
        fun r => (nvmeTcIrqLoop P n).run r.2 := by
  have reg : doorbellReg k / 4 * 4 % 2 ^ 16 = doorbellReg k := by
    have : doorbellReg k = 0x1000 + k * 4 := rfl
    have : doorbells = 5 := rfl
    omega
  simp only [nvmeTcIrqLoop, Prog.run_bind, Prog.run_swap, Option.bind_some, writes, List.headD_cons, List.tail_cons, reg]

/-- For every number of queues and every doorbell, and in the firmware as it is built. -/
theorem doorbells_exact_iff (k : Nat) (below : k < 2 * doorbells) :
    (∀ io, DispatchExact (io + 1) k ↔ DispatchCovered io k) ∧
      ∀ P n s rest, s.writes = doorbellReg k / 4 :: rest →
        (nvmeTcIrqLoop P (n + 1)).run s =
          ((handleReg P (regHandler queues (doorbellReg k))).run { s with writes := rest }).bind
            fun r => (nvmeTcIrqLoop P n).run r.2 :=
  ⟨fun io => dispatchExact_iff_covered io k, fun P n _ _ writes => run_irqLoop_doorbell P n k below writes⟩

/-- With one IO queue its tail doorbell, the third register, is dispatched as it should be. -/
theorem ioTail_exact : DispatchExact queues 2 :=
  ((doorbells_exact_iff 2 (by decide)).1 1).mpr (.inr (.inl ⟨by decide, by decide⟩))

/-- The fifth doorbell belongs to no queue, and the head handler runs for a queue that is not there. -/
theorem fifthDoorbell_head : ¬∀ io k, k < 2 * doorbells → DispatchExact (io + 1) k := by
  intro all
  have head := (all 1 4 (by decide)).bound 2 (by decide)
  exact absurd head (by decide)

end AlkaliFw
