import Mathlib.Data.List.Induction
import AlkaliFw.System

/-! The status register against the configuration register. The host writes CC and the handler
runs in any order; what is compared is what the host wrote with what CSTS shows. -/

namespace AlkaliFw
open Resumption

inductive CcEvent where
  /-- the host writes CC -/
  | write (value : Nat)
  /-- `nvme_tc_cc_handler` runs -/
  | handle
  deriving DecidableEq

def Fw.ccStep (s : Fw) : CcEvent → Fw
  | .write value =>
    { s with regs := Function.update s.regs (4 * (nvmeTcRegCc / 4)) (value % 2 ^ 32), writes := s.writes ++ [nvmeTcRegCc / 4] }
  | .handle => s.ccHandler

def Fw.ccRun (s : Fw) (es : List CcEvent) : Fw := es.foldl ccStep s

theorem ccStep_write (P : Platform) (s : Fw) (value : Nat) :
    s.env P (.hostWrite (nvmeTcRegCc / 4) value) = some (s.ccStep (.write value)) := rfl

theorem ccStep_handle (s : Fw) : nvmeTcCcHandler.run s = some ((), s.ccStep .handle) := rfl

/-- `CC.EN` of a value. -/
def ccEnabled (cc : Nat) : Bool := decide (cc % 2 = 1)

/-- `CC.SHN` of a value asks for a shutdown. -/
def ccNotifies (cc : Nat) : Bool := decide (nvmeTcGetField cc 14 2 ≠ 0)

/-- What the host has written: the latest value, and whether a shutdown was asked for since the
controller was last enabled from the disabled state. `found` says that the handler has met such a
value in CC. -/
structure CcHistory where
  cc : Nat := 0
  notified : Bool := false
  found : Bool := false
  deriving DecidableEq

namespace CcHistory

def step (h : CcHistory) : CcEvent → CcHistory
  | .write value =>
    let value := value % 2 ^ 32
    { h with
      cc := value
      notified := if ccEnabled value && !ccEnabled h.cc then ccNotifies value else h.notified || ccNotifies value }
  | .handle => { h with found := h.found || ccNotifies h.cc }

def of (es : List CcEvent) : CcHistory := es.foldl step {}

end CcHistory

/-- The controller starts with cleared registers, and the handler runs after `es`. -/
structure CstsFollows (host ram : Nat → UInt8) (es : List CcEvent) : Prop where
  ready : nvmeTcGetField (((Sys.boot host ram).fw.ccRun es).ccHandler.regs nvmeTcRegCsts) 0 1 = 1 ↔
    ccEnabled (CcHistory.of es).cc = true
  shutdown : nvmeTcGetField (((Sys.boot host ram).fw.ccRun es).ccHandler.regs nvmeTcRegCsts) 2 2 = 2 ↔
    (CcHistory.of es).notified = true
  others : ∀ i, i ≠ 0 → i ≠ 2 → i ≠ 3 →
    (((Sys.boot host ram).fw.ccRun es).ccHandler.regs nvmeTcRegCsts).testBit i =
      (((Sys.boot host ram).fw.ccRun es).regs nvmeTcRegCsts).testBit i
  page : ((Sys.boot host ram).fw.ccRun es).ccHandler.tc.memoryPageSize =
    2 ^ (12 + nvmeTcGetField (CcHistory.of es).cc 7 4)

/-- CSTS holds RDY as the controller is enabled and SHST as the handler has found a notification. -/
structure CcInv (s : Fw) (h : CcHistory) : Prop where
  cc : s.regs nvmeTcRegCc = h.cc
  csts : s.regs nvmeTcRegCsts = s.tc.enabled.toNat + 8 * h.found.toNat

theorem regs_sysWrite32_self (s : Fw) (reg value : Nat) : (s.sysWrite32 reg value).regs reg = value := Function.update_self ..

theorem regs_sysWrite32_of_ne (s : Fw) {reg r : Nat} (value : Nat) (h : r ≠ reg) :
    (s.sysWrite32 reg value).regs r = s.regs r := Function.update_of_ne h ..

theorem csts_or (ready found notifies : Bool) :
    (if notifies = true then (ready.toNat + 8 * found.toNat) ||| 2 * 2 ^ 2 else ready.toNat + 8 * found.toNat) =
      ready.toNat + 8 * (found || notifies).toNat := by
  cases ready <;> cases found <;> cases notifies <;> decide

theorem csts_ready (ready found : Bool) : (ready.toNat + 8 * found.toNat) ||| 1 = true.toNat + 8 * found.toNat := by
  cases ready <;> cases found <;> decide

theorem csts_clear (found : Bool) : (true.toNat + 8 * found.toNat) &&& (2 ^ 32 - 2) = false.toNat + 8 * found.toNat := by
  cases found <;> decide

/-- One run of the handler: RDY and the page size as CC has them, SHST once CC has asked for it. -/
theorem CcInv.handled {s : Fw} {h : CcHistory} (inv : CcInv s h) :
    s.ccHandler.regs nvmeTcRegCsts = (ccEnabled h.cc).toNat + 8 * (h.found || ccNotifies h.cc).toNat ∧
      s.ccHandler.tc.enabled = ccEnabled h.cc ∧ s.ccHandler.regs nvmeTcRegCc = h.cc ∧
      s.ccHandler.tc.memoryPageSize = 2 ^ (12 + nvmeTcGetField h.cc 7 4) := by
  have away : nvmeTcRegCc ≠ nvmeTcRegCsts := by decide
  have set := csts_or s.tc.enabled h.found (ccNotifies h.cc)
  simp only [ccNotifies, decide_eq_true_eq] at set
  unfold Fw.ccHandler
  simp only [inv.cc, inv.csts, set]
  by_cases on : h.cc % 2 = 1
  · rw [if_pos on]
    have enabled : ccEnabled h.cc = true := decide_eq_true on
    rw [enabled]
    refine ⟨(regs_sysWrite32_self ..).trans (csts_ready _ _), rfl, (regs_sysWrite32_of_ne _ _ away).trans inv.cc, ?_⟩
    rw [Nat.add_comm]
    rfl
  · rw [if_neg on]
    have disabled : ccEnabled h.cc = false := decide_eq_false on
    rw [disabled]
    cases was : s.tc.enabled with
    | true =>
      rw [if_pos rfl]
      refine ⟨(regs_sysWrite32_self ..).trans (csts_clear _), rfl, (regs_sysWrite32_of_ne _ _ away).trans inv.cc, ?_⟩
      rw [Nat.add_comm]
      rfl
    | false =>
      rw [if_neg Bool.false_ne_true]
      refine ⟨regs_sysWrite32_self .., was, (regs_sysWrite32_of_ne _ _ away).trans inv.cc, ?_⟩
      rw [Nat.add_comm]
      rfl

theorem CcInv.step {s : Fw} {h : CcHistory} (inv : CcInv s h) (e : CcEvent) : CcInv (s.ccStep e) (h.step e) := by
  cases e with
  | write value =>
    have regs : (s.ccStep (.write value)).regs = Function.update s.regs nvmeTcRegCc (value % 2 ^ 32) := rfl
    have away : nvmeTcRegCsts ≠ nvmeTcRegCc := by decide
    refine ⟨?_, ?_⟩
    · rw [regs, Function.update_self]
      rfl
    · rw [regs, Function.update_of_ne away]
      exact inv.csts
  | handle =>
    obtain ⟨csts, enabled, cc, -⟩ := inv.handled
    exact ⟨cc, by rw [Fw.ccStep, csts, enabled]; rfl⟩

theorem ccInv_run (host ram : Nat → UInt8) (es : List CcEvent) :
    CcInv ((Sys.boot host ram).fw.ccRun es) (CcHistory.of es) := by
  have start : CcInv (Sys.boot host ram).fw {} := ⟨rfl, rfl⟩
  unfold Fw.ccRun CcHistory.of
  generalize (Sys.boot host ram).fw = s at start ⊢
  generalize ({} : CcHistory) = h at start ⊢
  induction es generalizing s h with
  | nil => exact start
  | cons e es ih => exact ih _ _ (start.step e)

theorem csts_testBit (ready found : Bool) {i : Nat} (zero : i ≠ 0) (three : i ≠ 3) :
    (ready.toNat + 8 * found.toNat).testBit i = false := by
  rcases Nat.lt_or_ge i 4 with low | high
  · obtain rfl | rfl : i = 1 ∨ i = 2 := by omega
    · cases ready <;> cases found <;> decide
    · cases ready <;> cases found <;> decide
  · have small : ready.toNat + 8 * found.toNat < 2 ^ 4 := by cases ready <;> cases found <;> decide
    exact Nat.testBit_lt_two_pow (Nat.lt_of_lt_of_le small (Nat.pow_le_pow_right (by decide) high))

/-- The handler has found a notification, now or before, exactly if one counts. -/
theorem cstsFollows_iff_found (host ram : Nat → UInt8) (es : List CcEvent) :
    CstsFollows host ram es ↔ (CcHistory.of (es ++ [.handle])).found = (CcHistory.of es).notified := by
  have inv := ccInv_run host ram es
  obtain ⟨csts, -, -, page⟩ := inv.handled
  have found : (CcHistory.of (es ++ [.handle])).found = ((CcHistory.of es).found || ccNotifies (CcHistory.of es).cc) := by
    rw [CcHistory.of, List.foldl_append]
    rfl
  rw [found]
  generalize ((CcHistory.of es).found || ccNotifies (CcHistory.of es).cc) = shown at csts ⊢
  have shutdown : nvmeTcGetField ((ccEnabled (CcHistory.of es).cc).toNat + 8 * shown.toNat) 2 2 = 2 ↔ shown = true := by
    cases ccEnabled (CcHistory.of es).cc <;> cases shown <;> decide
  constructor
  · intro follows
    have := follows.shutdown
    rw [csts, shutdown] at this
    exact Bool.eq_iff_iff.mpr this
  · intro same
    refine ⟨?_, ?_, fun i zero _ three => ?_, page⟩
    · rw [csts]
      cases ccEnabled (CcHistory.of es).cc <;> cases shown <;> decide
    · rw [csts, shutdown, same]
    · rw [csts, inv.csts, csts_testBit _ _ zero three, csts_testBit _ _ zero three]

/-! Writes that are handled one by one. -/

def promptly (values : List Nat) : List CcEvent := values.flatMap fun value => [.write value, .handle]

/-- After the writes `before`, the value enables the controller from the disabled state. -/
def Enables (before : List Nat) (value : Nat) : Prop :=
  ccEnabled (value % 2 ^ 32) = true ∧ ccEnabled (before.getLastD 0 % 2 ^ 32) = false

theorem promptly_concat (values : List Nat) (value : Nat) :
    promptly (values ++ [value]) = promptly values ++ [.write value] ++ [.handle] := by
  simp [promptly]

theorem history_concat (values : List Nat) (value : Nat) :
    CcHistory.of (promptly (values ++ [value])) = ((CcHistory.of (promptly values)).step (.write value)).step .handle := by
  simp only [promptly_concat, CcHistory.of, List.foldl_append, List.foldl_cons, List.foldl_nil]

/-- After prompt writes the handler has met each of them. -/
theorem history_promptly (values : List Nat) :
    (CcHistory.of (promptly values)).cc = values.getLastD 0 % 2 ^ 32 ∧
      (CcHistory.of (promptly values)).found = values.any fun value => ccNotifies (value % 2 ^ 32) := by
  induction values using List.reverseRecOn with
  | nil => exact ⟨rfl, rfl⟩
  | append_singleton values value ih =>
    rw [history_concat]
    refine ⟨by simp [CcHistory.step], ?_⟩
    simp [CcHistory.step, ih.2]

theorem cstsFollows_promptly_iff (host ram : Nat → UInt8) (values : List Nat) (value : Nat) :
    CstsFollows host ram (promptly values ++ [.write value]) ↔
      (CcHistory.of (promptly (values ++ [value]))).found = (CcHistory.of (promptly (values ++ [value]))).notified := by
  rw [cstsFollows_iff_found, ← promptly_concat]
  have same : (CcHistory.of (promptly (values ++ [value]))).notified =
      (CcHistory.of (promptly values ++ [.write value])).notified := by
    rw [promptly_concat, CcHistory.of, List.foldl_append]
    rfl
  rw [same]

/-- No write enables the controller anew, without a notification of its own, after one. -/
def NotifiedAnew (values : List Nat) : Prop :=
  ∀ before value, before ++ [value] <+: values → Enables before value → ccNotifies (value % 2 ^ 32) = false →
    ∀ earlier ∈ before, ccNotifies (earlier % 2 ^ 32) = false

theorem found_eq_notified {values : List Nat} (anew : NotifiedAnew values) {before : List Nat} (h : before <+: values) :
    (CcHistory.of (promptly before)).found = (CcHistory.of (promptly before)).notified := by
  induction before using List.reverseRecOn with
  | nil => rfl
  | append_singleton before value ih =>
    have same := ih ((List.prefix_append before [value]).trans h)
    obtain ⟨cc, found⟩ := history_promptly before
    have quiet := anew before value h
    rw [history_concat]
    unfold Enables at quiet
    rw [← cc] at quiet
    simp only [CcHistory.step, Bool.and_eq_true, Bool.not_eq_true']
    split
    · rename_i enables
      cases own : ccNotifies (value % 2 ^ 32) with
      | true => exact Bool.or_true _
      | false =>
        rw [Bool.or_false, found, List.any_eq_false]
        intro earlier mem
        rw [quiet enables own earlier mem]
        exact Bool.false_ne_true
    · rw [same]

theorem promptly_follows_iff (host ram : Nat → UInt8) (values : List Nat) :
    (∀ before value, before ++ [value] <+: values → CstsFollows host ram (promptly before ++ [.write value])) ↔
      NotifiedAnew values := by
  constructor
  · intro follows before value h enables own earlier mem
    have same := (cstsFollows_promptly_iff host ram before value).mp (follows before value h)
    obtain ⟨cc, found⟩ := history_promptly before
    rw [Enables, ← cc] at enables
    rw [history_concat] at same
    simp only [CcHistory.step, enables.1, enables.2, Bool.not_false, Bool.and_self, if_true, own, Bool.or_false] at same
    rw [found, List.any_eq_false] at same
    exact Bool.eq_false_iff.mpr (same earlier mem)
  · intro anew before value h
    exact (cstsFollows_promptly_iff host ram before value).mpr (found_eq_notified anew h)

/-- CSTS follows CC after a run of the handler exactly if the handler has found a notification when one
counts; for writes that are handled one by one, exactly if none of them enables the controller anew
after a notification without bringing one. -/
theorem csts_follows_iff (host ram : Nat → UInt8) :
    (∀ es, CstsFollows host ram es ↔ (CcHistory.of (es ++ [.handle])).found = (CcHistory.of es).notified) ∧
      ∀ values,
        (∀ before value, before ++ [value] <+: values → CstsFollows host ram (promptly before ++ [.write value])) ↔
          NotifiedAnew values :=
  ⟨cstsFollows_iff_found host ram, promptly_follows_iff host ram⟩

/-- Shutdown, disable, enable: SHST still reports a completed shutdown. -/
theorem shutdown_stale : ¬∀ es, CstsFollows (fun _ => 0) (fun _ => 0) es := by
  intro all
  have same := (cstsFollows_iff_found _ _ _).mp (all [.write 0x4001, .handle, .write 0, .handle, .write 1])
  revert same
  decide

end AlkaliFw
