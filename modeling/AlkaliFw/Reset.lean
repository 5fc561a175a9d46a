import AlkaliFw.Board
import AlkaliFw.Events
import AlkaliFw.Return

/-! Resetting the controller. The handlers of CC, AQA, ASQ and ACQ set sizes, bases and
valid flags of the admin queues; heads, tails, phase bits and the IO queues stay as they were. -/

namespace AlkaliFw
open Resumption

/-! Machine words of the controller record. -/

structure Words (s : Fw) : Prop where
  regs : ∀ r, s.regs r < 2 ^ 32
  sqHead : ∀ q, s.tc.sqHead q < 2 ^ 16
  cqTail : ∀ q, s.tc.cqTail q < 2 ^ 16
  sqBase : ∀ q, s.tc.sqBase q < 2 ^ 64
  cqBase : ∀ q, s.tc.cqBase q < 2 ^ 64

theorem update_lt {α : Type} [DecidableEq α] {f : α → Nat} {bound v : Nat} (h : ∀ a, f a < bound) (hv : v < bound)
    (b : α) : ∀ a, Function.update f b v a < bound := by
  intro a
  by_cases here : a = b
  · rw [here, Function.update_self]
    exact hv
  · rw [Function.update_of_ne here]
    exact h a

theorem SqBuf.prp1_lt (b : SqBuf) : b.prp1 < 2 ^ 64 := by
  have low := (b 6).isLt
  have high := (b 7).isLt
  unfold SqBuf.prp1
  omega

theorem Words.sysWrite32 {s : Fw} (h : Words s) (reg : Nat) {value : Nat} (word : value < 2 ^ 32) :
    Words (s.sysWrite32 reg value) := ⟨update_lt h.regs word reg, h.sqHead, h.cqTail, h.sqBase, h.cqBase⟩

theorem Words.ccHandler {s : Fw} (h : Words s) : Words s.ccHandler := by
  have csts : ∀ c : Prop, [Decidable c] →
      (if c then s.regs nvmeTcRegCsts ||| 2 * 2 ^ 2 else s.regs nvmeTcRegCsts) < 2 ^ 32 := by
    intro c _
    split
    · exact Nat.or_lt_two_pow (h.regs _) (by decide)
    · exact h.regs _
  have paged (size : Nat) (on : Bool) :
      Words (s.setTc fun tc => { tc with memoryPageSize := size, enabled := on }) :=
    ⟨h.regs, h.sqHead, h.cqTail, h.sqBase, h.cqBase⟩
  unfold Fw.ccHandler
  dsimp only
  split
  · exact Words.sysWrite32 (paged _ _) _ (Nat.or_lt_two_pow (csts _) (by decide))
  · split
    · exact Words.sysWrite32 (paged _ _) _ (lt_of_le_of_lt Nat.and_le_left (csts _))
    · exact Words.sysWrite32 (paged _ s.tc.enabled) _ (csts _)

theorem Words.admBase {s : Fw} (h : Words s) (high low : Nat) : s.regs high * 2 ^ 32 + s.regs low < 2 ^ 64 := by
  have := h.regs high
  have := h.regs low
  omega

theorem Words.queue {s : Fw} (h : Words s) {f : NvmeCmdPriv → QId → Fw → Fw} (update : QueueUpdate f) (p : NvmeCmdPriv)
    (q : QId) : Words (f p q s) := by
  have zero : 0 < 2 ^ 16 := by decide
  cases update with
  | createSq => exact ⟨h.regs, update_lt h.sqHead zero q, h.cqTail, update_lt h.sqBase p.sqBuf.prp1_lt q, h.cqBase⟩
  | createCq => exact ⟨h.regs, h.sqHead, update_lt h.cqTail zero q, h.sqBase, update_lt h.cqBase p.sqBuf.prp1_lt q⟩
  | deleteSq => exact ⟨h.regs, h.sqHead, h.cqTail, h.sqBase, h.cqBase⟩
  | deleteCq => exact ⟨h.regs, h.sqHead, h.cqTail, h.sqBase, h.cqBase⟩

theorem words_closed (P : Platform) : Closed P Words where
  fine c l s t act h := by
    cases act with
    | own act =>
      cases act with
      | notify s word => exact h.sysWrite32 _ word
      | queue update p _ _ => exact h.queue update p _
      | _ => exact ⟨h.regs, h.sqHead, h.cqTail, h.sqBase, h.cqBase⟩
    | tail q s word => exact ⟨h.regs, h.sqHead, update_lt h.cqTail word q, h.sqBase, h.cqBase⟩
    | _ => exact ⟨h.regs, h.sqHead, h.cqTail, h.sqBase, h.cqBase⟩
  handled c s h := ⟨h.regs, h.sqHead, h.cqTail, h.sqBase, h.cqBase⟩
  tc l s t act h := by
    cases act with
    | cc => exact h.ccHandler
    | asq => exact ⟨h.regs, h.sqHead, h.cqTail, update_lt h.sqBase (h.admBase _ _) _, h.cqBase⟩
    | acq => exact ⟨h.regs, h.sqHead, h.cqTail, h.sqBase, update_lt h.cqBase (h.admBase _ _) _⟩
    | _ => exact ⟨h.regs, h.sqHead, h.cqTail, h.sqBase, h.cqBase⟩
  fetch l s t act h := by
    cases act with
    | advance q => exact ⟨h.regs, update_lt h.sqHead (Nat.mod_lt _ (by decide)) q, h.cqTail, h.sqBase, h.cqBase⟩
    | _ => exact ⟨h.regs, h.sqHead, h.cqTail, h.sqBase, h.cqBase⟩
  status ch s h := ⟨h.regs, h.sqHead, h.cqTail, h.sqBase, h.cqBase⟩
  get ch s h := by
    unfold Fw.get
    split
    · exact h
    · exact ⟨h.regs, h.sqHead, h.cqTail, h.sqBase, h.cqBase⟩
  descFree b s h := ⟨h.regs, h.sqHead, h.cqTail, h.sqBase, h.cqBase⟩
  restart ch s h := ⟨h.regs, h.sqHead, h.cqTail, h.sqBase, h.cqBase⟩
  outside s t act h := by
    cases act with
    | hostWrite reg value => exact ⟨update_lt h.regs (Nat.mod_lt _ (by decide)) _, h.sqHead, h.cqTail, h.sqBase, h.cqBase⟩
    | done finish =>
      obtain ⟨d, -, ⟨host, ram, prpMem, cmds, rfl⟩, -⟩ := Fw.finished_of_finish finish
      exact ⟨h.regs, h.sqHead, h.cqTail, h.sqBase, h.cqBase⟩
    | _ => exact ⟨h.regs, h.sqHead, h.cqTail, h.sqBase, h.cqBase⟩

theorem Reachable.words {P : Platform} {S : Sys} (h : Reachable P S) : Words S.fw := by
  obtain ⟨host, ram, run⟩ := h
  refine run.closed (words_closed P) ⟨?_, ?_, ?_, ?_, ?_⟩ <;>
    exact fun _ => Nat.two_pow_pos _

/-! The reset sequence. -/

/-- A controller register, below the doorbells. -/
def Config (reg : Nat) : Prop := 4 * reg < doorbellBase

/-- What may go on while the host resets the controller: it writes registers other than
doorbells, memories change, and no code of a command runs. -/
def Event.Config : Event → Prop
  | .hostWrite reg _ => AlkaliFw.Config reg
  | .dmaIrq => False
  | .poll => False
  | _ => True

def Fw.Configured (s : Fw) : Prop := 0 < s.tc.sqSize admQueueId ∨ nvmeTcRegAqa / 4 ∈ s.writes

/-- From `s` to `t` no head, no tail, no phase bit and no IO queue has changed. -/
structure Kept (s t : Fw) : Prop where
  sqHead : t.tc.sqHead = s.tc.sqHead
  cqTail : t.tc.cqTail = s.tc.cqTail
  cqHead : t.tc.cqHead = s.tc.cqHead
  cqPhase : t.tc.cqPhase = s.tc.cqPhase
  io : ∀ q ≠ admQueueId, t.tc.sqValid q = s.tc.sqValid q ∧ t.tc.cqValid q = s.tc.cqValid q
  pending : ∀ reg ∈ t.writes, Config reg
  sizes : s.Configured → t.Configured

theorem Kept.trans {s t u : Fw} (h : Kept s t) (h' : Kept t u) : Kept s u where
  sqHead := h'.sqHead.trans h.sqHead
  cqTail := h'.cqTail.trans h.cqTail
  cqHead := h'.cqHead.trans h.cqHead
  cqPhase := h'.cqPhase.trans h.cqPhase
  io q adm := ⟨(h'.io q adm).1.trans (h.io q adm).1, (h'.io q adm).2.trans (h.io q adm).2⟩
  pending := h'.pending
  sizes configured := h'.sizes (h.sizes configured)

theorem kept_of_tc {s t : Fw} (tc : t.tc = s.tc) (writes : t.writes = s.writes) (pending : ∀ reg ∈ s.writes, Config reg) :
    Kept s t :=
  ⟨by rw [tc], by rw [tc], by rw [tc], by rw [tc], fun _ _ => by rw [tc]; exact ⟨rfl, rfl⟩,
    by rwa [writes], fun h => by rwa [Fw.Configured, tc, writes]⟩

theorem ioDoorbell_config {reg : Nat} (below : ∀ n, reg ≠ doorbellReg n) (n : Nat) :
    ioDoorbell queues reg n = .nothing := by
  induction n with
  | zero => rfl
  | succ n ih => rw [ioDoorbell, nvmeTcRegIoTail, nvmeTcRegIoHead, if_neg (below _), if_neg (below _), ih]

theorem regHandler_config {reg : Nat} (h : Config reg) :
    regHandler queues (reg * 4 % 2 ^ 16) = .cc ∧ reg ≠ nvmeTcRegAqa / 4 ∨
      regHandler queues (reg * 4 % 2 ^ 16) = .aqa ∧ True ∨
      regHandler queues (reg * 4 % 2 ^ 16) = .asq ∧ reg ≠ nvmeTcRegAqa / 4 ∨
      regHandler queues (reg * 4 % 2 ^ 16) = .acq ∧ reg ≠ nvmeTcRegAqa / 4 ∨
      regHandler queues (reg * 4 % 2 ^ 16) = .nothing ∧ reg ≠ nvmeTcRegAqa / 4 := by
  have below : reg * 4 < 4096 := by
    have : doorbellBase = 4096 := rfl
    unfold Config at h
    omega
  rw [Nat.mod_eq_of_lt (by omega)]
  have other : reg * 4 ≠ nvmeTcRegAqa → reg ≠ nvmeTcRegAqa / 4 := by
    rintro far rfl
    exact far rfl
  unfold regHandler
  split_ifs with cc aqa asq0 asq1 acq0 acq1 tail head
  · exact .inl ⟨rfl, other (by rw [cc]; decide)⟩
  · exact .inr (.inl ⟨rfl, trivial⟩)
  · exact .inr (.inr (.inr (.inr ⟨rfl, other aqa⟩)))
  · exact .inr (.inr (.inl ⟨rfl, other aqa⟩))
  · exact .inr (.inr (.inr (.inr ⟨rfl, other aqa⟩)))
  · exact .inr (.inr (.inr (.inl ⟨rfl, other aqa⟩)))
  · have : doorbellTail admQueueId = 4096 := rfl
    omega
  · have : doorbellHead admQueueId = 4100 := rfl
    omega
  · refine .inr (.inr (.inr (.inr ⟨?_, other aqa⟩)))
    have far : ∀ n, reg * 4 ≠ doorbellReg n := by
      intro n e
      have : doorbellReg n = 4096 + n * 4 := rfl
      omega
    exact ioDoorbell_config far queues

theorem ccHandler_tc (s : Fw) :
    ∃ size on, s.ccHandler.tc = { s.tc with memoryPageSize := size, enabled := on } ∧ s.ccHandler.writes = s.writes := by
  unfold Fw.ccHandler
  dsimp only
  split
  · exact ⟨_, true, rfl, rfl⟩
  · split
    · exact ⟨_, false, rfl, rfl⟩
    · exact ⟨_, s.tc.enabled, rfl, rfl⟩

/-- A register write that the handler takes while no command runs. -/
theorem kept_handleReg {P : Platform} {s t : Fw} {reg : Nat} {rest : List Nat} (h : Config reg)
    (pending : ∀ reg ∈ rest, Config reg) (writes : s.writes = reg :: rest)
    (run : (handleReg P (regHandler queues (reg * 4 % 2 ^ 16))).run { s with writes := rest } = some ((), t)) :
    Kept s t ∧ t.writes = rest := by
  have io {f : QId → Bool} {v : Bool} (q : QId) (adm : q ≠ admQueueId) : Function.update f admQueueId v q = f q :=
    Function.update_of_ne adm ..
  have sizes (other : reg ≠ nvmeTcRegAqa / 4) : s.Configured → 0 < s.tc.sqSize admQueueId ∨ nvmeTcRegAqa / 4 ∈ rest := by
    rintro (set | waiting)
    · exact .inl set
    · rw [writes] at waiting
      exact .inr ((List.mem_cons.mp waiting).resolve_left other.symm)
  rcases regHandler_config h with e | e | e | e | e <;> rw [e.1] at run <;> cases run
  · obtain ⟨size, on, tc, same⟩ := ccHandler_tc { s with writes := rest }
    refine ⟨⟨by rw [tc], by rw [tc], by rw [tc], by rw [tc], fun q adm => by rw [tc]; exact ⟨rfl, rfl⟩, ?_, fun h => ?_⟩, same⟩
    · rwa [same]
    · rw [Fw.Configured, tc, same]
      exact sizes e.2 h
  · refine ⟨⟨rfl, rfl, rfl, rfl, fun q adm => ⟨rfl, rfl⟩, pending, fun _ => .inl ?_⟩, rfl⟩
    change 0 < Function.update s.tc.sqSize admQueueId _ admQueueId
    rw [Function.update_self]
    exact Nat.succ_pos _
  · exact ⟨⟨rfl, rfl, rfl, rfl, fun q adm => ⟨io q adm, rfl⟩, pending, sizes e.2⟩, rfl⟩
  · exact ⟨⟨rfl, rfl, rfl, rfl, fun q adm => ⟨rfl, io q adm⟩, pending, sizes e.2⟩, rfl⟩
  · exact ⟨⟨rfl, rfl, rfl, rfl, fun _ _ => ⟨rfl, rfl⟩, pending, sizes e.2⟩, rfl⟩

/-- The loop of the interrupt handler over `n` of the pending writes. -/
theorem kept_nvmeTcIrqLoop {P : Platform} {s t : Fw} {n : Nat} (pending : ∀ reg ∈ s.writes, Config reg)
    (enough : n ≤ s.writes.length) (run : (nvmeTcIrqLoop P n).run s = some ((), t)) : Kept s t := by
  induction n generalizing s with
  | zero =>
    cases run
    exact kept_of_tc rfl rfl pending
  | succ n ih =>
    obtain ⟨reg, rest, writes⟩ : ∃ reg rest, s.writes = reg :: rest := by
      cases e : s.writes with
      | nil =>
        rw [e] at enough
        cases enough
      | cons reg rest => exact ⟨reg, rest, rfl⟩
    simp only [nvmeTcIrqLoop, Prog.run_bind, Prog.run_swap, Option.bind_some, writes, List.headD_cons, List.tail_cons] at run
    obtain ⟨⟨⟨⟩, u⟩, handled, run⟩ := Option.bind_eq_some_iff.mp run
    rw [writes] at pending
    have rest' : ∀ r ∈ rest, Config r := fun r hr => pending r (List.mem_cons_of_mem _ hr)
    obtain ⟨kept, left⟩ := kept_handleReg (pending reg List.mem_cons_self) rest' writes handled
    refine kept.trans (ih ?_ ?_ run)
    · rwa [left]
    · rw [left]
      rw [writes] at enough
      exact Nat.le_of_succ_le_succ enough

theorem kept_step {P : Platform} {S T : Sys} {e : Event} (config : e.Config) (pending : ∀ reg ∈ S.fw.writes, Config reg)
    (step : S.step P e = some T) : Kept S.fw T.fw := by
  rcases Sys.step_cases step with ⟨fw, env, rfl⟩ | ⟨i, withData, -, start⟩ | ⟨rfl, -⟩
  · cases e with
    | hostWrite reg value =>
      cases env
      refine ⟨rfl, rfl, rfl, rfl, fun _ _ => ⟨rfl, rfl⟩, fun r hr => ?_, fun h => h.imp_right fun h => ?_⟩
      · rcases List.mem_append.mp hr with old | new
        · exact pending r old
        · rw [List.mem_singleton.mp new]
          exact config
      · exact List.mem_append_left _ h
    | hostStore addr bytes =>
      cases env
      exact kept_of_tc rfl rfl pending
    | apuStore addr bytes =>
      cases env
      exact kept_of_tc rfl rfl pending
    | tcIrq =>
      obtain ⟨⟨⟨⟩, _⟩, run, rfl⟩ := Option.map_eq_some_iff.mp env
      exact kept_nvmeTcIrqLoop pending le_rfl run
    | dmaDone ch =>
      obtain ⟨d, -, ⟨host, ram, prpMem, cmds, rfl⟩, -⟩ := Fw.finished_of_finish env
      exact kept_of_tc rfl rfl pending
    | dmaIrq => cases config
    | reply i withData => cases env
    | poll => cases env
  · rw [(Sys.startCall_acts start).2]
    exact kept_of_tc rfl rfl pending
  · cases config

theorem kept_exec {P : Platform} {S T : Sys} {E : List Event} (config : ∀ e ∈ E, e.Config)
    (pending : ∀ reg ∈ S.fw.writes, Config reg) (exec : S.exec P E = some T) : Kept S.fw T.fw := by
  induction E generalizing S with
  | nil =>
    cases exec
    exact kept_of_tc rfl rfl pending
  | cons e E ih =>
    obtain ⟨U, step, exec⟩ := Option.bind_eq_some_iff.mp exec
    have first := kept_step (config e List.mem_cons_self) pending step
    exact first.trans (ih (fun e he => config e (List.mem_cons_of_mem _ he)) first.pending exec)

/-- The host clears CC.EN, programs the admin queues and sets CC.EN again. -/
structure Reset (P : Platform) (S : Sys) (E : List Event) (T : Sys) : Prop where
  config : ∀ e ∈ E, e.Config
  pending : ∀ reg ∈ S.fw.writes, Config reg
  disabled : ∃ U E₁ E₂, E = E₁ ++ E₂ ∧ S.exec P E₁ = some U ∧ U.fw.tc.enabled = false ∧ U.exec P E₂ = some T ∧
    ∀ reg ∈ [nvmeTcRegAqa, nvmeTcRegAsq0, nvmeTcRegAsq1, nvmeTcRegAcq0, nvmeTcRegAcq1],
      ∃ value, .hostWrite (reg / 4) value ∈ E₂
  enabled : T.fw.tc.enabled = true
  handled : T.fw.writes = []

/-- The next admin command comes from slot 0, and the next admin completion, where the queue
can hold one, goes to slot 0 with phase bit 1. -/
structure LikeFresh (s : Fw) : Prop where
  fetch : ∃ t, (nvmeTcGetSqAddr admQueueId).run s = some (s.tc.sqBase admQueueId, t)
  post : 1 < s.tc.cqSize admQueueId → s.tc.cqBase admQueueId ≠ 0 →
    ∃ t, (nvmeTcGetCqAddr admQueueId).run s = some (s.tc.cqBase admQueueId, t) ∧ t.tc.cqPhase admQueueId = true
  head : s.tc.cqHead admQueueId = 0
  io : ∀ q ≠ admQueueId, s.tc.sqValid q = false ∧ s.tc.cqValid q = false

section

variable {P : Platform} {S T : Sys} {E : List Event}

/-- Once AQA is written, the admin queues keep a size or the write is still pending. -/
theorem configured_of_write (config : ∀ e ∈ E, e.Config) (pending : ∀ reg ∈ S.fw.writes, Config reg)
    (exec : S.exec P E = some T) {value : Nat} (write : .hostWrite (nvmeTcRegAqa / 4) value ∈ E) : T.fw.Configured := by
  induction E generalizing S with
  | nil => cases write
  | cons e E ih =>
    obtain ⟨U, step, rest⟩ := Option.bind_eq_some_iff.mp exec
    have first := kept_step (config e List.mem_cons_self) pending step
    have config' : ∀ e ∈ E, e.Config := fun e he => config e (List.mem_cons_of_mem _ he)
    rcases List.mem_cons.mp write with rfl | later
    · refine (kept_exec config' first.pending rest).sizes (.inr ?_)
      cases step
      exact List.mem_append_right _ (List.mem_singleton_self _)
    · exact ih config' first.pending rest later

theorem Reset.kept (reset : Reset P S E T) : Kept S.fw T.fw := by
  obtain ⟨U, E₁, E₂, rfl, exec₁, -, exec₂, -⟩ := reset.disabled
  exact kept_exec reset.config reset.pending (Sys.exec_append exec₁ exec₂)

theorem Reset.configured (reset : Reset P S E T) : 0 < T.fw.tc.sqSize admQueueId := by
  obtain ⟨U, E₁, E₂, rfl, exec₁, -, exec₂, written⟩ := reset.disabled
  obtain ⟨value, write⟩ := written nvmeTcRegAqa (by simp)
  have first := kept_exec (fun e he => reset.config e (List.mem_append_left _ he)) reset.pending exec₁
  have config : ∀ e ∈ E₂, e.Config := fun e he => reset.config e (List.mem_append_right _ he)
  refine (configured_of_write config first.pending exec₂ write).resolve_right ?_
  rw [reset.handled]
  exact List.not_mem_nil

theorem Reset.reachable (reset : Reset P S E T) (reach : Reachable P S) : Reachable P T := by
  obtain ⟨host, ram, run⟩ := reach
  obtain ⟨U, E₁, E₂, rfl, exec₁, -, exec₂, -⟩ := reset.disabled
  exact ⟨host, ram, run.exec (Sys.exec_append exec₁ exec₂)⟩

/-- The slot at `index` is the first one only for `index` zero: nothing wraps. -/
theorem slot_eq_base_iff {base index size : Nat} (hbase : base < 2 ^ 64) (hindex : index < 2 ^ 16) (some' : 0 < size)
    (small : size ≤ 2 ^ 6) : (base + index * size) % 2 ^ 64 = base ↔ index = 0 := by
  constructor
  · intro same
    by_contra nonzero
    have low : 1 ≤ index * size := Nat.mul_pos (Nat.pos_of_ne_zero nonzero) some'
    have high : index * size ≤ 2 ^ 16 * 2 ^ 6 := Nat.mul_le_mul hindex.le small
    omega
  · rintro rfl
    rw [Nat.zero_mul, Nat.add_zero, Nat.mod_eq_of_lt hbase]

theorem fetch_first_iff {s : Fw} (words : Words s) (size : 0 < s.tc.sqSize admQueueId) :
    (∃ t, (nvmeTcGetSqAddr admQueueId).run s = some (s.tc.sqBase admQueueId, t)) ↔ s.tc.sqHead admQueueId = 0 := by
  have run : (nvmeTcGetSqAddr admQueueId).run s = some (s.advanceSq admQueueId) := by
    simp [nvmeTcGetSqAddr, Prog.run_bind, Nat.pos_iff_ne_zero.mp size]
  rw [run, ← slot_eq_base_iff (words.sqBase _) (words.sqHead _) (by decide) (le_refl nvmeTcSqEntrySize)]
  constructor
  · rintro ⟨t, e⟩
    exact congrArg Prod.fst (Option.some.inj e)
  · intro e
    exact ⟨(s.advanceSq admQueueId).2, congrArg some (Prod.ext e rfl)⟩

theorem post_first_iff {s : Fw} (words : Words s) (size : 1 < s.tc.cqSize admQueueId) (base : s.tc.cqBase admQueueId ≠ 0)
    (head : s.tc.cqHead admQueueId = 0) :
    (∃ t, (nvmeTcGetCqAddr admQueueId).run s = some (s.tc.cqBase admQueueId, t) ∧ t.tc.cqPhase admQueueId = true) ↔
      s.tc.cqTail admQueueId = 0 ∧ s.tc.cqPhase admQueueId = false := by
  rw [run_nvmeTcGetCqAddr (by omega)]
  constructor
  · rintro ⟨t, e, phase⟩
    split at e
    · exact absurd (congrArg Prod.fst (Option.some.inj e)).symm base
    · obtain ⟨addr, rfl⟩ := Prod.ext_iff.mp (Option.some.inj e)
      have tail := (slot_eq_base_iff (words.cqBase _) (words.cqTail _) (by decide) (by decide)).mp addr
      refine ⟨tail, ?_⟩
      simpa [Fw.setTc, NvmeTcPriv.allot, tail] using phase
  · rintro ⟨tail, phase⟩
    have room : ¬s.tc.cqFull admQueueId := by
      rw [NvmeTcPriv.cqFull, head, tail, Nat.zero_add, Nat.mod_eq_of_lt size]
      exact Nat.zero_ne_one
    rw [if_neg room, tail, Nat.zero_mul, Nat.add_zero, Nat.mod_eq_of_lt (words.cqBase _)]
    exact ⟨_, rfl, by simp [Fw.setTc, NvmeTcPriv.allot, tail, phase]⟩

end

/-- What a reset must find for the controller to come out of it as new: no IO queue in use, all
entries fetched and consumed at the end of their rings, and the phase bit of an even pass. -/
structure Unused (size base : Nat) (s : Fw) : Prop where
  sqHead : s.tc.sqHead admQueueId = 0
  cqHead : s.tc.cqHead admQueueId = 0
  ring : 1 < size → base ≠ 0 → s.tc.cqTail admQueueId = 0 ∧ s.tc.cqPhase admQueueId = false
  io : ∀ q ≠ admQueueId, s.tc.sqValid q = false ∧ s.tc.cqValid q = false

/-- One admin command, from the doorbell to the interrupt that ends it. -/
def oneCommand : List Event :=
  [.hostWrite (doorbellTail 0 / 4) 1, .tcIrq, .dmaDone .rx, .dmaIrq, .dmaDone .tx, .dmaIrq]

theorem setUp_config : ∀ e ∈ setUp, e.Config := by
  intro e he
  simp only [setUp, List.mem_cons, List.not_mem_nil, or_false] at he
  rcases he with rfl | rfl | rfl | rfl | rfl | rfl | rfl
  · exact Nat.lt_of_sub_pos (by decide)
  · exact Nat.lt_of_sub_pos (by decide)
  · exact Nat.lt_of_sub_pos (by decide)
  · exact Nat.lt_of_sub_pos (by decide)
  · exact Nat.lt_of_sub_pos (by decide)
  · exact Nat.lt_of_sub_pos (by decide)
  · trivial

theorem setUp_writes : ∀ reg ∈ [nvmeTcRegAqa, nvmeTcRegAsq0, nvmeTcRegAsq1, nvmeTcRegAcq0, nvmeTcRegAcq1],
    ∃ value, .hostWrite (reg / 4) value ∈ setUp := by
  intro reg h
  simp only [List.mem_cons, List.not_mem_nil, or_false] at h
  rcases h with rfl | rfl | rfl | rfl | rfl
  · exact ⟨_, .head _⟩
  · exact ⟨_, .tail _ (.head _)⟩
  · exact ⟨_, .tail _ (.tail _ (.head _))⟩
  · exact ⟨_, .tail _ (.tail _ (.tail _ (.head _)))⟩
  · exact ⟨_, .tail _ (.tail _ (.tail _ (.tail _ (.head _))))⟩

end AlkaliFw
