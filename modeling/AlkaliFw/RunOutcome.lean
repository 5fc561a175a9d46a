import AlkaliFw.Flash
import AlkaliFw.Accelerator

/-! What a run of `runBPF` reports. Only the first two of its steps are checked, and the
buffer of the output window is written back whatever the program returned. -/

namespace AlkaliFw
open Resumption

/-- What the program finds in its input buffer. -/
def Acc.input (acc : Acc) (mem : Nat → UInt8) : List UInt8 :=
  if acc.ramdiskIn.enabled then (List.range acc.ramdiskIn.size).map fun i => mem (acc.ramdiskIn.base + i) else acc.ibuf

/-- And in its output buffer. -/
def Acc.output (acc : Acc) : List UInt8 :=
  if acc.ramdiskOut.enabled then resize acc.obuf acc.ramdiskOut.size else acc.obuf

/-- Questions before the run of the program: creation, load and the input window. -/
def Acc.execClock (acc : Acc) (clock : Nat) : Nat := clock + 2 + if acc.ramdiskIn.enabled then 1 else 0

/-- Every step of the run succeeds. -/
structure Succeeded (L : Linux) (s : Apu) (acc : Acc) : Prop where
  create : L.ubpfCreate s.clock = true
  load : L.ubpfLoadElf (s.clock + 1) acc.firmware = true
  input : acc.ramdiskIn.enabled → L.mmap (s.clock + 2) acc.ramdiskIn.base acc.ramdiskIn.size = true
  exec : (L.ubpfExec (acc.execClock s.clock) acc.firmware (acc.input s.mem) acc.output).1 = 0
  output : acc.ramdiskOut.enabled → L.mmap (acc.execClock s.clock + 1) acc.ramdiskOut.base acc.ramdiskOut.size = true

/-- The run comes to an end, it reports success exactly if every step succeeded and failure
otherwise, and a failed one leaves the output window as it was. -/
def Reported (L : Linux) (a : Nat) (s : Apu) (acc : Acc) : Prop :=
  ∃ t acc', (runBPF L a).run s = some ((), t) ∧ t.objs a = some acc' ∧ (Succeeded L s acc → acc'.state = .done) ∧
    (¬Succeeded L s acc → acc'.state = .fail ∧
      ∀ i < acc.ramdiskOut.size, t.mem (acc.ramdiskOut.base + i) = s.mem (acc.ramdiskOut.base + i))

section Spec

variable {L : Linux} {a : Nat} {s : Apu} {acc : Acc}

theorem run_then {α β : Type} {p : AccCode β} {b : β} {t : Apu} (h : p.run s = some (b, t)) (g : β → AccCode α) :
    (p >>= g).run s = (g b).run t := by
  rw [Prog.run_bind, h]
  rfl

theorem run_onAcc {α : Type} {f : AccField} {g : Acc → Apu → α × Apu} (here : s.objs a = some acc) :
    (onAcc a f g).run s = some (g acc s) := by
  simp only [onAcc, Prog.run_bind, Prog.run_swap, here, Option.bind_some, Prog.run_pure]

theorem run_onAcc_then {α β : Type} {f : AccField} {g : Acc → Apu → β × Apu} {h : β → AccCode α} (here : s.objs a = some acc) :
    (onAcc a f g >>= h).run s = (h (g acc s).1).run (g acc s).2 := by
  rw [Prog.run_bind, run_onAcc here]
  rfl

theorem run_ofAcc {α : Type} {f : AccField} {get : Acc → α} (here : s.objs a = some acc) :
    (ofAcc a f get).run s = some (get acc, s) := run_onAcc here

theorem run_logId (here : s.objs a = some acc) : (logId a).run s = some ((), s) := run_then (run_ofAcc here) _

theorem run_setState (here : s.objs a = some acc) (state : AccState) :
    (setState a state).run s = some ((), s.putAcc a { acc with state }) := run_onAcc here

@[simp] theorem putAcc_objs (s : Apu) (a : Nat) (acc : Acc) : (s.putAcc a acc).objs a = some acc := Function.update_self ..

@[simp] theorem putAcc_mem (s : Apu) (a : Nat) (acc : Acc) : (s.putAcc a acc).mem = s.mem := rfl

@[simp] theorem putAcc_clock (s : Apu) (a : Nat) (acc : Acc) : (s.putAcc a acc).clock = s.clock := rfl

theorem putAcc_putAcc (s : Apu) (a : Nat) (acc acc' : Acc) : (s.putAcc a acc).putAcc a acc' = s.putAcc a acc' := by
  simp only [Apu.putAcc, Function.update_idem]

theorem run_failed (here : s.objs a = some acc) : (failed a).run s = some ((), s.putAcc a { acc with state := .fail }) :=
  (run_then (run_logId here) _).trans (run_setState here .fail)

theorem run_ubpfCreate : (ubpfCreate L).run s = some (L.ubpfCreate s.clock, { s with clock := s.clock + 1 }) := rfl

theorem run_ubpfLoadElf (here : s.objs a = some acc) : (ubpfLoadElf L a).run s =
    some ((L.ubpfLoadElf s.clock acc.firmware, acc.firmware), { s with clock := s.clock + 1 }) := run_onAcc here

theorem run_mmapBuffer {base len : Nat} (mapped : L.mmap s.clock base len = true) :
    (Prog.swap (AccAccess.mmap base len) (mmapBuffer L base len)).run s = some (some ⟨base, len⟩, { s with clock := s.clock + 1 }) := by
  rw [Prog.run_swap, mmapBuffer, if_pos mapped]

/-- Both buffer functions on a window that is mapped. -/
theorem run_withWindow {f : AccField} {window : Acc → Window} {move : Mapped → Nat → AccCode Unit} {t : Apu} {acc' : Acc}
    (here : s.objs a = some acc) (mapped : L.mmap s.clock (window acc).base (window acc).size = true)
    (moved : (move ⟨(window acc).base, (window acc).size⟩ (window acc).size).run { s with clock := s.clock + 1 } = some ((), t))
    (there : t.objs a = some acc') : (withWindow L a f window move).run s = some ((), t) := by
  rw [withWindow, run_then (run_ofAcc here), run_then (run_ofAcc here), run_then (run_mmapBuffer mapped),
    run_then (run_ofAcc (s := { s with clock := s.clock + 1 }) here), Option.getD_some, run_then moved, run_then (run_ofAcc there)]
  rfl

theorem run_ramdiskToBuf (here : s.objs a = some acc)
    (mapped : L.mmap s.clock acc.ramdiskIn.base acc.ramdiskIn.size = true) :
    (ramdiskToBuf L a).run s = some ((), Apu.putAcc { s with clock := s.clock + 1 } a
      { acc with ibuf := (List.range acc.ramdiskIn.size).map fun i => s.mem (acc.ramdiskIn.base + i) }) := by
  refine run_withWindow here mapped ?_ (putAcc_objs ..)
  rw [run_onAcc_then (s := { s with clock := s.clock + 1 }) here]
  simp only [Apu.read, Nat.le_refl, if_true, Prog.run_pure]

theorem run_bufToRamdisk (here : s.objs a = some acc) (fits : acc.obuf.length = acc.ramdiskOut.size)
    (mapped : L.mmap s.clock acc.ramdiskOut.base acc.ramdiskOut.size = true) :
    (bufToRamdisk L a).run s = some ((), { s with
      clock := s.clock + 1
      mem := copyTo s.mem acc.ramdiskOut.base acc.obuf.length fun i => acc.obuf.getD i 0 }) := by
  refine run_withWindow here mapped ?_ (show s.objs a = some acc from here)
  rw [run_onAcc_then (s := { s with clock := s.clock + 1 }) here]
  simp only [Apu.store, fits, Nat.le_refl, if_true, Prog.run_pure]

theorem run_resizeObuf (here : s.objs a = some acc) : (resizeObuf a).run s =
    some ((), s.putAcc a { acc with obuf := resize acc.obuf acc.ramdiskOut.size }) :=
  (run_then (run_ofAcc here) _).trans (run_onAcc here)

theorem run_ubpfExec (here : s.objs a = some acc) (firmware : List UInt8) : (ubpfExec L a firmware).run s =
    some ((L.ubpfExec s.clock firmware acc.ibuf acc.obuf).1, Apu.putAcc { s with clock := s.clock + 1 } a
      { acc with obuf := (List.range acc.obuf.length).map (L.ubpfExec s.clock firmware acc.ibuf acc.obuf).2 }) := run_onAcc here

/-- The part of `runBPF` behind the two checks. -/
def executeBPF (L : Linux) (a : Nat) (firmware : List UInt8) : AccCode Unit := do
  let input ← ofAcc a .ramdiskIn (·.ramdiskIn.enabled)
  .when input (ramdiskToBuf L a)
  let output ← ofAcc a .ramdiskOut (·.ramdiskOut.enabled)
  .when output (resizeObuf a)
  let _ ← ubpfExec L a firmware
  let output ← ofAcc a .ramdiskOut (·.ramdiskOut.enabled)
  .when output (bufToRamdisk L a)
  setState a .done
  logId a

/-- Creation and load, and what follows from each. -/
theorem run_runBPF (here : s.objs a = some acc) : (runBPF L a).run s =
    if L.ubpfCreate s.clock = false then
      some ((), Apu.putAcc { s with clock := s.clock + 1 } a { acc with state := .fail })
    else if L.ubpfLoadElf (s.clock + 1) acc.firmware = false then
      some ((), Apu.putAcc { s with clock := s.clock + 2 } a { acc with state := .fail })
    else (executeBPF L a acc.firmware).run (Apu.putAcc { s with clock := s.clock + 2 } a { acc with state := .running }) := by
  rw [runBPF, run_then (run_logId here), run_then (run_setState here .running), run_then run_ubpfCreate, Prog.run_ite]
  refine ite_congr rfl (fun _ => ?_) fun _ => ?_
  · have running := putAcc_objs { s with clock := s.clock + 1 } a { acc with state := .running }
    refine (run_failed running).trans ?_
    rw [putAcc_putAcc]
  · have running := putAcc_objs { s with clock := s.clock + 1 } a { acc with state := .running }
    refine (run_then (run_ubpfLoadElf running) _).trans ?_
    rw [Prog.run_ite]
    refine ite_congr rfl (fun _ => ?_) fun _ => rfl
    have running := putAcc_objs { s with clock := s.clock + 2 } a { acc with state := .running }
    refine (run_failed running).trans ?_
    rw [putAcc_putAcc]

theorem length_resize (l : List UInt8) (n : Nat) : (resize l n).length = n := by
  rw [resize, List.length_append, List.length_take, List.length_replicate]
  omega

/-- The object with its output window, before a question to Linux. -/
structure Holding (a : Nat) (w : Window) (clock : Nat) (s : Apu) (acc : Acc) : Prop where
  here : s.objs a = some acc
  window : acc.ramdiskOut = w
  clock : s.clock = clock

theorem holding_input {w : Window} {n : Nat} (h : Holding a w n s acc)
    (mapped : acc.ramdiskIn.enabled → L.mmap n acc.ramdiskIn.base acc.ramdiskIn.size = true) :
    ∃ t acc', (Prog.when acc.ramdiskIn.enabled (ramdiskToBuf L a)).run s = some ((), t) ∧
      Holding a w (n + if acc.ramdiskIn.enabled then 1 else 0) t acc' := by
  rw [Prog.run_when]
  split
  · rename_i enabled
    exact ⟨_, _, run_ramdiskToBuf h.here (h.clock ▸ mapped enabled), putAcc_objs .., h.window, congrArg (· + 1) h.clock⟩
  · exact ⟨s, acc, rfl, h⟩

theorem holding_output {w : Window} {n : Nat} (h : Holding a w n s acc) :
    ∃ t acc', (Prog.when acc.ramdiskOut.enabled (resizeObuf a)).run s = some ((), t) ∧ Holding a w n t acc' ∧
      (w.enabled → acc'.obuf.length = w.size) := by
  rw [Prog.run_when, h.window]
  split
  · refine ⟨_, _, run_resizeObuf h.here, ⟨putAcc_objs .., h.window, h.clock⟩, fun _ => ?_⟩
    rw [length_resize, h.window]
  · exact ⟨s, acc, rfl, h, fun enabled => absurd enabled ‹_›⟩

theorem holding_exec {w : Window} {n : Nat} (h : Holding a w n s acc) (firmware : List UInt8) :
    ∃ r t acc', (ubpfExec L a firmware).run s = some (r, t) ∧ Holding a w (n + 1) t acc' ∧ acc'.obuf.length = acc.obuf.length := by
  refine ⟨_, _, _, run_ubpfExec h.here firmware, ⟨putAcc_objs .., h.window, congrArg (· + 1) h.clock⟩, ?_⟩
  rw [List.length_map, List.length_range]

theorem holding_store {w : Window} {n : Nat} (h : Holding a w n s acc) (length : w.enabled → acc.obuf.length = w.size)
    (mapped : w.enabled → L.mmap n w.base w.size = true) :
    ∃ t, (Prog.when acc.ramdiskOut.enabled (bufToRamdisk L a)).run s = some ((), t) ∧ t.objs a = some acc := by
  obtain ⟨here, rfl, rfl⟩ := h
  rw [Prog.run_when]
  split
  · rename_i enabled
    exact ⟨_, run_bufToRamdisk here (length enabled) (mapped enabled), here⟩
  · exact ⟨s, rfl, here⟩

/-- With its windows mapped the rest of the run ends as done, whatever the program returns. -/
theorem run_executeBPF (here : s.objs a = some acc)
    (input : acc.ramdiskIn.enabled → L.mmap s.clock acc.ramdiskIn.base acc.ramdiskIn.size = true)
    (output : acc.ramdiskOut.enabled → L.mmap (s.clock + (if acc.ramdiskIn.enabled then 1 else 0) + 1)
      acc.ramdiskOut.base acc.ramdiskOut.size = true) (firmware : List UInt8) :
    ∃ t acc', (executeBPF L a firmware).run s = some ((), t) ∧ t.objs a = some acc' ∧ acc'.state = .done := by
  obtain ⟨s₁, acc₁, first, ready₁⟩ := holding_input ⟨here, rfl, rfl⟩ input
  obtain ⟨s₂, acc₂, second, ready₂, length₂⟩ := holding_output ready₁
  obtain ⟨r, s₃, acc₃, third, ready₃, length₃⟩ := holding_exec (L := L) ready₂ firmware
  obtain ⟨s₄, fourth, here₄⟩ := holding_store ready₃ (fun enabled => length₃.trans (length₂ enabled)) output
  refine ⟨s₄.putAcc a { acc₃ with state := .done }, { acc₃ with state := .done }, ?_, putAcc_objs .., rfl⟩
  rw [executeBPF, run_then (run_ofAcc here), run_then first, run_then (run_ofAcc ready₁.here), run_then second, run_then third,
    run_then (run_ofAcc ready₃.here), run_then fourth, run_then (run_setState here₄ .done), run_logId (putAcc_objs ..)]

/-- What ends leaves the accelerator as done. -/
def EndsDone (a : Nat) {α : Type} (p : AccCode α) : Prop :=
  ∀ s r t, p.run s = some (r, t) → ∃ acc, t.objs a = some acc ∧ acc.state = .done

theorem endsDone_bind {α β : Type} {p : AccCode β} {g : β → AccCode α} (h : ∀ b, EndsDone a (g b)) : EndsDone a (p >>= g) := by
  intro s r t run
  rw [Prog.run_bind] at run
  obtain ⟨u, -, run⟩ := Option.bind_eq_some_iff.mp run
  exact h u.1 u.2 r t run

theorem endsDone_last : EndsDone a (setState a .done >>= fun _ => logId a) := by
  intro s r t run
  cases here : s.objs a with
  | none =>
    rw [Prog.run_bind, setState, onAcc, Prog.run_bind, Prog.run_swap, here] at run
    cases run
  | some acc =>
    rw [run_then (run_setState here .done), run_logId (putAcc_objs ..)] at run
    cases run
    exact ⟨_, putAcc_objs .., rfl⟩

theorem endsDone_executeBPF (firmware : List UInt8) : EndsDone a (executeBPF L a firmware) :=
  endsDone_bind fun _ => endsDone_bind fun _ => endsDone_bind fun _ => endsDone_bind fun _ => endsDone_bind fun _ =>
    endsDone_bind fun _ => endsDone_bind fun _ => endsDone_last

end Spec

/-- The machine is not created, its code is not loaded, or nothing fails. -/
theorem reported_iff (L : Linux) (a : Nat) (s : Apu) (acc : Acc) (here : s.objs a = some acc) :
    Reported L a s acc ↔ (L.ubpfCreate s.clock = true → L.ubpfLoadElf (s.clock + 1) acc.firmware = true → Succeeded L s acc) := by
  unfold Reported
  rw [run_runBPF here]
  by_cases create : L.ubpfCreate s.clock = false
  · rw [if_pos create]
    refine iff_of_true ⟨_, _, rfl, putAcc_objs .., fun h => absurd (create ▸ h.create) nofun, fun _ => ⟨rfl, fun _ _ => rfl⟩⟩ ?_
    exact fun h => absurd (create ▸ h) nofun
  by_cases load : L.ubpfLoadElf (s.clock + 1) acc.firmware = false
  · rw [if_neg create, if_pos load]
    refine iff_of_true ⟨_, _, rfl, putAcc_objs .., fun h => absurd (load ▸ h.load) nofun, fun _ => ⟨rfl, fun _ _ => rfl⟩⟩ ?_
    exact fun _ h => absurd (load ▸ h) nofun
  rw [if_neg create, if_neg load]
  constructor
  · rintro ⟨t, acc', run, obj, -, failed⟩ - -
    obtain ⟨last, there, done⟩ := endsDone_executeBPF acc.firmware _ _ _ run
    rw [obj, Option.some.injEq] at there
    by_contra not
    have fail := (failed not).1
    rw [there, done] at fail
    cases fail
  · intro succeeds
    have success := succeeds (Bool.eq_true_of_not_eq_false create) (Bool.eq_true_of_not_eq_false load)
    have running := putAcc_objs { s with clock := s.clock + 2 } a { acc with state := .running }
    obtain ⟨t, acc', run, there, done⟩ := run_executeBPF running success.input success.output acc.firmware
    exact ⟨t, acc', run, there, fun _ => done, fun not => absurd success not⟩

/-- A program that reports an error. -/
def failingExec : Linux := { plainLinux with ubpfExec := fun _ _ _ obuf => (-1, fun i => obuf.getD i 0) }

/-- The error of `ubpf_exec` is logged, not reported. -/
theorem exec_error_done : ¬∀ (L : Linux) (a : Nat) (s : Apu) (acc : Acc), s.objs a = some acc → Reported L a s acc := by
  intro claim
  obtain ⟨t, acc, run, obj, -, failed⟩ := claim failingExec 0 (Apu.boot (fun _ => 0) noHeads) { id := 0 } rfl
  have done : ((runBPF failingExec 0).run (Apu.boot (fun _ => 0) noHeads)).map (fun r => (r.2.objs 0).map Acc.state) =
      some (some .done) := by
    decide +kernel
  rw [run, Option.map_some, obj, Option.map_some, Option.some.injEq, Option.some.injEq] at done
  have fail := (failed fun success => absurd success.exec (by decide)).1
  rw [done] at fail
  cases fail

theorem plain_run_reported : Reported plainLinux 0 (Apu.boot (fun _ => 0) noHeads) { id := 0 } :=
  (reported_iff plainLinux 0 _ { id := 0 } rfl).mpr fun create load => ⟨create, load, nofun, rfl, nofun⟩

end AlkaliFw
