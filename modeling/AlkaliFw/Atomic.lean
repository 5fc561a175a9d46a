import AlkaliFw.Ledger

/-! Runs in which interrupt handlers and the calls of the polling thread are atomic: an answer
of the APU is handled in one step. The history of a run lists its steps, newest first, each
with the state before it. -/

namespace AlkaliFw
open Resumption

section

variable (P : Platform)

/-- The code that runs in a step, and the state in which it begins. -/
def Fw.code (s : Fw) : Event → Option (Code Unit × Fw)
  | .tcIrq => some (nvmeTcIrqHandler P, s)
  | .dmaIrq => some (nvmeDmaIrqHandler (callback P), s)
  | .reply i withData => s.apu[i]?.map fun m =>
    (rpmsgEndpointCb P { m with id := if withData then rpmsgCmdReturnDataId else rpmsgCmdReturn },
      { s with apu := s.apu.eraseIdx i })
  | _ => none

def Fw.whole (s : Fw) (e : Event) : Option Fw :=
  match s.code P e with
  | some (p, t) => (p.run t).map (·.2)
  | none => s.env P e

/-- The states that the firmware passes through in a step. -/
def Fw.passes (s : Fw) (e : Event) : List Fw :=
  match s.code P e with
  | some (p, t) => p.states t
  | none => [s]

abbrev History := List (Fw × Event)

inductive AtomicRun (s₀ : Fw) : History → Fw → Prop where
  | start : AtomicRun s₀ [] s₀
  | step {past : History} {s t : Fw} (e : Event) (run : AtomicRun s₀ past s) (next : s.whole P e = some t) :
      AtomicRun s₀ ((s, e) :: past) t

/-- Execute a sequence of events. -/
def Fw.play (s : Fw) (past : History) : List Event → Option (History × Fw)
  | [] => some (past, s)
  | e :: es => (s.whole P e).bind fun t => t.play ((s, e) :: past) es

end

section

variable {P : Platform} {s₀ s t : Fw} {past : History}

theorem AtomicRun.play {r : History × Fw} {es : List Event} (run : AtomicRun P s₀ past s) (h : s.play P past es = some r) :
    AtomicRun P s₀ r.1 r.2 := by
  induction es generalizing past s with
  | nil =>
    cases h
    exact run
  | cons e es ih =>
    obtain ⟨t, next, rest⟩ := Option.bind_eq_some_iff.mp h
    exact ih (run.step e next) rest

/-- A step is one of the surroundings, or the thread handles an answer. -/
theorem Fw.whole_cases {e : Event} (next : s.whole P e = some t) :
    s.env P e = some t ∨ ∃ i withData m, e = .reply i withData ∧ s.apu[i]? = some m ∧
      (rpmsgEndpointCb P { m with id := if withData then rpmsgCmdReturnDataId else rpmsgCmdReturn }).run
        { s with apu := s.apu.eraseIdx i } = some ((), t) := by
  cases e with
  | reply i withData =>
    right
    cases request : s.apu[i]? with
    | none =>
      simp only [Fw.whole, Fw.code, request, Option.map_none] at next
      cases next
    | some m =>
      simp only [Fw.whole, Fw.code, request, Option.map_some] at next
      obtain ⟨⟨⟨⟩, u⟩, run, rfl⟩ := Option.map_eq_some_iff.mp next
      exact ⟨i, withData, m, rfl, request, run⟩
  | _ => exact .inl next

/-- An action of the thread gives no slot away. -/
theorem slotKept_poll {S : Sys} (sound : S.Sound P) : SlotKept P S .poll := by
  intro call _ _ o new _
  cases step : S.step P .poll with
  | none =>
    simp only [Sys.news, step] at new
    cases new
  | some T =>
    obtain ⟨call, l, f, k, here, rest, fw, -⟩ := Sys.pollStep_act (show S.pollStep = some T from step)
    have acts := sound.acts call here
    rw [rest] at acts
    have act := (acts S.fw sound.fitted).1
    rw [← fw] at act
    have trace := Sys.trace_eq step sound
    have only {x : Obs} (noted : T.fw.trace = x :: S.fw.trace) : o = x := by
      have news : [x] = S.news P .poll := List.append_cancel_right (noted.symm.trans trace)
      rw [← news] at new
      exact List.mem_singleton.mp new
    cases act.effect with
    | none _ same =>
      rw [same] at trace
      rw [List.self_eq_append_left.mp trace] at new
      cases new
    | note x _ noted plain =>
      obtain rfl := only noted
      cases o <;> first | rfl | exact plain.elim
    | put at' d _ _ _ _ queued =>
      rw [only queued]
      rfl

/-- The thread finishes a call action by action. -/
theorem Run.polls {S₀ : Sys} {p : Code Unit} {l : Access} {call : Call} {next : Option Call} {u : Fw}
    (sound : ∀ S, Run P (SlotKept P) S₀ S → S.Sound P) (goes : call.next l p = some next) (run : p.run u = some ((), t))
    (before : Run P (SlotKept P) S₀ ⟨u, next⟩) : Run P (SlotKept P) S₀ ⟨t, none⟩ := by
  induction p generalizing l call next u with
  | pure a =>
    cases goes
    cases run
    exact before
  | act m f k ih =>
    cases goes
    change (k u).run (f u) = _ at run
    let now : Call := { call with given := call.given || l.givesUp call.cmd, rest := .act m f k }
    have more : ∃ next, now.next m (k u) = some next := by
      cases e : k u with
      | pure a => exact ⟨_, rfl⟩
      | act => exact ⟨_, rfl⟩
      | stuck =>
        rw [e] at run
        cases run
    obtain ⟨next, more⟩ := more
    have step : Sys.step P ⟨u, some now⟩ .poll = some ⟨f u, next⟩ := by
      change (now.next m (k u)).map _ = _
      rw [more]
      rfl
    exact ih u more run (before.step .poll (slotKept_poll (sound _ before)) step)
  | stuck => cases run

/-- An atomic run is one in which the thread finishes each call before anything else happens. -/
theorem AtomicRun.run {host ram : Nat → UInt8} (run : AtomicRun P (Sys.boot host ram).fw past s) :
    Run P (SlotKept P) (Sys.boot host ram) ⟨s, none⟩ := by
  induction run with
  | start => exact .refl _
  | @step past s t e _ next ih =>
    have free (e : Event) : SlotKept P ⟨s, none⟩ e := fun call here => nomatch here
    rcases Fw.whole_cases next with env | ⟨i, withData, m, rfl, request, run⟩
    · refine ih.step e (free e) ?_
      cases e with
      | reply i withData => cases env
      | poll => cases env
      | _ =>
        simp only [Sys.step, env]
        rfl
    · obtain ⟨next, goes⟩ : ∃ next, (Call.mk m.priv withData false (.pure ())).next .other
          (rpmsgEndpointCb P { m with id := if withData then rpmsgCmdReturnDataId else rpmsgCmdReturn }) = some next := by
        generalize rpmsgEndpointCb P _ = p at run
        cases p with
        | pure a => exact ⟨_, rfl⟩
        | act => exact ⟨_, rfl⟩
        | stuck => cases run
      refine Run.polls (fun _ run => run.sound) goes run (ih.step (.reply i withData) (free _) ?_)
      simp only [Sys.step, Sys.startCall, request, goes, Option.map_some]

variable {host ram : Nat → UInt8}

/-- Between the steps of an atomic run every command stands somewhere. -/
theorem AtomicRun.standing (run : AtomicRun P (Sys.boot host ram).fw past s) (c : Slot) : Standing P c (s.view c) := by
  rcases (run.run.ledger fun _ _ kept => kept).standing c with standing | ⟨call, here, -⟩
  · exact standing
  · cases here

theorem AtomicRun.engine (run : AtomicRun P (Sys.boot host ram).fw past s) : Engine [] (fun _ => .steady) s := run.run.engine

/-- Whatever acts on the shared state is made of the actions that a closed property knows. -/
theorem AtomicRun.closed {I : Fw → Prop} (h : Closed P I) (run : AtomicRun P (Sys.boot host ram).fw past s)
    (hs : I (Sys.boot host ram).fw) : I s := run.run.closed h hs

end
end AlkaliFw
