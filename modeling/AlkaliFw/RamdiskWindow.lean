import AlkaliFw.Blocks
import AlkaliFw.Flash
import AlkaliFw.Lifecycle

/-! The ranges of physical memory that accelerators map. A thread takes base and size of a
window in two actions, and the handlers of the LBA commands store both as 32-bit numbers
without a look at the ramdisk. -/

namespace AlkaliFw
open Resumption

def ramdiskSize : Nat := 384 * 1024 * 1024

/-- Every address of the range lies in the ramdisk. -/
def InRamdisk (base len : Nat) : Prop := len = 0 ∨ ramdiskBase ≤ base ∧ base + len ≤ ramdiskBase + ramdiskSize

instance (base len : Nat) : Decidable (InRamdisk base len) := by
  unfold InRamdisk
  infer_instance

theorem inRamdisk_iff (base len : Nat) :
    InRamdisk base len ↔ ∀ a, base ≤ a → a < base + len → ramdiskBase ≤ a ∧ a < ramdiskBase + ramdiskSize := by
  constructor
  · rintro (empty | inside) a low high <;> omega
  · intro all
    rcases Nat.eq_zero_or_pos len with empty | some'
    · exact .inl empty
    · have first := all base (Nat.le_refl _) (by omega)
      have last := all (base + len - 1) (by omega) (by omega)
      exact .inr (by omega)

/-- First address and length of the blocks that an LBA command names. -/
def SqBuf.lbaBase (b : SqBuf) : Nat := (b.cdw13 * 2 ^ 32 + b.cdw12) * ramdiskPage + ramdiskBase

def SqBuf.lbaLen (b : SqBuf) : Nat := b.cdw14 % 2 ^ 16 * ramdiskPage

def AccField.window? : AccField → AccConfig → Option Window
  | .ramdiskIn, c => some c.ramdiskIn
  | .ramdiskOut, c => some c.ramdiskOut
  | _, _ => none

def AccConfig.setWindow (c : AccConfig) (w : Window) : AccField → AccConfig
  | .ramdiskIn => { c with ramdiskIn := w }
  | .ramdiskOut => { c with ramdiskOut := w }
  | _ => c

def AccAction.window? : AccAction → Option AccField
  | .readLba => some .ramdiskIn
  | .writeLba => some .ramdiskOut
  | _ => none

/-! What a thread maps. -/

section Code

variable {α β : Type}

/-- The range that the first action maps. -/
def firstMap : AccCode α → Option (Nat × Nat)
  | .act (.mmap base len) _ _ => some (base, len)
  | _ => none

/-- The range that the second action maps, if the first is taken in `s`. -/
def secondMap (p : AccCode α) (s : Apu) : Option (Nat × Nat) :=
  match p with
  | .act _ _ k => firstMap (k s)
  | _ => none

/-- Neither of the next two actions maps anything. -/
structure Far (p : AccCode α) : Prop where
  first : firstMap p = none
  second : ∀ s, secondMap p s = none

def Apu.config (s : Apu) (a : Nat) : Option AccConfig := (s.objs a).map Acc.config

def Apu.window (s : Apu) (a : Nat) (f : AccField) : Option Window := (s.config a).bind f.window?

/-- The action reads the size of a window, for the mapping that comes next. -/
def Poised (o : Nat) (l : AccAccess) (k : Apu → AccCode α) : Prop :=
  ∃ f base, l = .acc o f ∧ ∀ s : Apu, firstMap (k s) = (s.window o f).map fun w => (base, w.size)

/-- All windows lie in the ramdisk. -/
def WindowsIn (s : Apu) : Prop :=
  ∀ (a : Nat) (f : AccField) (w : Window), s.window a f = some w → InRamdisk w.base w.size

/-- Code of the object `o` that maps nothing but the ramdisk, as long as all windows lie there
and no window changes between the two actions that read it. -/
def Sound (o : Nat) : AccCode α → Prop
  | .act l u k =>
    (∀ base len, l = .mmap base len → InRamdisk base len) ∧ ((∀ s, firstMap (k s) = none) ∨ Poised o l k) ∧
      (∀ s : Apu, s.Still (u s)) ∧ ∀ s, WindowsIn s → (∀ r, firstMap (k s) = some r → InRamdisk r.1 r.2) →
        Sound o (k s) ∧ ∀ r, secondMap (k s) (u s) = some r → InRamdisk r.1 r.2
  | _ => True

theorem firstMap_bind {p : AccCode β} {g : β → AccCode α} (far : ∀ b, firstMap (g b) = none) :
    firstMap (p >>= g) = firstMap p := by
  cases p with
  | pure b => exact far b
  | act l u k => cases l <;> rfl
  | stuck => rfl

theorem secondMap_bind {p : AccCode β} {g : β → AccCode α} (far : ∀ b, Far (g b)) (s : Apu) :
    secondMap (p >>= g) s = secondMap p s := by
  cases p with
  | pure b => exact (far b).second s
  | act l u k => exact firstMap_bind fun b => (far b).first
  | stuck => rfl

theorem Far.bind {p : AccCode β} {g : β → AccCode α} (hp : Far p) (hg : ∀ b, Far (g b)) : Far (p >>= g) :=
  ⟨(firstMap_bind fun b => (hg b).first).trans hp.first, fun s => (secondMap_bind hg s).trans (hp.second s)⟩

theorem Sound.bind {o : Nat} {p : AccCode β} {g : β → AccCode α} (hp : Sound o p) (far : ∀ b, Far (g b))
    (hg : ∀ b, Sound o (g b)) : Sound o (p >>= g) := by
  change Sound o (Prog.bind p g)
  induction p with
  | pure b => exact hg b
  | act l u k ih =>
    obtain ⟨maps, shape, still, next⟩ := hp
    have first (s : Apu) : firstMap (Prog.bind (k s) g) = firstMap (k s) := firstMap_bind fun b => (far b).first
    refine ⟨maps, ?_, still, fun s inside contained => ?_⟩
    · refine shape.imp (fun none s => (first s).trans (none s)) ?_
      rintro ⟨f, base, label, poised⟩
      exact ⟨f, base, label, fun s => (first s).trans (poised s)⟩
    · rw [first] at contained
      obtain ⟨sound, second⟩ := next s inside contained
      exact ⟨ih s sound, fun r hr => second r ((secondMap_bind far (u s)).symm.trans hr)⟩
  | stuck => trivial

/-- Code for `o` that does not start with a mapping. -/
structure Tame (o : Nat) (p : AccCode α) : Prop where
  sound : Sound o p
  far : Far p

theorem tame_pure {o : Nat} (a : α) : Tame o (Pure.pure a : AccCode α) := ⟨trivial, rfl, fun _ => rfl⟩

theorem tame_stuck {o : Nat} : Tame o (.stuck : AccCode α) := ⟨trivial, rfl, fun _ => rfl⟩

theorem tame_bind {o : Nat} {p : AccCode β} {g : β → AccCode α} (hp : Tame o p) (hg : ∀ b, Tame o (g b)) : Tame o (p >>= g) :=
  ⟨hp.sound.bind (fun b => (hg b).far) fun b => (hg b).sound, hp.far.bind fun b => (hg b).far⟩

theorem tame_ite {o : Nat} {c : Prop} [Decidable c] {p q : AccCode α} (hp : c → Tame o p) (hq : ¬c → Tame o q) :
    Tame o (if c then p else q) := by
  split
  · exact hp ‹_›
  · exact hq ‹_›

theorem tame_when {o : Nat} {c : Prop} [Decidable c] {p : AccCode Unit} (hp : c → Tame o p) : Tame o (Prog.when c p) :=
  tame_ite hp fun _ => tame_pure ()

theorem tame_swap {o : Nat} {l : AccAccess} {g : Apu → α × Apu} (plain : ∀ base len, l ≠ .mmap base len)
    (still : ∀ s : Apu, s.Still (g s).2) : Tame o (.swap l g) := by
  refine ⟨⟨fun base len e => absurd e (plain base len), .inl fun _ => rfl, still, fun s _ _ => ⟨trivial, nofun⟩⟩, ?_, fun _ => rfl⟩
  cases l with
  | mmap base len => exact absurd rfl (plain base len)
  | acc => rfl
  | other => rfl

theorem tame_onAcc {a : Nat} {f : AccField} {g : Acc → Apu → α × Apu}
    (still : ∀ (acc : Acc) (s : Apu), s.objs a = some acc → s.Still (g acc s).2) : Tame a (onAcc a f g) := by
  refine tame_bind (tame_swap nofun fun s => ?_) fun r => ?_
  · cases here : s.objs a with
    | none => exact .refl s
    | some acc => exact still acc s here
  · cases r with
    | none => exact tame_stuck
    | some v => exact tame_pure v

theorem tame_ofAcc {a : Nat} {f : AccField} {get : Acc → α} : Tame a (ofAcc a f get) := tame_onAcc fun _ s _ => .refl s

section Thread

variable {L : Linux} {a : Nat}

theorem window_eq {s : Apu} {acc : Acc} (here : s.objs a = some acc) (f : AccField) :
    s.window a f = f.window? acc.config := by
  rw [Apu.window, Apu.config, here]
  rfl

theorem Apu.Still.config {s t : Apu} (h : s.Still t) (b : Nat) : t.config b = s.config b := h.objs b

/-- A read and what follows it, as one action. -/
theorem ofAcc_bind {f : AccField} {get : Acc → β} {h : β → AccCode α} :
    (ofAcc a f get >>= h) = .act (.acc a f) id fun s =>
      match s.objs a with
      | some acc => h (get acc)
      | none => .stuck := by
  refine congrArg₂ (Prog.act (AccAccess.acc a f)) (funext fun s => ?_) (funext fun s => ?_)
  · beta_reduce
    cases s.objs a <;> rfl
  · beta_reduce
    cases s.objs a <;> rfl

section Window

variable {f : AccField} {window : Acc → Window} {g : Mapped → AccCode Unit} (after : ∀ buf, Tame a (g buf))

include after

theorem firstMap_mapped {buf : Option Mapped} : firstMap (g (buf.getD ⟨0, 0⟩)) = none := (after _).far.first

theorem sound_map {base size : Nat} (inside : InRamdisk base size) :
    Sound a (Prog.swap (AccAccess.mmap base size) (mmapBuffer L base size) >>= fun buf => g (buf.getD ⟨0, 0⟩)) := by
  refine ⟨fun _ _ e => ?_, .inl fun s => (after _).far.first, fun s => .clock s _, fun s _ _ => ⟨(after _).sound, fun r hr => ?_⟩⟩
  · cases e
    exact inside
  · have none := (after ((mmapBuffer L base size s).1.getD ⟨0, 0⟩)).far.second (mmapBuffer L base size s).2
    exact absurd (none.symm.trans hr) nofun

/-- From the size on. -/
theorem sound_size (reads : ∀ acc, f.window? (Acc.config acc) = some (window acc)) (base : Nat) :
    Sound a (ofAcc a f (fun acc => (window acc).size) >>= fun size =>
      Prog.swap (AccAccess.mmap base size) (mmapBuffer L base size) >>= fun buf => g (buf.getD ⟨0, 0⟩)) := by
  rw [ofAcc_bind]
  refine ⟨nofun, .inr ⟨f, base, rfl, fun s => ?_⟩, .refl, fun s _ contained => ?_⟩
  · dsimp only
    cases here : s.objs a with
    | none =>
      rw [Apu.window, Apu.config, here]
      rfl
    | some acc =>
      rw [window_eq here, reads]
      rfl
  · dsimp only at contained ⊢
    cases here : s.objs a with
    | none => exact ⟨trivial, nofun⟩
    | some acc =>
      rw [here] at contained
      refine ⟨sound_map after (contained _ rfl), fun r hr => ?_⟩
      exact absurd ((firstMap_mapped after).symm.trans hr) nofun

/-- The base is read, and the size in the next action. -/
theorem tame_base (reads : ∀ acc, f.window? (Acc.config acc) = some (window acc)) :
    Tame a (ofAcc a f (fun acc => (window acc).base) >>= fun base => ofAcc a f (fun acc => (window acc).size) >>= fun size =>
      Prog.swap (AccAccess.mmap base size) (mmapBuffer L base size) >>= fun buf => g (buf.getD ⟨0, 0⟩)) := by
  rw [ofAcc_bind]
  refine ⟨⟨nofun, .inl fun s => ?_, .refl, fun s inside _ => ?_⟩, rfl, fun s => ?_⟩
  · dsimp only
    cases s.objs a <;> rfl
  · dsimp only
    cases here : s.objs a with
    | none => exact ⟨trivial, nofun⟩
    | some acc =>
      refine ⟨sound_size after reads _, fun r hr => ?_⟩
      dsimp only at hr
      rw [ofAcc_bind, secondMap, id_eq, here] at hr
      cases hr
      exact inside a f (window acc) ((window_eq here f).trans (reads acc))
  · rw [secondMap]
    cases s.objs a <;> rfl

end Window

theorem tame_withWindow {f : AccField} {window : Acc → Window} {move : Mapped → Nat → AccCode Unit}
    (reads : ∀ acc, f.window? (Acc.config acc) = some (window acc)) (h : ∀ buf n, Tame a (move buf n)) :
    Tame a (withWindow L a f window move) :=
  tame_base (fun buf => tame_bind tame_ofAcc fun n => tame_bind (h buf n) fun _ => tame_bind tame_ofAcc fun _ => tame_pure _) reads

theorem tame_move {f : AccField} {g : Acc → Apu → Bool × Apu}
    (still : ∀ (acc : Acc) (s : Apu), s.objs a = some acc → s.Still (g acc s).2) :
    Tame a (do
      let ok ← onAcc a f g
      if ok then pure () else .stuck : AccCode Unit) :=
  tame_bind (tame_onAcc still) fun _ => tame_ite (fun _ => tame_pure _) fun _ => tame_stuck

theorem tame_ramdiskToBuf : Tame a (ramdiskToBuf L a) := by
  refine tame_withWindow (fun _ => rfl) fun buf n => tame_move fun acc s here => ?_
  split
  · exact .put here rfl
  · exact .refl s

theorem tame_bufToRamdisk : Tame a (bufToRamdisk L a) := by
  refine tame_withWindow (fun _ => rfl) fun buf n => tame_move fun acc s here => ?_
  split
  · exact .store ‹_›
  · exact .refl s

theorem tame_logId : Tame a (logId a) := tame_bind tame_ofAcc fun _ => tame_pure _

theorem tame_setState {state : AccState} : Tame a (setState a state) := tame_onAcc fun _ _ here => .put here rfl

theorem tame_failed : Tame a (failed a) := tame_bind tame_logId fun _ => tame_setState

theorem tame_runBPF : Tame a (runBPF L a) := by
  refine tame_bind tame_logId fun _ => tame_bind tame_setState fun _ => ?_
  refine tame_bind (tame_swap nofun fun s => .clock s _) fun vm => tame_ite (fun _ => tame_failed) fun _ => ?_
  refine tame_bind (tame_onAcc fun _ s _ => .clock s _) fun loaded => tame_ite (fun _ => tame_failed) fun _ => ?_
  refine tame_bind tame_ofAcc fun input => tame_bind (tame_when fun _ => tame_ramdiskToBuf) fun _ => ?_
  refine tame_bind tame_ofAcc fun output => tame_bind (tame_when fun _ => ?_) fun _ => ?_
  · exact tame_bind tame_ofAcc fun _ => tame_onAcc fun _ _ here => .put here rfl
  refine tame_bind (tame_onAcc fun _ s here => .trans (.clock s (s.clock + 1)) (.put here rfl)) fun _ => ?_
  refine tame_bind tame_ofAcc fun output => tame_bind (tame_when fun _ => tame_bufToRamdisk) fun _ => ?_
  exact tame_bind tame_setState fun _ => tame_logId

end Thread
end Code

/-- The range that the action after next maps. -/
def AccThread.nextMap (t : AccThread) (s : Apu) : Option (Nat × Nat) := secondMap t.rest s

/-- Only the size of a window that is read next matters. -/
theorem Sound.reading {t : AccThread} {s : Apu} {r : Nat × Nat} (h : Sound t.obj t.rest) (hr : t.nextMap s = some r) :
    ∃ f w, t.label = some (.acc t.obj f) ∧ s.window t.obj f = some w ∧ r = (r.1, w.size) ∧
      ∀ (s' : Apu) (w' : Window), s'.window t.obj f = some w' → t.nextMap s' = some (r.1, w'.size) := by
  unfold AccThread.nextMap AccThread.label at *
  cases code : t.rest with
  | pure _ => rw [code] at hr; cases hr
  | stuck => rw [code] at hr; cases hr
  | act l u k =>
    rw [code] at h hr
    change firstMap (k s) = some r at hr
    rcases h.2.1 with none | ⟨f, base, rfl, next⟩
    · rw [none] at hr
      cases hr
    · rw [next] at hr
      obtain ⟨w, there, rfl⟩ := Option.map_eq_some_iff.mp hr
      exact ⟨f, w, rfl, there, rfl, fun s' w' there' => (next s').trans (by rw [there']; rfl)⟩

section Message

variable {L : Linux} {m : RpmsgPayload} {s t : Apu}

theorem accAction_window {b : SqBuf} {action : AccAction} {id : Nat} {f : AccField} (decoded : accAction b = some (action, id))
    (sets : action.window? = some f) :
    id = b.cdw15 ∧ (b.opc = cmdIoReadLba ∧ f = .ramdiskIn ∨ b.opc = cmdIoWriteLba ∧ f = .ramdiskOut) := by
  unfold accAction at decoded
  split at decoded
  · rename_i opc
    cases decoded
    cases sets
    exact ⟨rfl, .inl ⟨opc, rfl⟩⟩
  · rename_i opc
    cases decoded
    cases sets
    exact ⟨rfl, .inr ⟨opc, rfl⟩⟩
  any_goals split at decoded <;> cases decoded <;> cases sets
  · cases decoded

theorem configured_ioCmdLba {add : Acc → Nat → Nat → Acc} {f : AccField} {a : Nat} (here : s.accelerators[m.data.cdw15]? = some a)
    (stores : ∀ acc, (add acc (((m.data.cdw13 * 2 ^ 32 + m.data.cdw12) * ramdiskPage + ramdiskBase) % 2 ^ 64)
      (m.data.cdw14 % 2 ^ 16 * ramdiskPage % 2 ^ 32)).config = acc.config.setWindow (lbaWindow m.data) f)
    (run : (ioCmdLba add m s).map (·.sendAck m payloadAck) = some t) : s.Configured a (·.setWindow (lbaWindow m.data) f) t := by
  obtain ⟨u, lba, rfl⟩ := Option.map_eq_some_iff.mp run
  unfold ioCmdLba at lba
  dsimp only at lba
  rw [here] at lba
  exact configured_sendAck (configured_setAcc lba stores)

/-- The command sets the window of an accelerator whichever range it names. -/
theorem configured_lba {action : AccAction} {f : AccField} {id a : Nat} (h : s.handle L m = some t) (io : m.id = payloadIoCmd)
    (mapped : (mapRequest L m s).1.isSome) (decoded : accAction m.data = some (action, id)) (sets : action.window? = some f)
    (here : s.accelerators[id]? = some a) : s.Configured a (·.setWindow (lbaWindow m.data) f) t := by
  obtain ⟨n, clock⟩ := mapRequest_clock L m s
  rcases handle_cases L h with ⟨-, other, -⟩ | ⟨-, none, -⟩ | ⟨buf, -, ⟨adm, -⟩ | ⟨-, cmd⟩⟩
  · exact absurd io other
  · rw [none] at mapped
    cases mapped
  · rw [adm] at io
    cases io
  · rw [clock] at cmd
    obtain ⟨rfl, ⟨opc, rfl⟩ | ⟨opc, rfl⟩⟩ := accAction_window decoded sets
    · simp only [ioCmd, opc] at cmd
      have configured := configured_ioCmdLba (f := .ramdiskIn) (s := { s with clock := n }) here (fun _ => rfl) cmd
      exact ⟨configured.accelerators, configured.nextObj, configured.created, configured.here, configured.others⟩
    · simp only [ioCmd, opc] at cmd
      have configured := configured_ioCmdLba (f := .ramdiskOut) (s := { s with clock := n }) here (fun _ => rfl) cmd
      exact ⟨configured.accelerators, configured.nextObj, configured.created, configured.here, configured.others⟩

end Message

/-- An IO message that is carried out sets the window `f` of the object `a`. -/
structure SetsWindow (L : Linux) (S : ApuSys) (m : RpmsgPayload) (a : Nat) (f : AccField) : Prop where
  io : m.id = payloadIoCmd
  mapped : (mapRequest L m S.apu).1.isSome
  decoded : ∃ action id, accAction m.data = some (action, id) ∧ action.window? = some f ∧ S.apu.accelerators[id]? = some a

/-- The window is stored as the command names it, or is stored already. -/
def Fitting (L : Linux) (S : ApuSys) (m : RpmsgPayload) : Prop :=
  ∀ a f, SetsWindow L S m a f →
    if InRamdisk m.data.lbaBase m.data.lbaLen then m.data.lbaBase < 2 ^ 32 else S.apu.window a f = some (lbaWindow m.data)

/-- Nor does the new size reach beyond the ramdisk from a base that a thread has already read. -/
def Windowed (L : Linux) (S : ApuSys) : ApuEvent → Prop
  | .message m => Fitting L S m ∧ ∀ a f, SetsWindow L S m a f → ∀ t ∈ S.threads, t.label = some (.acc a f) →
      ∀ r, t.nextMap S.apu = some r → InRamdisk r.1 (lbaWindow m.data).size
  | _ => True

/-- What an LBA command should leave. -/
def Recorded (L : Linux) (S T : ApuSys) (m : RpmsgPayload) : Prop :=
  ∀ a f, SetsWindow L S m a f → ∀ c, S.apu.config a = some c → T.apu.config a =
    some (if InRamdisk m.data.lbaBase m.data.lbaLen then c.setWindow ⟨true, m.data.lbaBase, m.data.lbaLen⟩ f else c)

def MapsInside (S : ApuSys) : Prop := ∀ t ∈ S.threads, ∀ base len, t.label = some (.mmap base len) → InRamdisk base len

structure Fenced (S : ApuSys) : Prop where
  placed : Placed S.apu
  inside : WindowsIn S.apu
  sound : ∀ t ∈ S.threads, Sound t.obj t.rest
  next : ∀ t ∈ S.threads, ∀ r, t.nextMap S.apu = some r → InRamdisk r.1 r.2

theorem Fenced.mapsInside {S : ApuSys} (h : Fenced S) : MapsInside S := by
  intro t ht base len label
  have sound := h.sound t ht
  unfold AccThread.label at label
  split at label
  · rename_i l u k code
    cases label
    rw [code] at sound
    exact sound.1 base len rfl
  · cases label

/-- New windows lie in the ramdisk, also from a base that was read before. -/
theorem Fenced.windows {S : ApuSys} {t : Apu} (h : Fenced S) (placed : Placed t)
    (new : ∀ a f w, t.window a f = some w → S.apu.window a f = some w ∨ w.size = 0 ∨
      InRamdisk w.base w.size ∧ (S.apu.window a f).isSome ∧ ∀ th ∈ S.threads, th.label = some (.acc a f) →
        ∀ r, th.nextMap S.apu = some r → InRamdisk r.1 w.size) : Fenced { S with apu := t } := by
  refine ⟨placed, fun a f w there => ?_, h.sound, fun th hth r hr => ?_⟩
  · rcases new a f w there with old | empty | ⟨inside, -⟩
    · exact h.inside a f w old
    · exact .inl empty
    · exact inside
  · obtain ⟨f, w, label, there, read, always⟩ := (h.sound th hth).reading hr
    rw [read]
    rcases new th.obj f w there with old | empty | ⟨-, old, fits⟩
    · exact h.next th hth _ (always S.apu w old)
    · exact .inl empty
    · obtain ⟨w', old⟩ := Option.isSome_iff_exists.mp old
      exact fits th hth label (r.1, w'.size) (always S.apu w' old)

theorem Fenced.same {S : ApuSys} {t : Apu} (h : Fenced S) (placed : Placed t) (same : ∀ a, t.config a = S.apu.config a) :
    Fenced { S with apu := t } :=
  h.windows placed fun a f w there => .inl (by rw [← there, Apu.window, Apu.window, same])

theorem Fenced.calm {S : ApuSys} {t : Apu} (h : Fenced S) (calm : S.apu.Calm t) : Fenced { S with apu := t } :=
  h.same (h.placed.calm calm) calm.objs

theorem Fenced.spawn {S : ApuSys} {L : Linux} (h : Fenced S) (as : List Nat) :
    Fenced { S with threads := S.threads ++ as.filterMap (AccThread.spawn L S.apu) } := by
  have started (th : AccThread) (hth : th ∈ as.filterMap (AccThread.spawn L S.apu)) : th.rest = runBPF L th.obj := by
    obtain ⟨a, -, spawn⟩ := List.mem_filterMap.mp hth
    obtain ⟨acc, -, rfl⟩ := Option.map_eq_some_iff.mp spawn
    rfl
  refine ⟨h.placed, h.inside, fun th hth => ?_, fun th hth r hr => ?_⟩
  · rcases List.mem_append.mp hth with old | new
    · exact h.sound th old
    · rw [started th new]
      exact tame_runBPF.sound
  · rcases List.mem_append.mp hth with old | new
    · exact h.next th old r hr
    · rw [AccThread.nextMap, started th new, tame_runBPF.far.second] at hr
      cases hr

section Step

variable {L : Linux} {S T : ApuSys}

theorem update_window {s : Apu} {b : SqBuf} {id : Nat} {c : AccConfig} {action : AccAction} {f : AccField} {w : Window}
    (h : f.window? (action.update s b id c) = some w) :
    f.window? c = some w ∨ action.window? = some f ∧ w = lbaWindow b := by
  cases action <;> cases f <;> first | exact .inl h | (cases h; exact .inr ⟨rfl, rfl⟩)

theorem lbaWindow_eq (b : SqBuf) : lbaWindow b = ⟨true, b.lbaBase % 2 ^ 64 % 2 ^ 32, b.lbaLen⟩ := by
  have len : b.lbaLen < 2 ^ 32 := by
    unfold SqBuf.lbaLen ramdiskPage
    omega
  rw [lbaWindow, SqBuf.lbaBase, Nat.mod_mod, ← SqBuf.lbaLen, Nat.mod_eq_of_lt len]

theorem lbaWindow_exact_iff (b : SqBuf) : lbaWindow b = ⟨true, b.lbaBase, b.lbaLen⟩ ↔ b.lbaBase < 2 ^ 32 := by
  rw [lbaWindow_eq, Window.mk.injEq]
  constructor
  · rintro ⟨-, base, -⟩
    omega
  · intro small
    exact ⟨rfl, by omega, rfl⟩

/-- Whatever is stored for a command that fits lies in the ramdisk. -/
theorem Fenced.fitting {m : RpmsgPayload} {a : Nat} {f : AccField} (h : Fenced S) (fits : Fitting L S m) (sets : SetsWindow L S m a f) :
    InRamdisk (lbaWindow m.data).base (lbaWindow m.data).size := by
  have fit := fits a f sets
  split at fit
  · rename_i inside
    rw [(lbaWindow_exact_iff m.data).mpr fit]
    exact inside
  · exact h.inside a f _ fit

theorem fenced_reset {t : Apu} {id a : Nat} (h : Fenced S) (here : S.apu.accelerators[id]? = some a)
    (replaced : (S.apu.resetAcc id a).Calm t) : Fenced { S with apu := t } := by
  refine Fenced.calm (S := { S with apu := S.apu.resetAcc id a }) (h.windows (h.placed.reset here) fun b f w there => ?_) replaced
  by_cases gone : b = a
  · rw [gone, Apu.window, Apu.config, Apu.resetAcc] at there
    dsimp only at there
    rw [Function.update_self] at there
    cases there
  by_cases new : b = S.apu.nextObj
  · rw [new, Apu.window, Apu.config, Apu.resetAcc] at there
    rw [new] at gone
    dsimp only at there
    rw [Function.update_of_ne gone, Function.update_self] at there
    right; left
    cases f <;> cases there <;> rfl
  · rw [Apu.window, Apu.config, resetAcc_objs gone new] at there
    exact .inl there

theorem fenced_message {m : RpmsgPayload} (h : Fenced S) (meets : Windowed L S (.message m))
    (step : S.step L (.message m) = some T) : Fenced T := by
  obtain ⟨t, handled, rfl⟩ := Option.map_eq_some_iff.mp step
  refine Fenced.spawn (S := { S with apu := t }) ?_ _
  rcases message_handle handled with calm | ⟨io, mapped, n, act⟩
  · exact h.calm calm
  · have h' := h.calm (Apu.Still.clock S.apu n).toCalm
    cases act with
    | start action here started =>
      have calm : S.apu.Calm { t with created := S.apu.created } := ⟨started.accelerators, started.nextObj, rfl, started.objs⟩
      have placed : Placed { t with created := S.apu.created } := h.placed.calm calm
      exact h.same placed started.objs
    | reset action here replaced => exact fenced_reset (S := ⟨{ S.apu with clock := n }, S.threads⟩) h' here replaced
    | config decoded here configured =>
      rename_i action id a
      refine h.windows (h'.placed.configured configured) fun b f w there => ?_
      by_cases same : b = a
      · rw [same, Apu.window, Apu.config, configured.here] at there
        obtain ⟨c, config, there⟩ := Option.bind_eq_some_iff.mp there
        obtain ⟨acc, obj, rfl⟩ := Option.map_eq_some_iff.mp config
        have old : S.apu.window a f = f.window? acc.config := window_eq obj f
        rw [same, old]
        rcases update_window there with kept | ⟨sets, rfl⟩
        · exact .inl kept
        · have set : SetsWindow L S m a f := ⟨io, mapped, action, id, decoded, sets, here⟩
          refine .inr (.inr ⟨h.fitting meets.1 set, ?_, meets.2 a f set⟩)
          obtain ⟨-, ⟨-, rfl⟩ | ⟨-, rfl⟩⟩ := accAction_window decoded sets <;> rfl
      · rw [Apu.window, Apu.config, configured.others b same] at there
        exact .inl there

theorem fenced_thread {i : Nat} (h : Fenced S) (step : S.stepThread i = some T) : Fenced T := by
  unfold ApuSys.stepThread at step
  split at step
  · cases step
  · rename_i th here
    have hth := List.mem_of_getElem? here
    split at step
    · rename_i l u k code
      have sound := h.sound th hth
      have contained := h.next th hth
      unfold AccThread.nextMap at contained
      rw [code] at sound contained
      obtain ⟨-, -, still, next⟩ := sound
      obtain ⟨sound, second⟩ := next S.apu h.inside contained
      have moved := h.calm (still S.apu).toCalm
      split at step
      · cases step
        have sub := (List.eraseIdx_sublist S.threads i).subset
        exact ⟨moved.placed, moved.inside, fun v hv => moved.sound v (sub hv), fun v hv => moved.next v (sub hv)⟩
      · cases step
      · cases step
        refine ⟨moved.placed, moved.inside, fun v hv => ?_, fun v hv => ?_⟩
        · rcases List.mem_or_eq_of_mem_set hv with old | rfl
          · exact moved.sound v old
          · exact sound
        · rcases List.mem_or_eq_of_mem_set hv with old | rfl
          · exact moved.next v old
          · exact second
    · cases step

theorem fenced_boot (mem : Nat → UInt8) (heads : Nat → StatHead) : Fenced (ApuSys.boot mem heads) := by
  refine ⟨fun i a here => ?_, fun a f w there => ?_, fun t ht => ?_, fun t ht => ?_⟩
  · cases i with
    | zero =>
      cases here
      exact ⟨Nat.one_pos, _, rfl, rfl⟩
    | succ i => cases here
  · rw [Apu.window, Apu.config] at there
    change ((Function.update (fun _ => none) 0 (some { id := 0 }) a).map Acc.config).bind f.window? = some w at there
    by_cases zero : a = 0
    · rw [zero, Function.update_self] at there
      cases f <;> cases there <;> exact .inl rfl
    · rw [Function.update_of_ne zero] at there
      cases there
  · cases ht
  · cases ht

theorem setWindow_inj {c : AccConfig} {v w : Window} {f : AccField} (set : f = .ramdiskIn ∨ f = .ramdiskOut) :
    c.setWindow v f = c.setWindow w f ↔ v = w := by
  refine ⟨fun same => ?_, fun same => same ▸ rfl⟩
  rcases set with rfl | rfl
  · exact congrArg AccConfig.ramdiskIn same
  · exact congrArg AccConfig.ramdiskOut same

theorem setWindow_same {c : AccConfig} {w : Window} {f : AccField} (set : f = .ramdiskIn ∨ f = .ramdiskOut) :
    c.setWindow w f = c ↔ f.window? c = some w := by
  rcases set with rfl | rfl
  · refine ⟨fun same => congrArg (some ∘ AccConfig.ramdiskIn) same.symm, fun same => ?_⟩
    cases same
    rfl
  · refine ⟨fun same => congrArg (some ∘ AccConfig.ramdiskOut) same.symm, fun same => ?_⟩
    cases same
    rfl

theorem recorded_iff {m : RpmsgPayload} (h : Fenced S) (step : S.step L (.message m) = some T) :
    Recorded L S T m ↔ Fitting L S m := by
  obtain ⟨t, handled, rfl⟩ := Option.map_eq_some_iff.mp step
  refine forall_congr' fun a => forall_congr' fun f => forall_congr' fun sets => ?_
  obtain ⟨action, id, decoded, windowed, here⟩ := sets.decoded
  have set : f = .ramdiskIn ∨ f = .ramdiskOut := (accAction_window decoded windowed).2.imp And.right And.right
  obtain ⟨-, c, config, -⟩ := h.placed id a here
  have after : t.config a = some (c.setWindow (lbaWindow m.data) f) := by
    rw [Apu.config, (configured_lba handled sets.io sets.mapped decoded windowed here).here]
    obtain ⟨acc, obj, rfl⟩ := Option.map_eq_some_iff.mp config
    rw [obj]
    rfl
  have before : S.apu.window a f = f.window? c := congrArg (·.bind f.window?) config
  have only (P : AccConfig → Prop) : (∀ d, S.apu.config a = some d → P d) ↔ P c :=
    ⟨fun all => all c config, fun hc d hd => Option.some.inj (config.symm.trans hd) ▸ hc⟩
  rw [only, after, Option.some.injEq, before]
  split
  · rw [setWindow_inj set, lbaWindow_exact_iff]
  · rw [setWindow_same set]

theorem fenced_run {mem : Nat → UInt8} {heads : Nat → StatHead} (run : ApuRun L (Windowed L) (ApuSys.boot mem heads) S) :
    Fenced S := by
  induction run with
  | refl => exact fenced_boot mem heads
  | step e _ meets next ih =>
    cases e with
    | message m => exact fenced_message ih meets next
    | thread i => exact fenced_thread ih next
    | memory mem =>
      cases next
      exact ih.calm ⟨rfl, rfl, rfl, fun _ => rfl⟩

end Step

/-- Commands that name blocks of the ramdisk, and windows that stay while a thread reads them. -/
theorem maps_ramdisk_of_windowed (L : Linux) (mem : Nat → UInt8) (heads : Nat → StatHead) (S : ApuSys)
    (run : ApuRun L (Windowed L) (ApuSys.boot mem heads) S) :
    MapsInside S ∧ ∀ m T, S.step L (.message m) = some T → (Recorded L S T m ↔ Fitting L S m) :=
  ⟨(fenced_run run).mapsInside, fun _ _ step => recorded_iff (fenced_run run) step⟩

/-- The page behind the ramdisk, for one START. -/
theorem maps_behind_ramdisk : ¬∀ (L : Linux) (mem : Nat → UInt8) (heads : Nat → StatHead) (S : ApuSys),
    ApuRun L (fun _ _ => True) (ApuSys.boot mem heads) S →
      MapsInside S ∧ ∀ m T, S.step L (.message m) = some T → Recorded L S T m := by
  intro claim
  let S₀ := ApuSys.boot (fun _ => 0) noHeads
  have runs : (S₀.stepAll plainLinux ([.message (lbaMessage 98304 1), .message (accCtl 1)] ++ List.replicate 7 (.thread 0))).map
      (fun S => S.threads.map AccThread.label) = some [some (.mmap (2 ^ 31) 4096)] := by
    decide +kernel
  obtain ⟨S, all, labels⟩ := Option.map_eq_some_iff.mp runs
  obtain ⟨t, threads, label⟩ := List.map_eq_singleton_iff.mp labels
  have maps := (claim plainLinux _ _ S ((ApuRun.refl S₀).all plainLinux (fun _ _ _ => trivial) all)).1
  exact absurd (maps t (by rw [threads]; exact List.mem_singleton_self t) _ _ label) (by decide)

/-- One page of the ramdisk, for one START. -/
theorem maps_page_of_ramdisk : ∃ S t, t ∈ S.threads ∧ t.label = some (.mmap 0x68001000 4096) ∧ MapsInside S := by
  let S₀ := ApuSys.boot (fun _ => 0) noHeads
  have first : (S₀.step plainLinux (.message (lbaMessage 1 1))).isSome := by decide +kernel
  obtain ⟨S₁, first⟩ := Option.isSome_iff_exists.mp first
  have runs : ((S₀.step plainLinux (.message (lbaMessage 1 1))).bind fun S₁ => (S₁.step plainLinux (.message (accCtl 1))).bind fun S₂ =>
      (S₂.stepAll plainLinux (List.replicate 7 (.thread 0))).map fun S => S.threads.map AccThread.label) =
        some [some (.mmap 0x68001000 4096)] := by
    decide +kernel
  rw [first, Option.bind_some] at runs
  obtain ⟨S₂, second, runs⟩ := Option.bind_eq_some_iff.mp runs
  obtain ⟨S, all, labels⟩ := Option.map_eq_some_iff.mp runs
  obtain ⟨t, threads, label⟩ := List.map_eq_singleton_iff.mp labels
  have page : InRamdisk (lbaMessage 1 1).data.lbaBase (lbaMessage 1 1).data.lbaLen ∧ (lbaMessage 1 1).data.lbaBase < 2 ^ 32 := by
    decide
  have lba : Windowed plainLinux S₀ (.message (lbaMessage 1 1)) :=
    ⟨fun a f _ => by rw [if_pos page.1]; exact page.2, fun a f _ t ht => nomatch ht⟩
  have none (S : ApuSys) (a : Nat) (f : AccField) : ¬SetsWindow plainLinux S (accCtl 1) a f := by
    rintro ⟨-, -, action, id, decoded, window, -⟩
    cases decoded
    cases window
  have start : Windowed plainLinux S₁ (.message (accCtl 1)) :=
    ⟨fun a f sets => absurd sets (none S₁ a f), fun a f sets => absurd sets (none S₁ a f)⟩
  have begun : ApuRun plainLinux (Windowed plainLinux) S₀ S₂ := ((ApuRun.refl S₀).step _ lba first).step _ start second
  have run := begun.all plainLinux (fun e he S => by rw [List.eq_of_mem_replicate he]; trivial) all
  exact ⟨S, t, by rw [threads]; exact List.mem_singleton_self t, label, (maps_ramdisk_of_windowed plainLinux _ _ S run).1⟩

end AlkaliFw
