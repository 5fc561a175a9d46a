import Mathlib

/-! Code that other code may interrupt. A `Prog` is a sequence of atomic actions on a
shared state, each under a label that says what it touches; which action comes next may
depend on the state that the last one met. `stuck` is undefined behaviour. `run`
executes a program without interruption. `Safe` lets the surroundings act before every
action, as far as a rely relation permits it for the label of that action. -/

namespace AlkaliFw.Resumption

inductive Prog (lab σ α : Type) where
  | pure (value : α) : Prog lab σ α
  | act (label : lab) (update : σ → σ) (next : σ → Prog lab σ α) : Prog lab σ α
  | stuck : Prog lab σ α

variable {lab σ α β : Type}

namespace Prog

def bind : Prog lab σ α → (α → Prog lab σ β) → Prog lab σ β
  | .pure a, g => g a
  | .act l f k, g => .act l f fun s => bind (k s) g
  | .stuck, _ => .stuck

instance : Monad (Prog lab σ) where
  pure := .pure
  bind := .bind

/-- Read a value; the state stays as it is. -/
def look (l : lab) (f : σ → α) : Prog lab σ α := .act l id fun s => .pure (f s)

def change (l : lab) (f : σ → σ) : Prog lab σ Unit := .act l f fun _ => .pure ()

/-- One atomic action that answers and changes the state together. -/
def swap (l : lab) (f : σ → α × σ) : Prog lab σ α :=
  .act l (fun s => (f s).2) fun s => .pure (f s).1

def when (c : Prop) [Decidable c] (p : Prog lab σ Unit) : Prog lab σ Unit := if c then p else .pure ()

def run : Prog lab σ α → σ → Option (α × σ)
  | .pure a, s => some (a, s)
  | .act _ f k, s => run (k s) (f s)
  | .stuck, _ => none

@[simp] theorem run_pure (a : α) (s : σ) : run (Pure.pure a : Prog lab σ α) s = some (a, s) := rfl

@[simp] theorem run_stuck (s : σ) : run (.stuck : Prog lab σ α) s = none := rfl

@[simp] theorem run_look (l : lab) (f : σ → α) (s : σ) : run (look l f) s = some (f s, s) := rfl

@[simp] theorem run_change (l : lab) (f : σ → σ) (s : σ) : run (change l f) s = some ((), f s) := rfl

@[simp] theorem run_swap (l : lab) (f : σ → α × σ) (s : σ) : run (swap l f) s = some (f s) := rfl

theorem run_bind (p : Prog lab σ α) (g : α → Prog lab σ β) (s : σ) :
    run (p >>= g) s = (run p s).bind fun r => run (g r.1) r.2 := by
  change run (bind p g) s = _
  induction p generalizing s with
  | pure a => rfl
  | act l f k ih => exact ih s (f s)
  | stuck => rfl

theorem run_ite (c : Prop) [Decidable c] (p q : Prog lab σ α) (s : σ) :
    run (if c then p else q) s = if c then run p s else run q s := by
  split <;> rfl

theorem run_when (c : Prop) [Decidable c] (p : Prog lab σ Unit) (s : σ) :
    run (when c p) s = if c then run p s else some ((), s) := run_ite c p _ s

/-- `p` is safe from `s`: whatever the surroundings do before each of its actions, `J` holds
there for the label of the action, and if `p` returns then `Q` holds of its value and the
state it leaves. -/
def Safe (R : lab → σ → σ → Prop) (J : lab → σ → Prop) (Q : α → σ → Prop) : Prog lab σ α → σ → Prop
  | .pure a, s => Q a s
  | .act l f k, s => ∀ t, R l s t → J l t ∧ Safe R J Q (k t) (f t)
  | .stuck, _ => True

/-- Interference that does not happen: the rely relation of code that runs atomically. -/
def Quiet : lab → σ → σ → Prop := fun _ => Eq

/-- `A` may be assumed before an action with label `l`: the surroundings keep it, and it
entails what has to hold whenever they act. -/
structure Stable (R : lab → σ → σ → Prop) (J : lab → σ → Prop) (l : lab) (A : σ → Prop) : Prop where
  keep : ∀ s t, A s → R l s t → A t
  entails : ∀ s, A s → J l s

section Rules

variable {R : lab → σ → σ → Prop} {J : lab → σ → Prop} {Q : α → σ → Prop}

theorem safe_pure {a : α} {s : σ} (h : Q a s) : Safe R J Q (Pure.pure a) s := h

theorem safe_stuck {s : σ} : Safe R J Q .stuck s := trivial

theorem safe_bind {p : Prog lab σ β} {g : β → Prog lab σ α} {s : σ}
    (h : Safe R J (fun b => Safe R J Q (g b)) p s) : Safe R J Q (p >>= g) s := by
  change Safe R J Q (bind p g) s
  induction p generalizing s with
  | pure b => exact h
  | act l f k ih => exact fun t r => ⟨(h t r).1, ih t (h t r).2⟩
  | stuck => trivial

theorem Safe.imp {Q' : α → σ → Prop} {p : Prog lab σ α} {s : σ} (h : Safe R J Q p s)
    (himp : ∀ a t, Q a t → Q' a t) : Safe R J Q' p s := by
  induction p generalizing s with
  | pure a => exact himp a s h
  | act l f k ih => exact fun t r => ⟨(h t r).1, ih t (h t r).2⟩
  | stuck => trivial

/-- Less interference, and less to hold where it happens. -/
theorem Safe.weaken {R' : lab → σ → σ → Prop} {J' : lab → σ → Prop} {p : Prog lab σ α} {s : σ} (h : Safe R J Q p s)
    (hr : ∀ l s t, R' l s t → R l s t) (hj : ∀ l s, J l s → J' l s) : Safe R' J' Q p s := by
  induction p generalizing s with
  | pure a => exact h
  | act l f k ih => exact fun t r => ⟨hj l t (h t (hr l s t r)).1, ih t (h t (hr l s t r)).2⟩
  | stuck => trivial

theorem Safe.and {J' : lab → σ → Prop} {Q' : α → σ → Prop} {p : Prog lab σ α} {s : σ} (h : Safe R J Q p s) (g : Safe R J' Q' p s) :
    Safe R (fun l s => J l s ∧ J' l s) (fun a s => Q a s ∧ Q' a s) p s := by
  induction p generalizing s with
  | pure a => exact ⟨h, g⟩
  | act l f k ih => exact fun t r => ⟨⟨(h t r).1, (g t r).1⟩, ih t (h t r).2 (g t r).2⟩
  | stuck => trivial

theorem safe_look {A : σ → Prop} {l : lab} {f : σ → α} {s : σ} (st : Stable R J l A) (hs : A s)
    (h : ∀ t, A t → Q (f t) t) : Safe R J Q (look l f) s :=
  fun t r => ⟨st.entails t (st.keep s t hs r), h t (st.keep s t hs r)⟩

theorem safe_change {A : σ → Prop} {l : lab} {f : σ → σ} {s : σ} {Q : Unit → σ → Prop}
    (st : Stable R J l A) (hs : A s) (h : ∀ t, A t → Q () (f t)) : Safe R J Q (change l f) s :=
  fun t r => ⟨st.entails t (st.keep s t hs r), h t (st.keep s t hs r)⟩

theorem safe_swap {A : σ → Prop} {l : lab} {f : σ → α × σ} {s : σ} (st : Stable R J l A) (hs : A s)
    (h : ∀ t, A t → Q (f t).1 (f t).2) : Safe R J Q (swap l f) s :=
  fun t r => ⟨st.entails t (st.keep s t hs r), h t (st.keep s t hs r)⟩

theorem safe_ite {c : Prop} [Decidable c] {p q : Prog lab σ α} {s : σ}
    (hp : c → Safe R J Q p s) (hq : ¬c → Safe R J Q q s) : Safe R J Q (if c then p else q) s := by
  split
  · exact hp ‹_›
  · exact hq ‹_›

theorem safe_when {c : Prop} [Decidable c] {p : Prog lab σ Unit} {s : σ} {Q : Unit → σ → Prop}
    (hp : c → Safe R J Q p s) (hq : ¬c → Q () s) : Safe R J Q (when c p) s := safe_ite hp hq

/-- What the surroundings did before the next action is absorbed. -/
theorem Safe.before {l : lab} {f : σ → σ} {k : σ → Prog lab σ α} {s t : σ}
    (trans : ∀ a b c, R l a b → R l b c → R l a c)
    (h : Safe R J Q (.act l f k) s) (r : R l s t) : Safe R J Q (.act l f k) t :=
  fun u r' => h u (trans s t u r r')

theorem Safe.here {l : lab} {f : σ → σ} {k : σ → Prog lab σ α} {s : σ}
    (refl : R l s s) (h : Safe R J Q (.act l f k) s) : J l s ∧ Safe R J Q (k s) (f s) := h s refl

end Rules

/-- Without interference, safety is what `run` says. -/
theorem safe_quiet_iff {Q : α → σ → Prop} (p : Prog lab σ α) (s : σ) :
    Safe Quiet (fun _ _ => True) Q p s ↔ ∀ a t, run p s = some (a, t) → Q a t := by
  induction p generalizing s with
  | pure a =>
    constructor
    · intro h b t e
      cases e
      exact h
    · intro h
      exact h a s rfl
  | act l f k ih =>
    constructor
    · intro h
      exact (ih s (f s)).mp (h s rfl).2
    · intro h t e
      cases e
      exact ⟨trivial, (ih s (f s)).mpr h⟩
  | stuck => simp [Safe]

/-- Every action of the program keeps `I`, wherever it starts. -/
def Keeps (I : σ → Prop) : Prog lab σ α → Prop
  | .pure _ => True
  | .act _ f k => (∀ s, I s → I (f s)) ∧ ∀ s, Keeps I (k s)
  | .stuck => True

section Keeps

variable {I : σ → Prop}

@[simp] theorem keeps_pure (a : α) : Keeps I (Pure.pure a : Prog lab σ α) := trivial

@[simp] theorem keeps_stuck : Keeps I (.stuck : Prog lab σ α) := trivial

@[simp] theorem keeps_look (l : lab) (f : σ → α) : Keeps I (look l f) := ⟨fun _ h => h, fun _ => trivial⟩

theorem keeps_change {l : lab} {f : σ → σ} (h : ∀ s, I s → I (f s)) : Keeps I (change l f) :=
  ⟨h, fun _ => trivial⟩

theorem keeps_bind {p : Prog lab σ β} {g : β → Prog lab σ α} (hp : Keeps I p)
    (hg : ∀ b, Keeps I (g b)) : Keeps I (p >>= g) := by
  change Keeps I (bind p g)
  induction p with
  | pure b => exact hg b
  | act l f k ih => exact ⟨hp.1, fun s => ih s (hp.2 s)⟩
  | stuck => trivial

/-- What follows an action may rely on the answer being one that the action gives. -/
theorem keeps_swap_bind {l : lab} {f : σ → β × σ} {g : β → Prog lab σ α} (hf : ∀ s, I s → I (f s).2)
    (hg : ∀ s, Keeps I (g (f s).1)) : Keeps I (swap l f >>= g) := ⟨hf, hg⟩

theorem keeps_ite {c : Prop} [Decidable c] {p q : Prog lab σ α} (hp : c → Keeps I p)
    (hq : ¬c → Keeps I q) : Keeps I (if c then p else q) := by
  split
  · exact hp ‹_›
  · exact hq ‹_›

theorem keeps_when {c : Prop} [Decidable c] {p : Prog lab σ Unit} (hp : c → Keeps I p) :
    Keeps I (when c p) := keeps_ite hp fun _ => trivial

theorem Keeps.run {p : Prog lab σ α} (h : Keeps I p) {s t : σ} {a : α} (hs : I s)
    (e : run p s = some (a, t)) : I t := by
  induction p generalizing s with
  | pure b =>
    cases e
    exact hs
  | act l f k ih => exact ih s (h.2 s) (h.1 s hs) e
  | stuck => cases e

end Keeps

/-- In states where `G` holds, every action of the program is one that `R` permits for its label. -/
def Acts (G : σ → Prop) (R : lab → σ → σ → Prop) : Prog lab σ α → Prop
  | .pure _ => True
  | .act l f k => ∀ s, G s → R l s (f s) ∧ Acts G R (k s)
  | .stuck => True

section Acts

variable {G : σ → Prop} {R : lab → σ → σ → Prop}

theorem acts_pure (a : α) : Acts G R (Pure.pure a : Prog lab σ α) := trivial

theorem acts_stuck : Acts G R (.stuck : Prog lab σ α) := trivial

theorem acts_bind {p : Prog lab σ β} {g : β → Prog lab σ α} (hp : Acts G R p)
    (hg : ∀ b, Acts G R (g b)) : Acts G R (p >>= g) := by
  change Acts G R (bind p g)
  induction p with
  | pure b => exact hg b
  | act l f k ih => exact fun s hs => ⟨(hp s hs).1, ih s (hp s hs).2⟩
  | stuck => trivial

theorem acts_look_bind {l : lab} {f : σ → β} {g : β → Prog lab σ α} (refl : ∀ s, R l s s)
    (hg : ∀ s, G s → Acts G R (g (f s))) : Acts G R (look l f >>= g) := fun s hs => ⟨refl s, hg s hs⟩

theorem acts_change {l : lab} {f : σ → σ} (h : ∀ s, R l s (f s)) : Acts G R (change l f) := fun s _ => ⟨h s, trivial⟩

theorem acts_swap_bind {l : lab} {f : σ → α × σ} {g : α → Prog lab σ β} (h : ∀ s, R l s (f s).2)
    (hg : ∀ s, Acts G R (g (f s).1)) : Acts G R (swap l f >>= g) := fun s _ => ⟨h s, hg s⟩

theorem acts_ite {c : Prop} [Decidable c] {p q : Prog lab σ α} (hp : c → Acts G R p) (hq : ¬c → Acts G R q) :
    Acts G R (if c then p else q) := by
  split
  · exact hp ‹_›
  · exact hq ‹_›

theorem acts_when {c : Prop} [Decidable c] {p : Prog lab σ Unit} (hp : c → Acts G R p) : Acts G R (when c p) :=
  acts_ite hp fun _ => trivial

theorem Acts.imp {R' : lab → σ → σ → Prop} {p : Prog lab σ α} (h : Acts G R p) (himp : ∀ l s t, R l s t → R' l s t) :
    Acts G R' p := by
  induction p with
  | pure a => trivial
  | act l f k ih => exact fun s hs => ⟨himp l s _ (h s hs).1, ih s (h s hs).2⟩
  | stuck => trivial

/-- What every permitted action keeps, the program keeps. -/
theorem Acts.run {I : σ → Prop} {p : Prog lab σ α} (h : Acts G R p) (guard : ∀ s, I s → G s)
    (closed : ∀ l s t, R l s t → I s → I t) {s t : σ} {a : α} (hs : I s) (e : run p s = some (a, t)) : I t := by
  induction p generalizing s with
  | pure b =>
    cases e
    exact hs
  | act l f k ih =>
    have here := h s (guard s hs)
    exact ih s here.2 (closed l s _ here.1 hs) e
  | stuck => cases e

end Acts

theorem bind_assoc {γ : Type} (p : Prog lab σ α) (g : α → Prog lab σ β) (h : β → Prog lab σ γ) :
    (p >>= g) >>= h = p >>= fun a => g a >>= h := by
  change bind (bind p g) h = bind p fun a => bind (g a) h
  induction p with
  | pure a => rfl
  | act l f k ih => exact congrArg _ (funext ih)
  | stuck => rfl

/-- The states that a program passes through when it runs without interruption. -/
def states : Prog lab σ α → σ → List σ
  | .act _ f k, s => s :: states (k s) (f s)
  | _, s => [s]

/-- The actions that a program takes without interruption: their labels and the states in which it takes them. -/
def points : Prog lab σ α → σ → List (lab × σ)
  | .act l f k, s => (l, s) :: points (k s) (f s)
  | _, _ => []

theorem Safe.points {J : lab → σ → Prop} {Q : α → σ → Prop} {p : Prog lab σ α} {s : σ} (h : Safe Quiet J Q p s) :
    ∀ x ∈ points p s, J x.1 x.2 := by
  induction p generalizing s with
  | pure a => exact fun _ mem => nomatch mem
  | act l f k ih =>
    have here := h s rfl
    intro x mem
    rcases List.mem_cons.mp mem with rfl | later
    · exact here.1
    · exact ih s here.2 x later
  | stuck => exact fun _ mem => nomatch mem

theorem self_mem_states (p : Prog lab σ α) (s : σ) : s ∈ states p s := by
  cases p with
  | pure a => exact List.mem_singleton_self s
  | act l f k => exact List.mem_cons_self
  | stuck => exact List.mem_singleton_self s

theorem mem_states_bind {p : Prog lab σ β} {g : β → Prog lab σ α} {b : β} {s t u : σ} (e : run p s = some (b, t))
    (mem : u ∈ states (g b) t) : u ∈ states (p >>= g) s := by
  change u ∈ states (bind p g) s
  induction p generalizing s with
  | pure c =>
    cases e
    exact mem
  | act l f k ih => exact List.mem_cons_of_mem _ (ih s e)
  | stuck => cases e

/-- Code made of actions that `R` permits and of whole runs of the programs in `call`. -/
inductive Over (G : σ → Prop) (R : lab → σ → σ → Prop) (call : Prog lab σ Unit → Prop) : {α : Type} → Prog lab σ α → Prop where
  | pure {α : Type} (a : α) : Over G R call (.pure a)
  | stuck {α : Type} : Over G R call (.stuck : Prog lab σ α)
  | act {α : Type} {l : lab} {f : σ → σ} {k : σ → Prog lab σ α} (h : ∀ s, R l s (f s))
      (rest : ∀ s, G s → Over G R call (k s)) :
      Over G R call (.act l f k)
  | call {α : Type} {p : Prog lab σ Unit} {g : Unit → Prog lab σ α} (h : call p) (rest : ∀ u, Over G R call (g u)) :
      Over G R call (p >>= g)

section Over

variable {G : σ → Prop} {R : lab → σ → σ → Prop} {call : Prog lab σ Unit → Prop}

theorem over_pure (a : α) : Over G R call (Pure.pure a : Prog lab σ α) := .pure a

theorem over_bind {p : Prog lab σ β} {g : β → Prog lab σ α} (hp : Over G R call p)
    (hg : ∀ b, Over G R call (g b)) : Over G R call (p >>= g) := by
  induction hp with
  | pure b => exact hg b
  | stuck => exact .stuck
  | act h _ ih => exact .act h ih
  | call h _ ih =>
    rw [bind_assoc]
    exact .call h ih

theorem over_look_bind {l : lab} {f : σ → β} {g : β → Prog lab σ α} (refl : ∀ s, R l s s)
    (hg : ∀ s, G s → Over G R call (g (f s))) : Over G R call (look l f >>= g) := .act refl hg

theorem over_change {l : lab} {f : σ → σ} (h : ∀ s, R l s (f s)) : Over G R call (change l f) := .act h fun _ _ => .pure _

theorem over_swap_bind {l : lab} {f : σ → β × σ} {g : β → Prog lab σ α} (h : ∀ s, R l s (f s).2)
    (hg : ∀ s, Over G R call (g (f s).1)) : Over G R call (swap l f >>= g) :=
  .act h fun s _ => hg s

theorem over_ite {c : Prop} [Decidable c] {p q : Prog lab σ α} (hp : c → Over G R call p) (hq : ¬c → Over G R call q) :
    Over G R call (if c then p else q) := by
  split
  · exact hp ‹_›
  · exact hq ‹_›

theorem over_when {c : Prop} [Decidable c] {p : Prog lab σ Unit} (hp : c → Over G R call p) : Over G R call (when c p) :=
  over_ite hp fun _ => .pure _

theorem bind_pure_unit (p : Prog lab σ Unit) : (p >>= fun _ => Pure.pure ()) = p := by
  change bind p (fun _ => .pure ()) = p
  induction p with
  | pure a => rfl
  | act l f k ih => exact congrArg _ (funext ih)
  | stuck => rfl

theorem over_call {p : Prog lab σ Unit} (h : call p) : Over G R call p := by
  have := Over.call (G := G) (R := R) h fun _ => Over.pure ()
  rwa [show (p >>= fun _ => Prog.pure ()) = p from bind_pure_unit p] at this

theorem Over.acts {R' : lab → σ → σ → Prop} {p : Prog lab σ α} (h : Over G R call p) (himp : ∀ l s t, R l s t → R' l s t)
    (hcall : ∀ p, call p → Acts G R' p) : Acts G R' p := by
  induction h with
  | pure a => trivial
  | stuck => trivial
  | act h _ ih => exact fun s hs => ⟨himp _ s _ (h s), ih s hs⟩
  | call h _ ih => exact acts_bind (hcall _ h) ih

/-- What the actions keep one by one and the calls keep as a whole, the code keeps. -/
theorem Over.run {I : σ → Prop} {p : Prog lab σ α} (h : Over G R call p) (guard : ∀ s, I s → G s)
    (closed : ∀ l s t, R l s t → I s → I t) (whole : ∀ p s t, call p → run p s = some ((), t) → I s → I t) {s t : σ} {a : α} (hs : I s)
    (e : run p s = some (a, t)) : I t := by
  induction h generalizing s with
  | pure b =>
    cases e
    exact hs
  | stuck => cases e
  | act h _ ih => exact ih s (guard s hs) (closed _ s _ (h s) hs) e
  | call h _ ih =>
    rw [run_bind] at e
    obtain ⟨⟨⟨⟩, u⟩, first, rest⟩ := Option.bind_eq_some_iff.mp e
    exact ih () (whole _ s u h first hs) rest

/-- The same, where a call may rely on the code passing through the state in which it begins. -/
theorem Over.run_states {I V : σ → Prop} {p : Prog lab σ α} (h : Over G R call p) (guard : ∀ s, I s → G s)
    (closed : ∀ l s t, R l s t → I s → I t)
    (whole : ∀ p s t, call p → Prog.run p s = some ((), t) → V s → I s → I t) {s t : σ} {a : α}
    (visits : ∀ u ∈ states p s, V u) (hs : I s) (e : Prog.run p s = some (a, t)) : I t := by
  induction h generalizing s with
  | pure b =>
    cases e
    exact hs
  | stuck => cases e
  | act h _ ih => exact ih s (guard s hs) (fun u hu => visits u (List.mem_cons_of_mem _ hu)) (closed _ s _ (h s) hs) e
  | call h _ ih =>
    have here := visits s (self_mem_states _ s)
    rw [run_bind] at e
    obtain ⟨⟨⟨⟩, u⟩, first, rest⟩ := Option.bind_eq_some_iff.mp e
    exact ih () (fun v hv => visits v (mem_states_bind first hv)) (whole _ s u h first here hs) rest

theorem Over.imp {R' : lab → σ → σ → Prop} {call' : Prog lab σ Unit → Prop} {p : Prog lab σ α} (h : Over G R call p)
    (acts : ∀ l s t, R l s t → R' l s t) (calls : ∀ p, call p → call' p) : Over G R' call' p := by
  induction h with
  | pure a => exact .pure a
  | stuck => exact .stuck
  | act h _ ih => exact .act (fun s => acts _ s _ (h s)) ih
  | call h _ ih => exact .call (calls _ h) ih

/-- Code that others may interrupt keeps `I` at every point, if they do. -/
theorem Acts.safe {I : σ → Prop} {R' : lab → σ → σ → Prop} {J : lab → σ → Prop} {p : Prog lab σ α} (h : Acts G R p) (guard : ∀ s, I s → G s)
    (closed : ∀ l s t, R l s t → I s → I t) (rely : ∀ l s t, R' l s t → I s → I t) (entails : ∀ l s t, R l s t → I s → J l s)
    {s : σ} (hs : I s) : Safe R' J (fun _ => I) p s := by
  induction p generalizing s with
  | pure a => exact hs
  | act l f k ih =>
    intro t r
    have ht := rely l s t r hs
    have here := h t (guard t ht)
    exact ⟨entails l t _ here.1 ht, ih t here.2 (closed l t _ here.1 ht)⟩
  | stuck => trivial

theorem Over.safe {I : σ → Prop} {R' : lab → σ → σ → Prop} {J : lab → σ → Prop} {p : Prog lab σ α} (h : Over G R call p)
    (guard : ∀ s, I s → G s) (closed : ∀ l s t, R l s t → I s → I t) (rely : ∀ l s t, R' l s t → I s → I t)
    (entails : ∀ l s t, R l s t → I s → J l s) (whole : ∀ q, call q → ∀ s, I s → Safe R' J (fun _ => I) q s) {s : σ} (hs : I s) :
    Safe R' J (fun _ => I) p s := by
  induction h generalizing s with
  | pure a => exact hs
  | stuck => trivial
  | act h _ ih =>
    intro t r
    have ht := rely _ s t r hs
    exact ⟨entails _ t _ (h t) ht, ih t (guard t ht) (closed _ t _ (h t) ht)⟩
  | call h _ ih => exact safe_bind ((whole _ h s hs).imp fun u t ht => ih u ht)

end Over

/-- Code made of actions that `R` permits, which may end with one of the programs in `last`. -/
inductive Until (G : σ → Prop) (R : lab → σ → σ → Prop) (last : Prog lab σ α → Prop) : Prog lab σ α → Prop where
  | pure (a : α) : Until G R last (.pure a)
  | stuck : Until G R last .stuck
  | act {l : lab} {f : σ → σ} {k : σ → Prog lab σ α} (h : ∀ s, G s → R l s (f s)) (rest : ∀ s, G s → Until G R last (k s)) :
      Until G R last (.act l f k)
  | last {p : Prog lab σ α} (h : last p) : Until G R last p

section Until

variable {G : σ → Prop} {R : lab → σ → σ → Prop} {last : Prog lab σ α → Prop}

theorem until_bind {p : Prog lab σ β} {g : β → Prog lab σ α} (hp : Acts G R p) (hg : ∀ b, Until G R last (g b)) :
    Until G R last (p >>= g) := by
  change Until G R last (bind p g)
  induction p with
  | pure b => exact hg b
  | act l f k ih => exact .act (fun s hs => (hp s hs).1) fun s hs => ih s (hp s hs).2
  | stuck => exact .stuck

theorem until_look_bind {l : lab} {f : σ → β} {g : β → Prog lab σ α} (refl : ∀ s, R l s s)
    (hg : ∀ s, G s → Until G R last (g (f s))) : Until G R last (look l f >>= g) := .act (fun s _ => refl s) hg

theorem until_change_bind {l : lab} {f : σ → σ} {g : Unit → Prog lab σ α} (h : ∀ s, R l s (f s))
    (hg : Until G R last (g ())) : Until G R last (change l f >>= g) := .act (fun s _ => h s) fun _ _ => hg

theorem until_ite {c : Prop} [Decidable c] {p q : Prog lab σ α} (hp : c → Until G R last p) (hq : ¬c → Until G R last q) :
    Until G R last (if c then p else q) := by
  split
  · exact hp ‹_›
  · exact hq ‹_›

/-- What the actions keep holds when the last program begins, or when the code returns. -/
theorem Until.run {I : σ → Prop} {Q : α → σ → Prop} {p : Prog lab σ α} (h : Until G R last p) (guard : ∀ s, I s → G s)
    (closed : ∀ l s t, R l s t → I s → I t) (returns : ∀ a s, I s → Q a s)
    (ends : ∀ p s a t, last p → I s → Prog.run p s = some (a, t) → Q a t) {s t : σ} {a : α} (hs : I s)
    (e : Prog.run p s = some (a, t)) : Q a t := by
  induction h generalizing s with
  | pure b =>
    cases e
    exact returns _ _ hs
  | stuck => cases e
  | act h _ ih => exact ih s (guard s hs) (closed _ s _ (h s (guard s hs)) hs) e
  | last h => exact ends _ s a t h hs e

end Until

/-- In states where `G` holds, no action has a label in `m`. -/
def Without (G : σ → Prop) (m : lab → Prop) : Prog lab σ α → Prop
  | .act l _ k => ¬m l ∧ ∀ s, G s → Without G m (k s)
  | _ => True

/-- In states where `G` holds, no label in `b` comes after one in `m`. -/
def Ends (G : σ → Prop) (m b : lab → Prop) : Prog lab σ α → Prop
  | .act l _ k => ∀ s, G s → (m l → Without G b (k s)) ∧ Ends G m b (k s)
  | _ => True

section Order

variable {G : σ → Prop} {m b : lab → Prop}

theorem without_bind {p : Prog lab σ β} {g : β → Prog lab σ α} (hp : Without G m p)
    (hg : ∀ b, Without G m (g b)) : Without G m (p >>= g) := by
  change Without G m (bind p g)
  induction p with
  | pure b => exact hg b
  | act l f k ih => exact ⟨hp.1, fun s hs => ih s (hp.2 s hs)⟩
  | stuck => trivial

theorem without_look_bind {l : lab} {f : σ → β} {g : β → Prog lab σ α} (hl : ¬m l)
    (hg : ∀ s, G s → Without G m (g (f s))) : Without G m (look l f >>= g) := ⟨hl, hg⟩

theorem without_swap_bind {l : lab} {f : σ → β × σ} {g : β → Prog lab σ α} (hl : ¬m l)
    (hg : ∀ s, G s → Without G m (g (f s).1)) : Without G m (swap l f >>= g) := ⟨hl, hg⟩

theorem without_change {l : lab} {f : σ → σ} (hl : ¬m l) : Without G m (change l f) := ⟨hl, fun _ _ => trivial⟩

theorem without_ite {c : Prop} [Decidable c] {p q : Prog lab σ α} (hp : c → Without G m p) (hq : ¬c → Without G m q) :
    Without G m (if c then p else q) := by
  split
  · exact hp ‹_›
  · exact hq ‹_›

theorem without_when {c : Prop} [Decidable c] {p : Prog lab σ Unit} (hp : c → Without G m p) : Without G m (when c p) :=
  without_ite hp fun _ => trivial

/-- What comes before the first label in `m` is free. -/
theorem ends_bind {p : Prog lab σ β} {g : β → Prog lab σ α} (hp : Without G m p)
    (hg : ∀ a, Ends G m b (g a)) : Ends G m b (p >>= g) := by
  change Ends G m b (bind p g)
  induction p with
  | pure a => exact hg a
  | act l f k ih => exact fun s hs => ⟨fun hl => absurd hl hp.1, ih s (hp.2 s hs)⟩
  | stuck => trivial

/-- What comes after may have no label of either kind. -/
theorem ends_bind_last {p : Prog lab σ β} {g : β → Prog lab σ α} (hp : Ends G m b p)
    (hg : ∀ a, Without G b (g a)) (hg' : ∀ a, Ends G m b (g a)) : Ends G m b (p >>= g) := by
  change Ends G m b (bind p g)
  induction p with
  | pure a => exact hg' a
  | act l f k ih => exact fun s hs => ⟨fun hl => without_bind ((hp s hs).1 hl) hg, ih s (hp s hs).2⟩
  | stuck => trivial

theorem ends_ite {c : Prop} [Decidable c] {p q : Prog lab σ α} (hp : c → Ends G m b p) (hq : ¬c → Ends G m b q) :
    Ends G m b (if c then p else q) := by
  split
  · exact hp ‹_›
  · exact hq ‹_›

theorem Without.ends {p : Prog lab σ α} (h : Without G m p) : Ends G m b p := by
  induction p with
  | pure a => trivial
  | act l f k ih => exact fun s hs => ⟨fun hl => absurd hl h.1, ih s (h.2 s hs)⟩
  | stuck => trivial

end Order

end Prog
end AlkaliFw.Resumption
