import Mathlib

/-! Copies that are queued and made one after the other. A copy takes what its source holds when it is made; if nothing
else is written to its destination, that is what is found there. -/

namespace QueuedCopies

/-- A memory, and the copies into it that have been made, newest first. -/
structure Copier (σ κ α β : Type*) where
  done : σ → List κ
  dest : σ → α → β
  source : σ → κ → α → β
  area : κ → Set α

namespace Copier

variable {σ κ α β : Type*} (m : Copier σ κ α β) (region : Set α)

/-- What a step does within `region`: it makes a copy, or it leaves the memory as it is; and the count of the copies may
begin anew. -/
inductive Step (s t : σ) : Prop where
  | anew (done : m.done t = [])
  | beside (dest : ∀ a ∈ region, m.dest t a = m.dest s a) (done : m.done t = m.done s)
  | made (c : κ) (done : m.done t = c :: m.done s) (copied : ∀ a ∈ region, a ∈ m.area c → m.dest t a = m.source s c a)
      (rest : ∀ a ∈ region, a ∉ m.area c → m.dest t a = m.dest s a)

/-- What was copied to `area c` at a time between `first` and `s`. -/
def Holds (step : σ → σ → Prop) (first s : σ) (c : κ) : Prop :=
  ∃ t, Relation.ReflTransGen step first t ∧ Relation.ReflTransGen step t s ∧ ∀ a ∈ m.area c, m.dest s a = m.source t c a

variable {m region} {step : σ → σ → Prop} {first s t : σ} {c : κ}

theorem Holds.kept (h : m.Holds step first s c) (next : step s t) (same : ∀ a ∈ m.area c, m.dest t a = m.dest s a) :
    m.Holds step first t c := by
  obtain ⟨u, before, after, copied⟩ := h
  exact ⟨u, before, after.tail next, fun a mem => (same a mem).trans (copied a mem)⟩

/-- Copies whose destinations have nothing in common are found there, each as of the time at which it was made. -/
theorem holds_of_done (start : m.done first = []) (each : ∀ s t, Relation.ReflTransGen step first s → step s t → m.Step region s t)
    (run : Relation.ReflTransGen step first s) (apart : (m.done s).Pairwise fun i j => Disjoint (m.area i) (m.area j))
    (mem : c ∈ m.done s) (inside : m.area c ⊆ region) : m.Holds step first s c := by
  induction run generalizing c with
  | refl =>
      rw [start] at mem
      cases mem
  | tail before next ih =>
      cases each _ _ before next with
      | anew none =>
          rw [none] at mem
          cases mem
      | beside dest same =>
          rw [same] at apart mem
          exact (ih apart mem inside).kept next fun a here => dest a (inside here)
      | made d more copied rest =>
          rw [more] at apart mem
          obtain ⟨clear, earlier⟩ := List.pairwise_cons.mp apart
          rcases List.mem_cons.mp mem with rfl | old
          · exact ⟨_, before, .single next, fun a here => copied a (inside here) here⟩
          · refine (ih earlier old inside).kept next fun a here => rest a (inside here) fun both => ?_
            exact Set.disjoint_left.mp (clear c old) both here

end Copier

section Lists

variable {κ : Type*} {queued left done : List κ} {c : κ}

/-- Of the copies queued last, newest first, those that have been made when the ones in `left` have not. -/
def made (queued left : List κ) : List κ := queued.drop left.length

theorem made_append (new : List κ) : made (new ++ queued) (left ++ new.reverse) = made queued left := by
  rw [made, made, List.length_append, List.length_reverse, Nat.add_comm, List.drop_append, Nat.add_sub_cancel_left,
    List.drop_eq_nil_of_le (Nat.le_add_right ..), List.nil_append]

theorem made_of_le (le : queued.length ≤ left.length) : made queued left = [] := List.drop_eq_nil_of_le le

/-- The oldest of those that are left is made. -/
theorem made_next (all : queued <+: (c :: left).reverse ++ done) :
    made queued left = c :: made queued (c :: left) ∨ made queued left = [] := by
  by_cases short : queued.length ≤ left.length
  · exact .inr (made_of_le short)
  · have lt : left.length < queued.length := Nat.not_le.mp short
    have last : ((c :: left).reverse ++ done)[left.length]? = some c := by
      rw [List.reverse_cons, List.append_assoc, ← List.length_reverse, List.getElem?_append_right le_rfl, Nat.sub_self]
      rfl
    have here : queued[left.length]? = some c := by
      obtain ⟨rest, whole⟩ := all
      rwa [← whole, List.getElem?_append_left lt] at last
    rw [List.getElem?_eq_getElem lt] at here
    rw [made, made, List.drop_eq_getElem_cons lt, Option.some.inj here]
    exact .inl rfl

end Lists

end QueuedCopies
