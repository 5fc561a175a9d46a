import Mathlib

/-! Rings of slots. The `n`-th use of a ring of `size` slots is at position `n % size`, on
pass `n / size`. -/

namespace AlkaliFw.Ring

variable {size h t : Nat}

/-- Slots from position `h` to position `t`, the latter not counted. -/
def dist (size h t : Nat) : Nat := (t + size - h) % size

theorem dist_of_le (le : h ≤ t) (ht : t < size) : dist size h t = t - h := by
  unfold dist
  rw [show t + size - h = t - h + size by omega, Nat.add_mod_right]
  exact Nat.mod_eq_of_lt (by omega)

theorem dist_of_lt (lt : t < h) (hh : h < size) : dist size h t = t + size - h :=
  Nat.mod_eq_of_lt (by omega)

theorem next_of_lt (lt : h + 1 < size) : (h + 1) % size = h + 1 := Nat.mod_eq_of_lt lt

theorem next_last (last : h + 1 = size) : (h + 1) % size = 0 := by
  rw [last]
  exact Nat.mod_self size

theorem dist_lt (ht : t < size) : dist size h t < size := Nat.mod_lt _ (by omega)

theorem dist_self (size h : Nat) : dist size h h = 0 := by
  rw [dist, Nat.add_sub_cancel_left]
  exact Nat.mod_self size

/-- One step towards a position that is not reached yet. -/
theorem dist_next (hh : h < size) (ht : t < size) (away : t ≠ h) :
    dist size h t = dist size ((h + 1) % size) t + 1 := by
  by_cases last : h + 1 = size
  · rw [next_last last, dist_of_le (Nat.zero_le t) ht, dist_of_lt (by omega) hh]
    omega
  · rw [next_of_lt (by omega)]
    rcases Nat.lt_or_ge t h with lt | le
    · rw [dist_of_lt lt hh, dist_of_lt (by omega) (by omega)]
      omega
    · rw [dist_of_le le ht, dist_of_le (by omega) ht]
      omega

/-- The position after the `n`-th. -/
theorem next (size n : Nat) : (n % size + 1) % size = (n + 1) % size := Nat.mod_add_mod n size 1

/-- Uses less than a pass apart are at different positions. -/
theorem position_ne {j l : Nat} (after : j < l) (near : l < j + size) : l % size ≠ j % size := by
  intro same
  have dvd : size ∣ l - j := (Nat.modEq_iff_dvd' (by omega)).mp same.symm
  have := Nat.le_of_dvd (by omega) dvd
  omega

/-! Phases. -/

/-- The phase of the `n`-th use, which is one on even passes. -/
def phase (size n : Nat) : Bool := decide (n / size % 2 = 0)

theorem phase_first {n : Nat} (lt : n < size) : phase size n = true := by
  rw [phase, Nat.div_eq_of_lt lt]
  rfl

theorem phase_next (size n : Nat) :
    phase size (n + 1) = if (n + 1) % size = 0 then !phase size n else phase size n := by
  unfold phase
  rw [Nat.succ_div]
  by_cases last : (n + 1) % size = 0
  · rw [if_pos last, if_pos (Nat.dvd_of_mod_eq_zero last), ← decide_not]
    exact decide_eq_decide.mpr (by omega)
  · rw [if_neg last, if_neg fun dvd => last (Nat.mod_eq_zero_of_dvd dvd), Nat.add_zero]

/-- One pass earlier the phase is the other one. -/
theorem phase_before {n : Nat} (size_pos : 0 < size) (le : size ≤ n) : phase size (n - size) = !phase size n := by
  obtain ⟨m, rfl⟩ := Nat.exists_eq_add_of_le' le
  unfold phase
  rw [Nat.add_sub_cancel, Nat.add_div_right m size_pos, ← decide_not]
  exact decide_eq_decide.mpr (by omega)

/-! What a reader finds in a ring that was written in order. -/

variable {α β : Type} [DecidableEq α]

/-- Memory after some writes. -/
def memory (init : β) (writes : List (α × β)) : α → β :=
  writes.foldl (fun mem w => Function.update mem w.1 w.2) fun _ => init

theorem memory_append (init : β) (writes : List (α × β)) (w : α × β) :
    memory init (writes ++ [w]) = Function.update (memory init writes) w.1 w.2 := by
  rw [memory, List.foldl_append]
  rfl

section Written

variable {slot : Nat → α} (init : β) {writes : List (α × β)}

/-- The last write to a position stays. -/
theorem memory_last (apart : ∀ i j, i < size → j < size → slot i = slot j → i = j) (size_pos : 0 < size)
    (inOrder : ∀ (j : Nat) w, writes[j]? = some w → w.1 = slot (j % size)) {j : Nat} {w : α × β} (here : writes[j]? = some w)
    (last : writes.length ≤ j + size) : memory init writes (slot (j % size)) = w.2 := by
  induction writes using List.reverseRecOn with
  | nil => cases here
  | append_singleton writes new ih =>
    rw [memory_append]
    have inOrder' : ∀ (j : Nat) w, writes[j]? = some w → w.1 = slot (j % size) := by
      intro j w e
      have lt := (List.getElem?_eq_some_iff.mp e).1
      exact inOrder j w (by rwa [List.getElem?_append_left lt])
    have place : new.1 = slot (writes.length % size) := inOrder _ _ (by simp)
    rw [List.length_append, List.length_singleton] at last
    rcases Nat.lt_or_ge j writes.length with before | after
    · rw [List.getElem?_append_left before] at here
      have other : slot (j % size) ≠ new.1 := by
        rw [place]
        intro same
        exact position_ne before (by omega) (apart _ _ (Nat.mod_lt _ size_pos) (Nat.mod_lt _ size_pos) same).symm
      rw [Function.update_of_ne other]
      exact ih inOrder' here (by omega)
    · have lt := (List.getElem?_eq_some_iff.mp here).1
      rw [List.length_append, List.length_singleton] at lt
      obtain rfl : j = writes.length := by omega
      cases (List.getElem?_concat_length ..).symm.trans here
      rw [← place, Function.update_self]

/-- A position that was never reached is as in the beginning. -/
theorem memory_unreached (apart : ∀ i j, i < size → j < size → slot i = slot j → i = j)
    (inOrder : ∀ (j : Nat) w, writes[j]? = some w → w.1 = slot (j % size)) {i : Nat} (lt : i < size)
    (few : writes.length ≤ i) : memory init writes (slot i) = init := by
  induction writes using List.reverseRecOn with
  | nil => rfl
  | append_singleton writes new ih =>
    have inOrder' : ∀ (j : Nat) w, writes[j]? = some w → w.1 = slot (j % size) := by
      intro j w e
      have lt := (List.getElem?_eq_some_iff.mp e).1
      exact inOrder j w (by rwa [List.getElem?_append_left lt])
    rw [List.length_append, List.length_singleton] at few
    have place : new.1 = slot (writes.length % size) := inOrder _ _ (by simp)
    rw [Nat.mod_eq_of_lt (by omega)] at place
    have other : slot i ≠ new.1 := by
      rw [place]
      intro same
      have := apart _ _ lt (by omega) same
      omega
    rw [memory_append, Function.update_of_ne other]
    exact ih inOrder' (by omega)

/-- A reader that is less than a pass behind finds the phase it expects exactly when the next entry
has been written, and then it finds that entry. -/
theorem memory_scan (phaseOf : β → Bool) (apart : ∀ i j, i < size → j < size → slot i = slot j → i = j)
    (zeroed : phaseOf init = false)
    (inOrder : ∀ (j : Nat) w, writes[j]? = some w → w.1 = slot (j % size) ∧ phaseOf w.2 = phase size j) {k : Nat}
    (behind : k ≤ writes.length) (near : writes.length < k + size) :
    (phaseOf (memory init writes (slot (k % size))) = phase size k ↔ k < writes.length) ∧
      (k < writes.length → writes[k]? = some (slot (k % size), memory init writes (slot (k % size)))) := by
  have size_pos : 0 < size := by omega
  have placed := fun j w e => (inOrder j w e).1
  rcases Nat.lt_or_ge k writes.length with lt | ge
  · obtain ⟨w, here⟩ : ∃ w, writes[k]? = some w := ⟨_, List.getElem?_eq_getElem lt⟩
    have found := memory_last init apart size_pos placed here (by omega)
    obtain ⟨place, bit⟩ := inOrder k w here
    rw [found, here, bit, ← place]
    exact ⟨⟨fun _ => lt, fun _ => rfl⟩, fun _ => rfl⟩
  · obtain rfl : k = writes.length := by omega
    refine ⟨⟨fun same => ?_, fun lt => absurd lt (Nat.lt_irrefl _)⟩, fun lt => absurd lt (Nat.lt_irrefl _)⟩
    rcases Nat.lt_or_ge writes.length size with first | later
    · rw [memory_unreached init apart placed (Nat.mod_lt _ size_pos) (Nat.mod_eq_of_lt first).ge, zeroed,
        phase_first first] at same
      cases same
    · have lt : writes.length - size < writes.length := by omega
      obtain ⟨w, here⟩ : ∃ w, writes[writes.length - size]? = some w := ⟨_, List.getElem?_eq_getElem lt⟩
      have found := memory_last init apart size_pos placed here (by omega)
      rw [← Nat.mod_eq_sub_mod later] at found
      rw [found, (inOrder _ w here).2, phase_before size_pos later] at same
      cases h : phase size writes.length <;> simp [h] at same

end Written

end AlkaliFw.Ring
