import Mathlib

/-! Blocks that lie one after the other in a memory. Every key has its size, and its place as the start
and the end of its block. -/

namespace Layout

variable {κ : Type*} (size : κ → Nat) (place : κ → Nat × Nat)

def total (l : List κ) : Nat := (l.map size).sum

/-- The blocks of `l` fill the memory from `b` to `e`. -/
def Tiles : Nat → List κ → Nat → Prop
  | b, [], e => b = e
  | b, k :: l, e => place k = (b, b + size k) ∧ Tiles (b + size k) l e

/-- The blocks of `l` come in this order after `b`, up to the end of the memory. -/
def Spread (room : Nat) : Nat → List κ → Prop
  | b, [] => b ≤ room
  | b, k :: l => b ≤ (place k).1 ∧ (place k).2 = (place k).1 + size k ∧ Spread room (place k).2 l

variable {size place} {place' : κ → Nat × Nat} {room b e : Nat} {l l' : List κ} {k : κ}

@[simp] theorem total_nil : total size [] = 0 := rfl

@[simp] theorem total_cons : total size (k :: l) = size k + total size l := by simp [total]

@[simp] theorem total_append : total size (l ++ l') = total size l + total size l' := by simp [total]

theorem Tiles.congr (h : Tiles size place b l e) (same : ∀ k ∈ l, place' k = place k) : Tiles size place' b l e := by
  induction l generalizing b with
  | nil => exact h
  | cons k l ih =>
      rw [Tiles] at h ⊢
      exact ⟨(same k List.mem_cons_self).trans h.1, ih h.2 fun k' mem => same k' (List.mem_cons_of_mem k mem)⟩

theorem Spread.congr (h : Spread size place room b l) (same : ∀ k ∈ l, place' k = place k) :
    Spread size place' room b l := by
  induction l generalizing b with
  | nil => exact h
  | cons k l ih =>
      have here := same k List.mem_cons_self
      rw [Spread] at h ⊢
      rw [here]
      exact ⟨h.1, h.2.1, ih h.2.2 fun k' mem => same k' (List.mem_cons_of_mem k mem)⟩

theorem Tiles.append (h : Tiles size place b l e) {e' : Nat} (next : Tiles size place e l' e') :
    Tiles size place b (l ++ l') e' := by
  induction l generalizing b with
  | nil =>
      obtain rfl := h
      exact next
  | cons k l ih => exact ⟨h.1, ih h.2⟩

theorem Tiles.spread (h : Tiles size place b l e) (rest : Spread size place room e l') :
    Spread size place room b (l ++ l') := by
  induction l generalizing b with
  | nil =>
      obtain rfl := h
      exact rest
  | cons k l ih =>
      obtain ⟨here, later⟩ := h
      rw [List.cons_append, Spread, here]
      exact ⟨le_rfl, rfl, ih later⟩

theorem Tiles.total (h : Tiles size place b l e) : e = b + total size l := by
  induction l generalizing b with
  | nil => exact h.symm
  | cons k l ih => rw [ih h.2, total_cons, Nat.add_assoc]

/-- A block begins where those before it end. -/
theorem Tiles.place_of_split (h : Tiles size place b (l ++ k :: l') e) :
    place k = (b + Layout.total size l, b + Layout.total size l + size k) := by
  induction l generalizing b with
  | nil => exact h.1
  | cons j l ih => rw [ih h.2, total_cons, Nat.add_assoc]

theorem Spread.total_le (h : Spread size place room b l) : b + Layout.total size l ≤ room := by
  induction l generalizing b with
  | nil => exact h
  | cons k l ih =>
      have rest := ih h.2.2
      have order := h.1
      have length := h.2.1
      rw [total_cons]
      omega

theorem Spread.le_room (h : Spread size place room b l) : b ≤ room := (Nat.le_add_right _ _).trans h.total_le

theorem Spread.mem (h : Spread size place room b l) (mem : k ∈ l) :
    b ≤ (place k).1 ∧ (place k).2 = (place k).1 + size k ∧ (place k).2 ≤ room := by
  induction l generalizing b with
  | nil => cases mem
  | cons j l ih =>
      obtain ⟨first, length, rest⟩ := h
      obtain rfl | later := List.mem_cons.mp mem
      · exact ⟨first, length, rest.le_room⟩
      · obtain ⟨after, length', bound⟩ := ih rest later
        exact ⟨by omega, length', bound⟩

/-- A block ends before the next one begins. -/
theorem Spread.pairwise (h : Spread size place room b l) : l.Pairwise fun k k' => (place k).2 ≤ (place k').1 := by
  induction l generalizing b with
  | nil => exact .nil
  | cons k l ih => exact .cons (fun k' mem => (h.2.2.mem mem).1) (ih h.2.2)

/-- What begins at `e` or later stays in order when the blocks before it go. -/
theorem Spread.dropWhile (h : Spread size place room b l) (small : e ≤ room) :
    Spread size place room e (l.dropWhile fun k => (place k).1 < e) := by
  induction l generalizing b with
  | nil => exact small
  | cons k l ih =>
      rw [Spread] at h
      by_cases before : (place k).1 < e
      · rw [List.dropWhile_cons_of_pos (by simpa using before)]
        exact ih h.2.2
      · rw [List.dropWhile_cons_of_neg (by simpa using before)]
        exact ⟨Nat.le_of_not_lt before, h.2.1, h.2.2⟩

end Layout
