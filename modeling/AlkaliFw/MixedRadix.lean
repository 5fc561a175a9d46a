import Mathlib

/-! Numbers in a mixed radix. The digits have names, a list of names says which digit counts
more than which, and every name has its radix. -/

namespace MixedRadix

variable {α : Type} (d : α → ℕ)

/-- How many numbers there are. -/
def volume (l : List α) : ℕ := (l.map d).prod

@[simp] theorem volume_nil : volume d [] = 1 := rfl

@[simp] theorem volume_cons (a : α) (l : List α) : volume d (a :: l) = d a * volume d l := List.prod_cons

theorem volume_append (l l' : List α) : volume d (l ++ l') = volume d l * volume d l' := by
  rw [volume, List.map_append, List.prod_append, volume, volume]

theorem volume_perm {l l' : List α} (h : l.Perm l') : volume d l = volume d l' := (h.map d).prod_eq

theorem volume_pos {l : List α} (h : ∀ a ∈ l, 0 < d a) : 0 < volume d l := by
  induction l with
  | nil => exact Nat.one_pos
  | cons a l ih =>
    rw [volume_cons]
    exact Nat.mul_pos (h a List.mem_cons_self) (ih fun b hb => h b (List.mem_cons_of_mem _ hb))

/-- The number with these digits, the first of them most significant. -/
def index (x : α → ℕ) : List α → ℕ
  | [] => 0
  | a :: l => x a * volume d l + index x l

theorem index_congr {x y : α → ℕ} {l : List α} (h : ∀ a ∈ l, x a = y a) : index d x l = index d y l := by
  induction l with
  | nil => rfl
  | cons a l ih => rw [index, index, h a List.mem_cons_self, ih fun b hb => h b (List.mem_cons_of_mem _ hb)]

/-- Each digit is below its radix. -/
def InRange (x : α → ℕ) (l : List α) : Prop := ∀ a ∈ l, x a < d a

variable {d}

theorem InRange.tail {x : α → ℕ} {a : α} {l : List α} (h : InRange d x (a :: l)) : InRange d x l :=
  fun b hb => h b (List.mem_cons_of_mem _ hb)

theorem InRange.perm {x : α → ℕ} {l l' : List α} (h : InRange d x l) (p : l.Perm l') : InRange d x l' :=
  fun a ha => h a (p.mem_iff.mpr ha)

theorem index_lt {x : α → ℕ} {l : List α} (h : InRange d x l) : index d x l < volume d l := by
  induction l with
  | nil => exact Nat.one_pos
  | cons a l ih =>
    have digit : (x a + 1) * volume d l ≤ d a * volume d l := Nat.mul_le_mul_right _ (h a List.mem_cons_self)
    have rest := ih h.tail
    rw [Nat.add_mul, Nat.one_mul] at digit
    rw [index, volume_cons]
    omega

section Digits

variable [DecidableEq α]

variable (d) in
/-- The digit named `b` of a number. -/
def digit : List α → ℕ → α → ℕ
  | [], _, _ => 0
  | a :: l, i, b => if b = a then i / volume d l else digit l (i % volume d l) b

variable (d) in
/-- What a digit counts. -/
def step (b : α) : List α → ℕ
  | [] => 0
  | a :: l => if b = a then volume d l else step b l

theorem digit_head (a : α) (l : List α) (i : ℕ) : digit d (a :: l) i a = i / volume d l := if_pos rfl

theorem digit_tail {a b : α} {l : List α} (nodup : (a :: l).Nodup) (hb : b ∈ l) (i : ℕ) :
    digit d (a :: l) i b = digit d l (i % volume d l) b := by
  refine if_neg fun same => ?_
  rw [same] at hb
  exact (List.nodup_cons.mp nodup).1 hb

theorem step_tail {a b : α} {l : List α} (nodup : (a :: l).Nodup) (hb : b ∈ l) : step d b (a :: l) = step d b l := by
  refine if_neg fun same => ?_
  rw [same] at hb
  exact (List.nodup_cons.mp nodup).1 hb

theorem digit_inRange {l : List α} (nodup : l.Nodup) {i : ℕ} (h : i < volume d l) : InRange d (digit d l i) l := by
  induction l generalizing i with
  | nil => exact fun _ hb => nomatch hb
  | cons a l ih =>
    rw [volume_cons] at h
    have pos : 0 < volume d l := Nat.pos_of_mul_pos_left (Nat.zero_lt_of_lt h)
    intro b hb
    rcases List.mem_cons.mp hb with rfl | later
    · rw [digit_head]
      exact Nat.div_lt_of_lt_mul (by rwa [Nat.mul_comm])
    · rw [digit_tail nodup later]
      exact ih (List.nodup_cons.mp nodup).2 (Nat.mod_lt i pos) b later

/-- A number is made of its digits. -/
theorem index_digit {l : List α} (nodup : l.Nodup) {i : ℕ} (h : i < volume d l) : index d (digit d l i) l = i := by
  induction l generalizing i with
  | nil => exact (Nat.lt_one_iff.mp h).symm
  | cons a l ih =>
    rw [volume_cons] at h
    have pos : 0 < volume d l := Nat.pos_of_mul_pos_left (Nat.zero_lt_of_lt h)
    rw [index, digit_head, index_congr d fun b hb => digit_tail nodup hb i,
      ih (List.nodup_cons.mp nodup).2 (Nat.mod_lt i pos), Nat.mul_comm]
    exact Nat.div_add_mod i (volume d l)

/-- And the digits are those of the number. -/
theorem digit_index {l : List α} (nodup : l.Nodup) {x : α → ℕ} (h : InRange d x l) : ∀ b ∈ l, digit d l (index d x l) b = x b := by
  induction l with
  | nil => exact fun _ hb => nomatch hb
  | cons a l ih =>
    have rest := index_lt h.tail
    intro b hb
    rw [index]
    rcases List.mem_cons.mp hb with rfl | later
    · rw [digit_head, Nat.mul_comm, Nat.mul_add_div (Nat.zero_lt_of_lt rest), Nat.div_eq_of_lt rest, Nat.add_zero]
    · rw [digit_tail nodup later, Nat.mul_comm, Nat.mul_add_mod, Nat.mod_eq_of_lt rest]
      exact ih (List.nodup_cons.mp nodup).2 h.tail b later

theorem index_eq_sum {l : List α} (nodup : l.Nodup) (x : α → ℕ) : index d x l = (l.map fun a => x a * step d a l).sum := by
  induction l with
  | nil => rfl
  | cons a l ih =>
    have others : (l.map fun b => x b * step d b (a :: l)) = l.map fun b => x b * step d b l :=
      List.map_congr_left fun b hb => by rw [step_tail nodup hb]
    rw [index, List.map_cons, List.sum_cons, others, ← ih (List.nodup_cons.mp nodup).2, step, if_pos rfl]

end Digits

/-! The same digits in another order. -/

section Reorder

variable [DecidableEq α]

variable (d) in
/-- The number with the digits of `i`, in the order of `l'`. -/
def reorder (l l' : List α) (i : ℕ) : ℕ := index d (digit d l i) l'

variable {l l' : List α} (nodup : l.Nodup) (perm : l'.Perm l)

include nodup perm

theorem reorder_lt {i : ℕ} (h : i < volume d l) : reorder d l l' i < volume d l := by
  rw [← volume_perm d perm]
  exact index_lt ((digit_inRange nodup h).perm perm.symm)

theorem reorder_index {x : α → ℕ} (h : InRange d x l) : reorder d l l' (index d x l) = index d x l' :=
  index_congr d fun a ha => digit_index nodup h a (perm.mem_iff.mp ha)

/-- Back and forth. -/
theorem reorder_reorder {i : ℕ} (h : i < volume d l) : reorder d l' l (reorder d l l' i) = i := by
  have nodup' : l'.Nodup := perm.nodup_iff.mpr nodup
  calc reorder d l' l (reorder d l l' i)
    _ = index d (digit d l i) l := reorder_index nodup' perm.symm ((digit_inRange nodup h).perm perm.symm)
    _ = i := index_digit nodup h

theorem reorder_injOn {i j : ℕ} (hi : i < volume d l) (hj : j < volume d l) (same : reorder d l l' i = reorder d l l' j) : i = j := by
  rw [← reorder_reorder nodup perm hi, same, reorder_reorder nodup perm hj]

/-- As a sum over the digits in the order in which they are taken off. -/
theorem reorder_eq_sum (i : ℕ) : reorder d l l' i = (l.map fun a => digit d l i a * step d a l').sum := by
  rw [reorder, index_eq_sum (perm.nodup_iff.mpr nodup)]
  exact (perm.map _).sum_eq

end Reorder
end MixedRadix
