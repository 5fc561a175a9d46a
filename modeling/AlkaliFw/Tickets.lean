import AlkaliFw.Ring

/-! Slots of a ring that several parties take. Whoever takes the slot at the tail holds its
number, a ticket, until the entry is written; the entries need not be written in the order in
which their slots were taken. Tickets may get lost. -/

namespace AlkaliFw.Ring

/-- The registers of the side that writes. -/
structure Writer where
  base : Nat
  size : Nat
  tail : Nat
  phase : Bool

namespace Writer

variable (e m a : Nat) (w : Writer)

/-- The phase is flipped at the start of a pass. -/
def allot : Writer :=
  { w with phase := if w.tail = 0 then !w.phase else w.phase, tail := (w.tail + 1) % w.size % m }

def slot (k : Nat) : Nat := (w.base + k % w.size * e) % a

/-- What is written for ticket `k`. -/
def ticket (k : Nat) : Nat × Bool := (w.slot e a k, Ring.phase w.size k)

end Writer

/-- Of the tickets below `n` some are held, some are lost, and for `ks` the entries `ps` were written. -/
structure Tickets (e a : Nat) (w : Writer) (ps : List (Nat × Bool)) (held lost : List Nat) (n : Nat) (ks : List Nat) : Prop where
  entries : ps = ks.map (w.ticket e a)
  all : (held ++ (lost ++ ks)).Perm (List.range n)
  tail : w.tail = n % w.size
  phase : w.phase = (decide (0 < n) && Ring.phase w.size (n - 1))

variable {e m a n k : Nat} {w : Writer} {ps : List (Nat × Bool)} {held lost ks : List Nat}

theorem tickets_start (tail : w.tail = 0) (phase : w.phase = false) : Tickets e a w [] [] [] 0 [] := by
  refine ⟨rfl, .refl _, ?_, phase⟩
  rw [tail, Nat.zero_mod]

theorem Writer.slot_mod : w.slot e a (k % w.size) = w.slot e a k := by
  rw [slot, slot, Nat.mod_mod]

/-- Uses less than a pass apart have different addresses. -/
theorem Writer.slot_ne (fits : w.size * e ≤ a) (he : 0 < e) {j : Nat} (after : j < k) (near : k < j + w.size) : w.slot e a j ≠ w.slot e a k := by
  have size : 0 < w.size := by omega
  have ne := position_ne after near
  have hj := Nat.mod_lt j size
  have hk := Nat.mod_lt k size
  intro same
  rw [Writer.slot, Writer.slot] at same
  generalize j % w.size = x at ne hj same
  generalize k % w.size = y at ne hk same
  have least {x y : Nat} (lt : x < y) (hy : y < w.size) (same : (w.base + x * e) % a = (w.base + y * e) % a) : False := by
    have dvd : a ∣ w.base + y * e - (w.base + x * e) := (Nat.modEq_iff_dvd' (by nlinarith)).mp same
    rw [Nat.add_sub_add_left, ← Nat.sub_mul] at dvd
    have pos : 0 < (y - x) * e := Nat.mul_pos (by omega) he
    have small : (y - x) * e < a := by nlinarith [Nat.sub_le y x]
    exact absurd (Nat.le_of_dvd pos dvd) (by omega)
  rcases Nat.lt_or_gt_of_ne ne with lt | lt
  · exact least lt hj same.symm
  · exact least lt hk same

namespace Tickets

variable (h : Tickets e a w ps held lost n ks)
include h

theorem slot_tail : (w.base + w.tail * e) % a = w.slot e a n := by
  rw [h.tail, Writer.slot]

theorem phase_allot (size : 0 < w.size) : (w.allot m).phase = Ring.phase w.size n := by
  rw [Writer.allot, h.tail, h.phase]
  rcases Nat.eq_zero_or_pos n with rfl | pos
  · rw [Nat.zero_mod, if_pos rfl, phase_first size]
    rfl
  · obtain ⟨n, rfl⟩ := Nat.exists_eq_succ_of_ne_zero (Nat.pos_iff_ne_zero.mp pos)
    rw [decide_eq_true pos, Bool.true_and, Nat.succ_sub_one, Nat.succ_eq_add_one, phase_next]

/-- The slot at the tail is taken. -/
theorem allot (size : 0 < w.size) (word : w.size ≤ m) : Tickets e a (w.allot m) ps (n :: held) lost (n + 1) ks := by
  refine ⟨h.entries, ?_, ?_, ?_⟩
  · rw [List.range_succ]
    exact (h.all.cons n).trans (List.perm_append_singleton n _).symm
  · have below := Nat.mod_lt (n + 1) size
    rw [Writer.allot, h.tail, Ring.next]
    exact Nat.mod_eq_of_lt (by omega)
  · rw [h.phase_allot size, decide_eq_true (Nat.succ_pos n), Bool.true_and, Nat.add_sub_cancel]
    rfl

omit h in
theorem post (h : Tickets e a w ps (k :: held) lost n ks) : Tickets e a w (w.ticket e a k :: ps) held lost n (k :: ks) := by
  refine ⟨by rw [h.entries, List.map_cons], .trans ?_ h.all, h.tail, h.phase⟩
  rw [← List.append_assoc, ← List.append_assoc]
  exact List.perm_middle

omit h in
theorem drop (h : Tickets e a w ps (k :: held) lost n ks) : Tickets e a w ps held (k :: lost) n ks :=
  ⟨h.entries, .trans List.perm_middle h.all, h.tail, h.phase⟩

theorem nodup : (held ++ (lost ++ ks)).Nodup := h.all.nodup_iff.mpr List.nodup_range

theorem mem_iff : k ∈ held ++ (lost ++ ks) ↔ k < n := h.all.mem_iff.trans List.mem_range

end Tickets

end AlkaliFw.Ring
