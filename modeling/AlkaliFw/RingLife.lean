import Mathlib

/-! The life of a ring: one side visits its slots in turn, the other announces an index at the
doorbell. The registers hold indices modulo `m` and addresses modulo `a`; entries are `e`
bytes long. -/

namespace AlkaliFw.Ring

/-- `pos` is the index of the side that visits, `bell` the last one announced by the other. -/
structure Row where
  base : Nat
  size : Nat
  pos : Nat
  bell : Nat

section

variable (e m a : Nat)

def Row.slot (r : Row) : Nat := (r.base + r.pos * e) % a

def Row.next (r : Row) : Row := { r with pos := (r.pos + 1) % r.size % m }

/-- From `r₀` to a row, with the addresses that were visited and the indices announced, newest first. -/
inductive Life (r₀ : Row) : Row → List Nat → List Nat → Prop where
  | start : Life r₀ r₀ [] []
  | visit {r : Row} {as bs : List Nat} (life : Life r₀ r as bs) : Life r₀ (r.next m) (r.slot e a :: as) bs
  | bell {r : Row} {as bs : List Nat} (v : Nat) (life : Life r₀ r as bs) : Life r₀ { r with bell := v } as (v :: bs)

/-- A ring of the slots `0 .. k` at `base`, visited in turn; no index leaves it and no address wraps. -/
structure Law (base k : Nat) (r : Row) (as bs : List Nat) : Prop where
  row : r.base = base ∧ r.size = k + 1
  exact : ∀ i ≤ k, (base + i * e) % a = base + i * e
  visits : ∀ (n x : Nat), as.reverse[n]? = some x → x = base + n % (k + 1) * e
  pos : r.pos = as.length % (k + 1)
  below : r.pos ≤ k ∧ r.bell ≤ k ∧ ∀ v ∈ bs, v ≤ k

end

section

variable {e m a base k : Nat} {r₀ r : Row} {as bs : List Nat}

theorem Life.fixed (life : Life e m a r₀ r as bs) : r.base = r₀.base ∧ r.size = r₀.size := by
  induction life with
  | start => exact ⟨rfl, rfl⟩
  | visit _ ih => exact ih
  | bell _ _ ih => exact ih

theorem Life.bell_le (life : Life e m a r₀ r as bs) (start : r₀.bell ≤ k) (announced : ∀ v ∈ bs, v ≤ k) : r.bell ≤ k := by
  induction life with
  | start => exact start
  | visit _ ih => exact ih announced
  | bell v _ _ => exact announced v List.mem_cons_self

/-- The position counts the visits. -/
theorem Life.pos_eq (life : Life e m a r₀ r as bs) (size : r₀.size = k + 1) (word : k + 1 < m) (start : r₀.pos = 0) :
    r.pos = as.length % (k + 1) := by
  induction life with
  | start => exact start
  | visit life ih =>
    rename_i r as bs
    have below := Nat.mod_lt (as.length + 1) (show 0 < k + 1 by omega)
    rw [Row.next, life.fixed.2, size, ih, Nat.mod_add_mod, List.length_cons]
    exact Nat.mod_eq_of_lt (by omega)
  | bell v _ ih => exact ih

theorem Life.visits_eq (life : Life e m a r₀ r as bs) (size : r₀.size = k + 1) (word : k + 1 < m) (start : r₀.pos = 0)
    (exact : ∀ i ≤ k, (r₀.base + i * e) % a = r₀.base + i * e) {n x : Nat} (here : as.reverse[n]? = some x) :
    x = r₀.base + n % (k + 1) * e := by
  induction life with
  | start => cases here
  | visit life ih =>
    rename_i r as bs
    rw [List.reverse_cons] at here
    rcases Nat.lt_or_ge n as.reverse.length with earlier | last
    · rw [List.getElem?_append_left earlier] at here
      exact ih here
    · rw [List.getElem?_append_right last] at here
      have lt := (List.getElem?_eq_some_iff.mp here).1
      rw [List.length_singleton] at lt
      obtain rfl : n = as.reverse.length := by omega
      rw [Nat.sub_self] at here
      cases here
      have pos := life.pos_eq size word start
      have below := Nat.mod_lt as.length (show 0 < k + 1 by omega)
      rw [Row.slot, life.fixed.1, pos, List.length_reverse]
      exact exact _ (by omega)
  | bell v _ ih => exact ih here

/-- A new ring obeys the law as long as its size is a word, its last address fits, and no index beyond
the ring is announced. -/
theorem Life.law_iff (life : Life e m a ⟨base, (k + 1) % m, 0, 0⟩ r as bs) (hm : 0 < m) (ha : 0 < a) :
    Law e a base k r as bs ↔ k + 1 < m ∧ base + k * e < a ∧ ∀ v ∈ bs, v ≤ k := by
  obtain ⟨rowBase, rowSize⟩ := life.fixed
  constructor
  · intro law
    have size : (k + 1) % m = k + 1 := rowSize.symm.trans law.row.2
    have last := law.exact k (Nat.le_refl k)
    refine ⟨?_, ?_, law.below.2.2⟩
    · rw [← size]
      exact Nat.mod_lt _ hm
    · rw [← last]
      exact Nat.mod_lt _ ha
  · rintro ⟨word, fits, announced⟩
    have size : (k + 1) % m = k + 1 := Nat.mod_eq_of_lt word
    have exact (i : Nat) (le : i ≤ k) : (base + i * e) % a = base + i * e := by
      have := Nat.mul_le_mul_right e le
      exact Nat.mod_eq_of_lt (by omega)
    have pos := life.pos_eq size word rfl
    have below := Nat.mod_lt as.length (show 0 < k + 1 by omega)
    refine ⟨⟨rowBase, rowSize.trans size⟩, exact, fun n x here => life.visits_eq size word rfl exact here, pos, ?_, ?_, announced⟩
    · omega
    · exact life.bell_le (Nat.zero_le k) announced

end
end AlkaliFw.Ring
