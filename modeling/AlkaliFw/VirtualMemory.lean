import Mathlib.Data.List.Pairwise
import Mathlib.Data.List.Perm.Basic
import Mathlib.Tactic.Ring

/-! The memory manager of the simulated device, `virtual_memory.cc`: blocks of pages with their place in the table of
physical pages, and freed blocks that are given out again. -/

namespace AlkaliFw

/-- `VTA_PAGE_BYTES`. -/
def kPageSize : Nat := 1 <<< 12

/-- `data` is the address of the first of `numPages` pages. -/
structure Page where
  ptableBegin : Nat
  numPages : Nat
  data : Nat
  deriving DecidableEq, Repr

namespace Page

def bytes (p : Page) : Nat := p.numPages * kPageSize

/-- Allocations do not overlap; also one of no pages has an address of its own. -/
def Apart (p q : Page) : Prop := p.data + max 1 p.bytes ≤ q.data ∨ q.data + max 1 q.bytes ≤ p.data

instance : Std.Symm Apart := ⟨fun _ _ apart => Or.symm apart⟩

theorem Apart.ne {p q : Page} (apart : p.Apart q) : p.data ≠ q.data := by
  rw [Apart] at apart
  omega

end Page

/-- `ptable_` points to blocks; `free_map_` is sorted by the number of pages, equal ones in the order of insertion. -/
structure VirtualMemoryManager where
  ptable : List Page := []
  pmap : List Page := []
  freeMap : List Page := []
  deriving DecidableEq, Repr

namespace VirtualMemoryManager

/-- `lower_bound`, and `erase` of what it finds. -/
def takeFree (npage : Nat) : List Page → Option (Page × List Page)
  | [] => none
  | p :: rest =>
    if npage ≤ p.numPages then some (p, rest) else (takeFree npage rest).map fun found => (found.1, p :: found.2)

/-- `insert`, behind the blocks that are not larger. -/
def insertFree (p : Page) : List Page → List Page
  | [] => [p]
  | q :: rest => if p.numPages < q.numPages then p :: q :: rest else q :: insertFree p rest

/-- The pages for `size` bytes, in the arithmetic of `size_t`. -/
def npages (size : Nat) : Nat := (size + kPageSize - 1) % 2 ^ 64 / kPageSize

/-- `Alloc`; a new block has its pages at `fresh`. -/
def alloc (m : VirtualMemoryManager) (size fresh : Nat) : VirtualMemoryManager × Nat :=
  match takeFree (npages size) m.freeMap with
  | some (p, rest) => ({ m with freeMap := rest }, p.data)
  | none =>
    let p : Page := ⟨m.ptable.length, npages size, fresh⟩
    ({ m with ptable := m.ptable ++ List.replicate p.numPages p, pmap := p :: m.pmap }, p.data)

/-- `Free`; `none` when the `CHECK` fails. -/
def free (m : VirtualMemoryManager) (data : Nat) : Option VirtualMemoryManager :=
  if m.pmap = [] then some m
  else (m.pmap.find? fun p => p.data = data).map fun p => { m with freeMap := insertFree p m.freeMap }

/-- `GetAddr`; for an address below the first page the index is that of no page. -/
def getAddr (m : VirtualMemoryManager) (phyAddr : Nat) : Option Nat :=
  if phyAddr = 0 then none
  else
    let loc := (phyAddr / kPageSize + 2 ^ 64 - 1) % 2 ^ 64
    (m.ptable[loc]?).map fun p => p.data + ((loc - p.ptableBegin) * kPageSize + phyAddr % kPageSize)

/-- `GetPhyAddr`, a `vta_phy_addr_t` of 32 bits; `order` is that in which the loop comes to the blocks. -/
def getPhyAddr (m : VirtualMemoryManager) (order : List Page) (buf : Nat) : Option Nat :=
  match m.pmap.find? fun p => p.data = buf with
  | some p => some ((p.ptableBegin + 1) * kPageSize % 2 ^ 32)
  | none =>
    (order.find? fun p => p.data ≤ buf ∧ buf < p.data + p.bytes).map fun p =>
      ((p.ptableBegin + 1) * kPageSize + (buf - p.data)) % 2 ^ 32

/-- The managers after calls, with the blocks in use and their sizes. What is freed is in use, and new pages do not overlap
those of other blocks. -/
inductive Reached : VirtualMemoryManager → List (Nat × Nat) → Prop
  | start : Reached {} []
  | alloc {m : VirtualMemoryManager} {live : List (Nat × Nat)} (size fresh : Nat) (reached : Reached m live)
      (small : size + kPageSize ≤ 2 ^ 64)
      (apart : takeFree (npages size) m.freeMap = none →
        ∀ q ∈ m.pmap, Page.Apart ⟨m.ptable.length, npages size, fresh⟩ q) :
      Reached (m.alloc size fresh).1 (((m.alloc size fresh).2, size) :: live)
  | free {m m' : VirtualMemoryManager} {before after : List (Nat × Nat)} {data size : Nat}
      (reached : Reached m (before ++ (data, size) :: after)) (freed : m.free data = some m') : Reached m' (before ++ after)

/-- What the calls keep. -/
structure Sound (m : VirtualMemoryManager) (live : List (Nat × Nat)) : Prop where
  apart : m.pmap.Pairwise Page.Apart
  table : ∀ i p, m.ptable[i]? = some p ↔ p ∈ m.pmap ∧ p.ptableBegin ≤ i ∧ i < p.ptableBegin + p.numPages
  inside : ∀ p ∈ m.pmap, p.ptableBegin + p.numPages ≤ m.ptable.length
  /-- Each block is either in use or free. -/
  owned : (live.map Prod.fst ++ m.freeMap.map Page.data).Perm (m.pmap.map Page.data)
  freed : ∀ p ∈ m.freeMap, p ∈ m.pmap
  fits : ∀ b ∈ live, ∃ p ∈ m.pmap, p.data = b.1 ∧ b.2 ≤ p.bytes

section Lists

variable {npage : Nat} {l rest : List Page} {p : Page}

theorem takeFree_some (taken : takeFree npage l = some (p, rest)) : npage ≤ p.numPages ∧ l.Perm (p :: rest) := by
  induction l generalizing rest with
  | nil => cases taken
  | cons q l ih =>
      rw [takeFree] at taken
      split at taken
      · rename_i enough
        obtain ⟨rfl, rfl⟩ := Prod.mk.inj (Option.some.inj taken)
        exact ⟨enough, .refl _⟩
      · obtain ⟨⟨p', rest'⟩, found, eq⟩ := Option.map_eq_some_iff.mp taken
        obtain ⟨rfl, rfl⟩ := Prod.mk.inj eq
        obtain ⟨enough, perm⟩ := ih found
        exact ⟨enough, (perm.cons q).trans (.swap p' q rest')⟩

theorem insertFree_perm (p : Page) (l : List Page) : (insertFree p l).Perm (p :: l) := by
  induction l with
  | nil => exact .refl _
  | cons q l ih =>
      rw [insertFree]
      split
      · exact .refl _
      · exact (ih.cons q).trans (.swap p q l)

end Lists

theorem npages_enough {size : Nat} (small : size + kPageSize ≤ 2 ^ 64) : size ≤ npages size * kPageSize := by
  change size ≤ (size + 4096 - 1) % 2 ^ 64 / 4096 * 4096
  change size + 4096 ≤ _ at small
  omega

section Invariant

variable {m m' : VirtualMemoryManager} {live before after : List (Nat × Nat)} {size fresh data : Nat} {p q : Page}

theorem Sound.same (h : Sound m live) (mem : p ∈ m.pmap) (mem' : q ∈ m.pmap) (same : p.data = q.data) : p = q := by
  by_contra differ
  exact Page.Apart.ne (h.apart.forall mem mem' differ) same

theorem sound_start : Sound {} [] where
  apart := .nil
  table := by simp
  inside := by simp
  owned := .refl _
  freed := by simp
  fits := by simp

theorem Sound.reuse (h : Sound m live) {rest : List Page} (small : size + kPageSize ≤ 2 ^ 64)
    (taken : takeFree (npages size) m.freeMap = some (p, rest)) :
    Sound { m with freeMap := rest } ((p.data, size) :: live) := by
  obtain ⟨enough, perm⟩ := takeFree_some taken
  have mem : p ∈ m.pmap := h.freed p (perm.mem_iff.mpr List.mem_cons_self)
  refine
    { apart := h.apart
      table := h.table
      inside := h.inside
      owned := ?_
      freed := fun q later => h.freed q (perm.mem_iff.mpr (List.mem_cons_of_mem p later))
      fits := fun b held => ?_ }
  · refine List.Perm.trans ?_ h.owned
    rw [List.map_cons, List.cons_append]
    exact List.perm_middle.symm.trans (((perm.map Page.data).symm).append_left _)
  · obtain rfl | old := List.mem_cons.mp held
    · refine ⟨p, mem, rfl, (npages_enough small).trans (Nat.mul_le_mul_right _ enough)⟩
    · exact h.fits b old

theorem Sound.grow (h : Sound m live) (small : size + kPageSize ≤ 2 ^ 64)
    (apart : ∀ q ∈ m.pmap, Page.Apart ⟨m.ptable.length, npages size, fresh⟩ q) :
    Sound { m with
      ptable := m.ptable ++ List.replicate (npages size) ⟨m.ptable.length, npages size, fresh⟩
      pmap := ⟨m.ptable.length, npages size, fresh⟩ :: m.pmap } ((fresh, size) :: live) := by
  refine
    { apart := List.pairwise_cons.mpr ⟨apart, h.apart⟩
      table := fun i p => ?_
      inside := fun p mem => ?_
      owned := ?_
      freed := fun p mem => List.mem_cons_of_mem _ (h.freed p mem)
      fits := fun b held => ?_ }
  · dsimp only
    rw [List.mem_cons]
    by_cases old : i < m.ptable.length
    · rw [List.getElem?_append_left old, h.table]
      refine ⟨fun ⟨mem, range⟩ => ⟨Or.inr mem, range⟩, fun ⟨which, range⟩ => ⟨?_, range⟩⟩
      obtain rfl | mem := which
      · exact absurd range.1 (Nat.not_le.mpr old)
      · exact mem
    · rw [List.getElem?_append_right (Nat.le_of_not_lt old), List.getElem?_replicate]
      by_cases new : i - m.ptable.length < npages size
      · rw [if_pos new, Option.some.injEq]
        constructor
        · rintro rfl
          exact ⟨Or.inl rfl, Nat.le_of_not_lt old, by dsimp only; omega⟩
        · rintro ⟨rfl | mem, range⟩
          · rfl
          · have bound := h.inside p mem
            omega
      · rw [if_neg new]
        refine ⟨fun none => (by cases none), fun ⟨which, range⟩ => ?_⟩
        obtain rfl | mem := which
        · dsimp only at range
          omega
        · have bound := h.inside p mem
          omega
  · rw [List.length_append, List.length_replicate]
    obtain rfl | old := List.mem_cons.mp mem
    · exact le_rfl
    · exact (h.inside p old).trans (Nat.le_add_right _ _)
  · exact h.owned.cons fresh
  · obtain rfl | old := List.mem_cons.mp held
    · exact ⟨_, List.mem_cons_self, rfl, npages_enough small⟩
    · obtain ⟨p, mem, eq, enough⟩ := h.fits b old
      exact ⟨p, List.mem_cons_of_mem _ mem, eq, enough⟩

theorem Sound.alloc (h : Sound m live) (small : size + kPageSize ≤ 2 ^ 64)
    (apart : takeFree (npages size) m.freeMap = none → ∀ q ∈ m.pmap, Page.Apart ⟨m.ptable.length, npages size, fresh⟩ q) :
    Sound (m.alloc size fresh).1 (((m.alloc size fresh).2, size) :: live) := by
  rw [VirtualMemoryManager.alloc]
  cases taken : takeFree (npages size) m.freeMap with
  | none => exact h.grow small (apart taken)
  | some found => exact h.reuse small taken

theorem Sound.free (h : Sound m (before ++ (data, size) :: after)) (freed : m.free data = some m') :
    Sound m' (before ++ after) := by
  obtain ⟨p, mem, eq, -⟩ := h.fits (data, size) (List.mem_append_right _ List.mem_cons_self)
  rw [VirtualMemoryManager.free, if_neg (List.ne_nil_of_mem mem)] at freed
  obtain ⟨q, found, rfl⟩ := Option.map_eq_some_iff.mp freed
  have q_mem := List.mem_of_find?_eq_some found
  have q_data : q.data = data := by simpa using List.find?_some found
  have perm := insertFree_perm q m.freeMap
  refine
    { apart := h.apart
      table := h.table
      inside := h.inside
      owned := ?_
      freed := fun r held => ?_
      fits := fun b held => h.fits b ?_ }
  · refine List.Perm.trans ?_ h.owned
    rw [List.map_append, List.map_append, List.map_cons]
    refine ((perm.map Page.data).append_left _).trans ?_
    rw [List.map_cons, q_data, List.append_assoc, List.append_assoc]
    refine List.Perm.append_left _ ?_
    exact List.perm_middle
  · obtain rfl | old := List.mem_cons.mp (perm.mem_iff.mp held)
    · exact q_mem
    · exact h.freed r old
  · obtain front | back := List.mem_append.mp held
    · exact List.mem_append_left _ front
    · exact List.mem_append_right _ (List.mem_cons_of_mem _ back)

theorem Reached.sound (reached : Reached m live) : Sound m live := by
  induction reached with
  | start => exact sound_start
  | alloc size fresh reached small apart ih => exact ih.alloc small apart
  | free reached freed ih => exact ih.free freed

end Invariant

section Addresses

variable {m : VirtualMemoryManager} {live : List (Nat × Nat)} {order : List Page} {p : Page} {off : Nat}

/-- The blocks in use do not overlap. -/
theorem Sound.disjoint (h : Sound m live) : live.Pairwise fun b b' => b.1 + b.2 ≤ b'.1 ∨ b'.1 + b'.2 ≤ b.1 := by
  have nodup : (m.pmap.map Page.data).Nodup := List.pairwise_map.mpr (h.apart.imp Page.Apart.ne)
  have unique := (List.nodup_append.mp (h.owned.nodup_iff.mpr nodup)).1
  refine (List.pairwise_map.mp unique).imp_of_mem fun {b b'} mem mem' differ => ?_
  obtain ⟨p, p_mem, data, enough⟩ := h.fits b mem
  obtain ⟨p', p_mem', data', enough'⟩ := h.fits b' mem'
  have other : p ≠ p' := fun same => differ (by rw [← data, ← data', same])
  have apart := h.apart.forall p_mem p_mem' other
  rw [Page.Apart, data, data'] at apart
  omega

/-- Only one block has an address, whichever block the loop comes to first. -/
theorem Sound.find_inside (h : Sound m live) (perm : order.Perm m.pmap) (mem : p ∈ m.pmap) (inside : off < p.bytes) :
    (order.find? fun q => q.data ≤ p.data + off ∧ p.data + off < q.data + q.bytes) = some p := by
  have here : decide (p.data ≤ p.data + off ∧ p.data + off < p.data + p.bytes) = true := by
    simp [inside]
  cases found : order.find? fun q => q.data ≤ p.data + off ∧ p.data + off < q.data + q.bytes with
  | none => exact absurd here (List.find?_eq_none.mp found p (perm.mem_iff.mpr mem))
  | some q =>
      have q_mem := perm.mem_iff.mp (List.mem_of_find?_eq_some found)
      have q_inside : q.data ≤ p.data + off ∧ p.data + off < q.data + q.bytes := by
        simpa only [decide_eq_true_eq] using List.find?_some found
      by_contra differ
      have other : q ≠ p := fun same => differ (congrArg some same)
      have apart := h.apart.forall q_mem mem other
      rw [Page.Apart] at apart
      omega

theorem Sound.getPhyAddr (h : Sound m live) (perm : order.Perm m.pmap) (mem : p ∈ m.pmap) (inside : off < p.bytes ∨ off = 0) :
    m.getPhyAddr order (p.data + off) = some (((p.ptableBegin + 1) * kPageSize + off) % 2 ^ 32) := by
  rw [VirtualMemoryManager.getPhyAddr]
  cases found : m.pmap.find? fun q => q.data = p.data + off with
  | some q =>
      have q_mem := List.mem_of_find?_eq_some found
      have q_data : q.data = p.data + off := by simpa using List.find?_some found
      have same : q = p := by
        by_contra differ
        have apart := h.apart.forall q_mem mem differ
        rw [Page.Apart] at apart
        omega
      subst same
      obtain rfl : off = 0 := by omega
      rw [Nat.add_zero ((q.ptableBegin + 1) * kPageSize)]
  | none =>
      have some : off ≠ 0 := by
        rintro rfl
        have here := List.find?_eq_none.mp found p mem
        simp at here
      dsimp only
      rw [h.find_inside perm mem (inside.resolve_right some), Option.map_some, Nat.add_sub_cancel_left]

theorem Sound.getAddr (h : Sound m live) (room : m.ptable.length < 2 ^ 20) (mem : p ∈ m.pmap) (inside : off < p.bytes) :
    m.getAddr ((p.ptableBegin + 1) * kPageSize + off) = some (p.data + off) := by
  have page : kPageSize = 4096 := rfl
  have bound := h.inside p mem
  rw [Page.bytes, page] at inside
  have positive : (p.ptableBegin + 1) * 4096 + off ≠ 0 := by omega
  have index : (((p.ptableBegin + 1) * 4096 + off) / 4096 + 2 ^ 64 - 1) % 2 ^ 64 = p.ptableBegin + off / 4096 := by omega
  have entry : m.ptable[p.ptableBegin + off / 4096]? = some p := (h.table _ p).mpr ⟨mem, by omega, by omega⟩
  have offset : p.data + ((p.ptableBegin + off / 4096 - p.ptableBegin) * 4096 + ((p.ptableBegin + 1) * 4096 + off) % 4096) =
      p.data + off := by omega
  simp only [VirtualMemoryManager.getAddr, page]
  rw [if_neg positive, index, entry, Option.map_some, offset]

end Addresses

/-- Blocks in use do not overlap, and while there are less than 4 GiB of pages the device finds each of their bytes at the
physical address, also by elements that a page is a multiple of. -/
theorem reached_mapped (m : VirtualMemoryManager) (live : List (Nat × Nat)) (order : List Page) (reached : Reached m live)
    (perm : order.Perm m.pmap) (room : m.ptable.length < 2 ^ 20) :
    (live.Pairwise fun b b' => b.1 + b.2 ≤ b'.1 ∨ b'.1 + b'.2 ≤ b.1) ∧
      ∀ b ∈ live, 0 < b.2 → ∃ phy, m.getPhyAddr order b.1 = some phy ∧ phy ≠ 0 ∧
        (∀ off < b.2, m.getPhyAddr order (b.1 + off) = some (phy + off) ∧ m.getAddr (phy + off) = some (b.1 + off)) ∧
        ∀ elemBytes k, elemBytes ∣ kPageSize → k * elemBytes < b.2 →
          m.getAddr ((phy / elemBytes + k) * elemBytes) = some (b.1 + k * elemBytes) := by
  have h := reached.sound
  refine ⟨h.disjoint, fun b held some => ?_⟩
  obtain ⟨p, mem, data, enough⟩ := h.fits b held
  have bound := h.inside p mem
  have small {off : Nat} (inside : off < b.2) : (p.ptableBegin + 1) * kPageSize + off < 2 ^ 32 := by
    have page : kPageSize = 4096 := rfl
    rw [Page.bytes, page] at enough
    rw [page]
    omega
  have physical (off : Nat) (inside : off < b.2) :
      m.getPhyAddr order (b.1 + off) = Option.some ((p.ptableBegin + 1) * kPageSize + off) := by
    rw [← data, h.getPhyAddr perm mem (Or.inl (inside.trans_le enough)), Nat.mod_eq_of_lt (small inside)]
  have address (off : Nat) (inside : off < b.2) :
      m.getAddr ((p.ptableBegin + 1) * kPageSize + off) = Option.some (b.1 + off) := by
    rw [← data, h.getAddr room mem (inside.trans_le enough)]
  have positive : (p.ptableBegin + 1) * kPageSize ≠ 0 := Nat.mul_ne_zero (Nat.succ_ne_zero _) (by decide)
  refine ⟨(p.ptableBegin + 1) * kPageSize, by simpa only [Nat.add_zero] using physical 0 some, positive,
    fun off inside => ⟨physical off inside, address off inside⟩, fun e k pages inside => ?_⟩
  have whole : ((p.ptableBegin + 1) * kPageSize / e + k) * e = (p.ptableBegin + 1) * kPageSize + k * e := by
    rw [Nat.add_mul, Nat.div_mul_cancel (Dvd.dvd.mul_left pages _)]
  rw [whole]
  exact address _ inside

/-- Two blocks, of which the first is freed and given out again. -/
def reused : VirtualMemoryManager where
  ptable := [⟨0, 2, 4096⟩, ⟨0, 2, 4096⟩, ⟨2, 1, 65536⟩]
  pmap := [⟨2, 1, 65536⟩, ⟨0, 2, 4096⟩]

theorem reused_reached : Reached reused [(4096, 6000), (65536, 100)] := by
  have first : Reached _ [(4096, 5000)] := .alloc 5000 4096 .start (by decide) (by simp)
  have second : Reached _ [(65536, 100), (4096, 5000)] := .alloc 100 65536 first (by decide) fun _ q mem => by
    obtain rfl := List.mem_singleton.mp mem
    exact Or.inr (by decide)
  have freed : Reached { reused with freeMap := [⟨0, 2, 4096⟩] } ([(65536, 100)] ++ []) := .free second rfl
  exact .alloc 6000 0 freed (by decide) fun none => absurd none (by decide)

theorem reused_mapped :
    ([(4096, 6000), (65536, 100)].Pairwise fun b b' : Nat × Nat => b.1 + b.2 ≤ b'.1 ∨ b'.1 + b'.2 ≤ b.1) ∧
      ∀ b ∈ [(4096, 6000), (65536, 100)], 0 < b.2 → ∃ phy, reused.getPhyAddr reused.pmap b.1 = some phy ∧ phy ≠ 0 ∧
        (∀ off < b.2, reused.getPhyAddr reused.pmap (b.1 + off) = some (phy + off) ∧
          reused.getAddr (phy + off) = some (b.1 + off)) ∧
        ∀ elemBytes k, elemBytes ∣ kPageSize → k * elemBytes < b.2 →
          reused.getAddr ((phy / elemBytes + k) * elemBytes) = some (b.1 + k * elemBytes) :=
  reached_mapped reused _ reused.pmap reused_reached (.refl _) (by decide)

end VirtualMemoryManager

end AlkaliFw
