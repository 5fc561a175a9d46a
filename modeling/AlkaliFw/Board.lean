import Mathlib.Order.Lattice
import Mathlib.Order.Defs.LinearOrder
import AlkaliFw.System

/-! A platform that can be executed: the lowest free block of a slab, a pool that hands out
memory above every live block, and requests to the APU that are always accepted. The
host's first register writes follow. -/

namespace AlkaliFw

/-- The first index from `i` on that is not in use, looking at `n` of them. -/
def firstFree (used : List Nat) : (n i : Nat) → Nat
  | 0, i => i
  | n + 1, i => if i ∈ used then firstFree used n (i + 1) else i

theorem firstFree_le (used : List Nat) (n i : Nat) : firstFree used n i ≤ i + n := by
  induction n generalizing i with
  | zero => exact le_rfl
  | succ n ih =>
    rw [firstFree]
    split
    · have := ih (i + 1)
      omega
    · omega

/-- If the search ends at an index in use, then so are all that it passed. -/
theorem mem_of_firstFree_mem {used : List Nat} {n i : Nat} (h : firstFree used n i ∈ used) :
    ∀ j, i ≤ j → j ≤ i + n → j ∈ used := by
  induction n generalizing i with
  | zero =>
    intro j lo hi
    obtain rfl : j = i := by omega
    exact h
  | succ n ih =>
    rw [firstFree] at h
    split at h
    · intro j lo hi
      by_cases first : j = i
      · rwa [first]
      · exact ih h j (by omega) (by omega)
    · contradiction

theorem firstFree_not_mem (used : List Nat) : firstFree used used.length 0 ∉ used := by
  intro h
  have all := mem_of_firstFree_mem h
  have sub : List.range (used.length + 1) ⊆ used := by
    intro j hj
    have := List.mem_range.mp hj
    exact all j (by omega) (by omega)
  have := (List.subperm_of_subset List.nodup_range sub).length_le
  rw [List.length_range] at this
  omega

/-- The end of the highest live block. -/
def poolTop (base : Nat) : List PoolBlock → Nat
  | [] => base
  | l :: live => max (l.block.data + l.size) (poolTop base live)

def poolId : List PoolBlock → Nat
  | [] => 1
  | l :: live => max (l.block.id + 1) (poolId live)

theorem le_poolTop (base : Nat) (live : List PoolBlock) : base ≤ poolTop base live := by
  induction live with
  | nil => exact le_rfl
  | cons l live ih => exact ih.trans (le_max_right _ _)

theorem poolTop_ge {base : Nat} {live : List PoolBlock} {l : PoolBlock} (h : l ∈ live) :
    l.block.data + l.size ≤ poolTop base live := by
  induction live with
  | nil => cases h
  | cons m live ih =>
    rcases List.mem_cons.mp h with rfl | later
    · exact le_max_left _ _
    · exact (ih later).trans (le_max_right _ _)

theorem lt_poolId {live : List PoolBlock} {l : PoolBlock} (h : l ∈ live) : l.block.id < poolId live := by
  induction live with
  | nil => cases h
  | cons m live ih =>
    rw [poolId]
    rcases List.mem_cons.mp h with rfl | later
    · omega
    · have := ih later
      omega

def ioQueueId : QId := ⟨1, one_lt_queues⟩

def boardPoolBase : Nat := 0x60000000
def boardPoolSize : Nat := nvmeBufferPoolEntries * nvmeBufferSize

/-- `mps` is the size of a PRP list buffer. -/
def board (mps : Nat) : Platform where
  nvmePrpListSize := mps
  slabPick _ _ used := firstFree used used.length 0
  slabPick_free _ n used h := by
    have := firstFree_le used used.length 0
    exact ⟨by omega, firstFree_not_mem used⟩
  poolPick _ live size :=
    let top := poolTop boardPoolBase live
    if top + size ≤ boardPoolBase + boardPoolSize then some (⟨top, poolId live⟩, size) else none
  poolPick_size _ live size b n h := by
    dsimp only at h
    split at h
    · cases h
      have := le_poolTop boardPoolBase live
      have : boardPoolBase + boardPoolSize ≤ 2 ^ 32 := by decide
      have : 0 < boardPoolBase := by decide
      dsimp only
      omega
    · cases h
  poolPick_fresh _ live size b n h l hl := by
    dsimp only at h
    split at h
    · cases h
      exact ⟨(lt_poolId hl).ne, .inl (poolTop_ge hl)⟩
    · cases h
  kMalloc _ := true
  rpmsgSend _ := true
  respBuf _ := 0x10000
  identField _ := 0
  identSize _ := 1
  poolBase := boardPoolBase
  poolSize := boardPoolSize

/-- The host programs admin queues of 16 entries and sets CC.EN. -/
def setUp : List Event :=
  [.hostWrite (nvmeTcRegAqa / 4) (15 + 15 * 2 ^ 16), .hostWrite (nvmeTcRegAsq0 / 4) 0x10000,
    .hostWrite (nvmeTcRegAsq1 / 4) 0, .hostWrite (nvmeTcRegAcq0 / 4) 0x20000, .hostWrite (nvmeTcRegAcq1 / 4) 0,
    .hostWrite (nvmeTcRegCc / 4) 1, .tcIrq]

end AlkaliFw
