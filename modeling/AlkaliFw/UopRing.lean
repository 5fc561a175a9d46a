import AlkaliFw.Layout
import AlkaliFw.Vta

/-! The micro-op cache of `vta_runtime.cc`. Kernels are placed one after the other in the micro-op
memory; when its end is reached, placing begins anew at its start and evicts what is in the way. The
loads are emitted with the pushes, but what they read is written at the end, from the kernels that are
cached then. -/

namespace AlkaliFw

structure VTAUop where
  dstIdx : Nat := 0
  srcIdx : Nat := 0
  wgtIdx : Nat := 0
  deriving DecidableEq, Repr

/-- `UopQueue`, with `sram_begin_` and `sram_end_` of each kernel. -/
structure UopRing (K : Type) where
  sramBegin : Nat := 0
  sramEnd : Nat := 0
  cacheIdx : Nat := 0
  cache : List K := []
  place : K → Nat × Nat := fun _ => (0, 0)

namespace UopRing

section Code

variable {K U : Type} [DecidableEq K] (seq : K → List U) (r : UopRing K)

def size (k : K) : Nat := (seq k).length

/-- `cached` of a kernel. -/
def cached (k : K) : Prop := (r.place k).1 ≠ (r.place k).2

instance (k : K) : Decidable (r.cached k) := inferInstanceAs (Decidable (_ ≠ _))

def pending : Bool := r.sramBegin != r.sramEnd

/-- The kernels from `idx` on that begin before `sramEnd`, and those after them. -/
def evicted (idx sramEnd : Nat) : List K := (r.cache.drop idx).takeWhile fun e => (r.place e).1 < sramEnd

def kept (idx sramEnd : Nat) : List K := (r.cache.drop idx).dropWhile fun e => (r.place e).1 < sramEnd

/-- The kernel `k` at `uopBegin`, before the entry `idx` of the cache. -/
def insert (k : K) (sramBegin uopBegin idx : Nat) : UopRing K :=
  let sramEnd := uopBegin + size seq k
  { sramBegin
    sramEnd
    cacheIdx := idx + 1
    cache := r.cache.take idx ++ k :: r.kept idx sramEnd
    place := fun e => if e = k then (uopBegin, sramEnd) else if e ∈ r.evicted idx sramEnd then (0, 0) else r.place e }

/-- `Push`; `none` when a `CHECK` fails. The buffer of micro-ops in DRAM stays empty, so there is never a reason to
synchronize. -/
def push (k : K) : Option (UopRing K) :=
  if r.cached k then some r
  else if vtaUopBuffDepth < size seq k then none
  else if size seq k = 0 then none
  else if vtaUopBuffDepth < r.sramEnd + size seq k then some (r.insert seq k 0 0 0)
  else some (r.insert seq k r.sramBegin r.sramEnd r.cacheIdx)

/-- The instruction that `FlushUopLoad` fills. -/
def uopLoad : MemInsn where
  memoryType := .uop
  sramBase := r.sramBegin
  dramBase := Layout.total (size seq) (r.cache.take (r.cacheIdx - 1))
  ySize := 1
  xSize := r.sramEnd - r.sramBegin
  xStride := r.sramEnd - r.sramBegin

def flushUopLoad : UopRing K := { r with sramBegin := r.sramEnd }

/-- What `ReadBarrier` copies to the start of the buffer. -/
def readBarrier : List U := r.cache.flatMap seq

def reset : UopRing K where
  place k := if k ∈ r.cache then (0, 0) else r.place k

end Code

end UopRing

/-- What a push adds to the instructions, as far as micro-ops are concerned. -/
inductive UopInsn (K : Type) where
  | load (m : MemInsn)
  | compute (k : K) (uopBgn uopEnd : Nat)

namespace UopRing

section Code

variable {K U : Type} [DecidableEq K] (seq : K → List U)

/-- `PushGEMMOp` and `PushALUUop` of a kernel. -/
def pushKernel (r : UopRing K) (k : K) : Option (UopRing K × List (UopInsn K)) :=
  (r.push seq k).map fun r' =>
    if r'.pending then (r'.flushUopLoad, [.load (r'.uopLoad seq), .compute k (r'.place k).1 (r'.place k).2])
    else (r', [.compute k (r'.place k).1 (r'.place k).2])

/-- The pushes up to a synchronization. -/
def pushKernels (r : UopRing K) : List K → Option (UopRing K × List (UopInsn K))
  | [] => some (r, [])
  | k :: ks => (r.pushKernel seq k).bind fun x => (pushKernels x.1 ks).map fun y => (y.1, x.2 ++ y.2)

end Code

end UopRing

/-- `SRAM::Load` of micro-ops, which have one row and no padding. -/
def loadUops {U : Type} (buff sram : Nat → U) (m : MemInsn) : Nat → U := fun p =>
  if m.sramBase ≤ p ∧ p < m.sramBase + m.xSize then buff (m.dramBase + (p - m.sramBase)) else sram p

/-- The buffer in DRAM after the copy of `l`. -/
def copyFromHost {U : Type} (buff : Nat → U) (l : List U) : Nat → U := fun p => (l[p]?).getD (buff p)

/-- Every computation reads the micro-ops of its kernel. -/
def FindsUops {K U : Type} (seq : K → List U) (buff : Nat → U) : (Nat → U) → List (UopInsn K) → Prop
  | _, [] => True
  | sram, .load m :: rest => FindsUops seq buff (loadUops buff sram m) rest
  | sram, .compute k uopBgn uopEnd :: rest =>
    (List.range' uopBgn (uopEnd - uopBgn)).map sram = seq k ∧ FindsUops seq buff sram rest

namespace UopRing
open Layout

variable {K U : Type} {seq : K → List U} {r r' : UopRing K} {k : K}

/-- The first `cacheIdx` kernels fill the memory up to `sramEnd`; the others lie behind them. -/
structure WellPlaced (seq : K → List U) (r : UopRing K) : Prop where
  nodup : r.cache.Nodup
  cached : ∀ k, r.cached k ↔ k ∈ r.cache
  idx : r.cacheIdx ≤ r.cache.length
  front : Tiles (size seq) r.place 0 (r.cache.take r.cacheIdx) r.sramEnd
  back : Spread (size seq) r.place vtaUopBuffDepth r.sramEnd (r.cache.drop r.cacheIdx)

theorem wellPlaced_empty : WellPlaced seq ({} : UopRing K) where
  nodup := .nil
  cached k := by simp [UopRing.cached]
  idx := le_rfl
  front := rfl
  back := Nat.zero_le _

theorem WellPlaced.spread (h : WellPlaced seq r) : Spread (size seq) r.place vtaUopBuffDepth 0 r.cache := by
  have all := h.front.spread h.back
  rwa [List.take_append_drop] at all

/-- Nothing waits for a load. -/
def Flushed (r : UopRing K) : Prop := r.sramBegin = r.sramEnd

theorem pending_iff (r : UopRing K) : r.pending = true ↔ ¬r.Flushed := by
  rw [pending, bne_iff_ne, Flushed]

theorem WellPlaced.flush (h : WellPlaced seq r) : WellPlaced seq r.flushUopLoad := ⟨h.nodup, h.cached, h.idx, h.front, h.back⟩

/-- Where the kernel lies in the micro-op memory. -/
def range (r : UopRing K) (k : K) : Set Nat := Set.Ico (r.place k).1 (r.place k).2

theorem WellPlaced.apart (h : WellPlaced seq r) {k k' : K} (here : r.cached k) (here' : r.cached k') (differ : k ≠ k') :
    Disjoint (r.range k) (r.range k') := by
  have pairs : r.cache.Pairwise fun a b => Disjoint (r.range a) (r.range b) :=
    h.spread.pairwise.imp fun {a b} le => Set.Ico_disjoint_Ico.mpr (by omega)
  have symm : Std.Symm fun a b => Disjoint (r.range a) (r.range b) := ⟨fun _ _ apart => apart.symm⟩
  exact pairs.forall ((h.cached k).mp here) ((h.cached k').mp here') differ

theorem evicted_kept (r : UopRing K) (idx sramEnd : Nat) : r.evicted idx sramEnd ++ r.kept idx sramEnd = r.cache.drop idx :=
  List.takeWhile_append_dropWhile

theorem mem_split (e : K) (idx sramEnd : Nat) :
    e ∈ r.cache ↔ e ∈ r.cache.take idx ∨ e ∈ r.evicted idx sramEnd ∨ e ∈ r.kept idx sramEnd := by
  rw [← List.mem_append (s := r.evicted idx sramEnd), evicted_kept, ← List.mem_append, List.take_append_drop]

theorem nodup_split (nodup : r.cache.Nodup) (idx sramEnd : Nat) :
    (r.cache.take idx ++ (r.evicted idx sramEnd ++ r.kept idx sramEnd)).Nodup := by
  rwa [evicted_kept, List.take_append_drop]

theorem WellPlaced.sramEnd_eq (h : WellPlaced seq r) (all : r.cacheIdx = r.cache.length) : r.sramEnd = total (size seq) r.cache := by
  have sum := h.front.total
  rwa [all, List.take_length, Nat.zero_add] at sum

theorem WellPlaced.end_le (h : WellPlaced seq r) (all : r.cacheIdx = r.cache.length) {e : K} (mem : e ∈ r.cache) :
    (r.place e).2 = (r.place e).1 + size seq e ∧ (r.place e).2 ≤ r.sramEnd := by
  obtain ⟨before, after, split⟩ := List.append_of_mem mem
  have tiles := h.front
  have sum := h.sramEnd_eq all
  rw [all, List.take_length, split] at tiles
  rw [tiles.place_of_split, sum, split, total_append, total_cons]
  exact ⟨rfl, by omega⟩

/-- The load of `n` micro-ops to the place that they have in the buffer too. -/
def blockLoad (b n : Nat) : MemInsn where
  memoryType := .uop
  sramBase := b
  dramBase := b
  ySize := 1
  xSize := n
  xStride := n

section Contents

variable {buff sram : Nat → U} {b n : Nat}

theorem map_loadUops : (List.range' b n).map (loadUops buff sram (blockLoad b n)) = (List.range' b n).map buff := by
  refine List.map_congr_left fun p mem => ?_
  obtain ⟨i, less, rfl⟩ := List.mem_range'.mp mem
  change (if b ≤ b + 1 * i ∧ b + 1 * i < b + n then buff (b + (b + 1 * i - b)) else sram (b + 1 * i)) = _
  rw [if_pos (by omega), Nat.add_sub_cancel_left]

theorem map_loadUops_below {c m : Nat} (below : c + m ≤ b) :
    (List.range' c m).map (loadUops buff sram (blockLoad b n)) = (List.range' c m).map sram := by
  refine List.map_congr_left fun p mem => ?_
  obtain ⟨i, less, rfl⟩ := List.mem_range'.mp mem
  exact if_neg (show ¬(b ≤ c + 1 * i ∧ c + 1 * i < b + n) by omega)

/-- Where the buffer has the micro-ops of a kernel. -/
theorem copied_at (before after : List K) (k : K) :
    (List.range' (total (size seq) before) (size seq k)).map (copyFromHost buff ((before ++ k :: after).flatMap seq)) = seq k := by
  have length : (before.flatMap seq).length = total (size seq) before := by
    rw [List.length_flatMap]
    rfl
  refine List.ext_getElem (by rw [List.length_map, List.length_range', size]) fun i less less' => ?_
  have inside : i < size seq k := less'
  rw [List.getElem_map, List.getElem_range', one_mul, copyFromHost, List.flatMap_append, List.flatMap_cons,
    ← length, List.getElem?_append_right (Nat.le_add_right _ _), Nat.add_sub_cancel_left,
    List.getElem?_append_left inside, List.getElem?_eq_getElem less', Option.getD_some]

theorem head_of_map {l : List U} (some : 0 < n) (eq : (List.range' 0 n).map buff = l) : l[0]? = .some (buff 0) := by
  rw [← eq, List.getElem?_map, List.getElem?_range' some]
  rfl

end Contents

def placedInsns (seq : K → List U) (k : K) (b : Nat) : List (UopInsn K) :=
  [.load (blockLoad b (size seq k)), .compute k b (b + size seq k)]

/-- A part of the instructions with the place of a kernel at the start of the memory. -/
theorem finds_placed {buff sram : Nat → U} {before after : List (UopInsn K)}
    (finds : FindsUops seq buff sram (before ++ placedInsns seq k 0 ++ after)) :
    (List.range' 0 (size seq k)).map buff = seq k := by
  induction before generalizing sram with
  | nil =>
      have here := finds.1
      rwa [Nat.zero_add, Nat.sub_zero, map_loadUops] at here
  | cons insn before ih =>
      cases insn with
      | load m => exact ih finds
      | compute k' b e => exact ih finds.2

section Insert

variable [DecidableEq K] {sramBegin uopBegin idx : Nat}

theorem insert_take (le : idx ≤ r.cache.length) :
    (r.insert seq k sramBegin uopBegin idx).cache.take (idx + 1) = r.cache.take idx ++ [k] := by
  have length : (r.cache.take idx).length = idx := List.length_take_of_le le
  change (r.cache.take idx ++ k :: r.kept idx _).take (idx + 1) = _
  rw [List.take_append, length, List.take_of_length_le (by omega), Nat.add_sub_cancel_left]
  rfl

theorem insert_drop (le : idx ≤ r.cache.length) :
    (r.insert seq k sramBegin uopBegin idx).cache.drop (idx + 1) = r.kept idx (uopBegin + size seq k) := by
  have length : (r.cache.take idx).length = idx := List.length_take_of_le le
  change (r.cache.take idx ++ k :: r.kept idx _).drop (idx + 1) = _
  rw [List.drop_append, length, List.drop_of_length_le (by omega), Nat.add_sub_cancel_left]
  rfl

/-- The place of a kernel that stays. -/
theorem insert_place {e : K} (nodup : r.cache.Nodup) (new : k ∉ r.cache)
    (stays : e ∈ r.cache.take idx ∨ e ∈ r.kept idx (uopBegin + size seq k)) :
    (r.insert seq k sramBegin uopBegin idx).place e = r.place e := by
  have parts := nodup_split nodup idx (uopBegin + size seq k)
  rw [List.nodup_append, List.nodup_append] at parts
  have here : e ∈ r.cache := (mem_split e idx (uopBegin + size seq k)).mpr (stays.imp_right Or.inr)
  have other : e ≠ k := fun same => new (same ▸ here)
  have out : e ∉ r.evicted idx (uopBegin + size seq k) := fun mem => by
    obtain first | last := stays
    · exact parts.2.2 e first e (List.mem_append_left _ mem) rfl
    · exact parts.2.1.2.2 e mem e last rfl
  change (if e = k then _ else if e ∈ _ then _ else r.place e) = _
  rw [if_neg other, if_neg out]

theorem insert_place_self : (r.insert seq k sramBegin uopBegin idx).place k = (uopBegin, uopBegin + size seq k) := if_pos rfl

theorem WellPlaced.insert (h : WellPlaced seq r) (new : ¬r.cached k) (some : 0 < size seq k)
    (room : uopBegin + size seq k ≤ vtaUopBuffDepth) (le : idx ≤ r.cache.length)
    (front : Tiles (size seq) r.place 0 (r.cache.take idx) uopBegin) {b : Nat}
    (back : Spread (size seq) r.place vtaUopBuffDepth b (r.cache.drop idx)) :
    WellPlaced seq (r.insert seq k sramBegin uopBegin idx) := by
  have out : k ∉ r.cache := fun mem => new ((h.cached k).mpr mem)
  have parts := nodup_split h.nodup idx (uopBegin + size seq k)
  have split := fun e => mem_split (r := r) e idx (uopBegin + size seq k)
  refine
    { nodup := ?_
      cached := fun e => ?_
      idx := ?_
      front := ?_
      back := ?_ }
  · change (r.cache.take idx ++ k :: r.kept idx _).Nodup
    rw [List.nodup_append, List.nodup_append] at parts
    refine List.nodup_append.mpr ⟨parts.1, List.nodup_cons.mpr ⟨?_, parts.2.1.2.1⟩, fun x first y last same => ?_⟩
    · exact fun mem => out ((split k).mpr (Or.inr (Or.inr mem)))
    · subst same
      obtain rfl | later := List.mem_cons.mp last
      · exact out ((split x).mpr (Or.inl first))
      · exact parts.2.2 x first x (List.mem_append_right _ later) rfl
  · change _ ↔ e ∈ r.cache.take idx ++ k :: r.kept idx _
    rw [List.mem_append, List.mem_cons]
    by_cases same : e = k
    · subst same
      have place : (r.insert seq e sramBegin uopBegin idx).place e = _ := insert_place_self
      simp only [UopRing.cached, place, true_or, or_true, iff_true]
      omega
    · by_cases stays : e ∈ r.cache.take idx ∨ e ∈ r.kept idx (uopBegin + size seq k)
      · have here : r.cached e := (h.cached e).mpr ((split e).mpr (stays.imp_right Or.inr))
        rw [UopRing.cached, insert_place h.nodup out stays]
        exact iff_of_true here (stays.imp_right Or.inr)
      · rw [not_or] at stays
        have gone : ¬(r.insert seq k sramBegin uopBegin idx).cached e := by
          change ¬(if e = k then _ else if e ∈ _ then _ else r.place e : Nat × Nat).1 ≠
            (if e = k then _ else if e ∈ _ then _ else r.place e : Nat × Nat).2
          rw [if_neg same]
          by_cases evicts : e ∈ r.evicted idx (uopBegin + size seq k)
          · simp [if_pos evicts]
          · rw [if_neg evicts]
            exact fun here => ((split e).mp ((h.cached e).mp here)).elim stays.1 fun rest => rest.elim evicts stays.2
        exact iff_of_false gone (by simp [same, stays.1, stays.2])
  · have length : (r.cache.take idx).length = idx := List.length_take_of_le le
    change idx + 1 ≤ (r.cache.take idx ++ k :: r.kept idx _).length
    rw [List.length_append, length, List.length_cons]
    omega
  · change Tiles (size seq) _ 0 ((r.insert seq k sramBegin uopBegin idx).cache.take (idx + 1)) (uopBegin + size seq k)
    rw [insert_take le]
    refine (front.congr fun e mem => insert_place h.nodup out (Or.inl mem)).append ?_
    exact ⟨insert_place_self, rfl⟩
  · change Spread (size seq) _ _ (uopBegin + size seq k) ((r.insert seq k sramBegin uopBegin idx).cache.drop (idx + 1))
    rw [insert_drop le]
    exact (back.dropWhile room).congr fun e mem => insert_place h.nodup out (Or.inr mem)

end Insert

section Pushes

variable [DecidableEq K]

/-- A kernel that fits has at least one micro-op and no more than the memory. -/
def Fits (seq : K → List U) (k : K) : Prop := 0 < size seq k ∧ size seq k ≤ vtaUopBuffDepth

/-- What a kernel that is not in the memory becomes: placed at `b`, before the entry `idx` of the cache. -/
def placed (seq : K → List U) (r : UopRing K) (k : K) (b idx : Nat) : UopRing K := (r.insert seq k b b idx).flushUopLoad

/-- A push: of a kernel that is cached, at the end of those placed, or at the start of the memory. -/
inductive Pushed (seq : K → List U) (r : UopRing K) (k : K) : UopRing K → List (UopInsn K) → Prop
  | cached (here : r.cached k) : Pushed seq r k r [.compute k (r.place k).1 (r.place k).2]
  | next (new : ¬r.cached k) (room : r.sramEnd + size seq k ≤ vtaUopBuffDepth) :
    Pushed seq r k (r.placed seq k r.sramEnd r.cacheIdx) (placedInsns seq k r.sramEnd)
  | wraps (new : ¬r.cached k) (full : vtaUopBuffDepth < r.sramEnd + size seq k) :
    Pushed seq r k (r.placed seq k 0 0) (placedInsns seq k 0)

/-- The load reads the buffer where the kernels before it end. -/
theorem insert_emits {b idx : Nat} (some : 0 < size seq k) (le : idx ≤ r.cache.length)
    (front : Tiles (size seq) r.place 0 (r.cache.take idx) b) :
    (if (r.insert seq k b b idx).pending then
      ((r.insert seq k b b idx).flushUopLoad, [UopInsn.load ((r.insert seq k b b idx).uopLoad seq),
        .compute k ((r.insert seq k b b idx).place k).1 ((r.insert seq k b b idx).place k).2])
    else (r.insert seq k b b idx, [.compute k ((r.insert seq k b b idx).place k).1 ((r.insert seq k b b idx).place k).2])) =
      (r.placed seq k b idx, placedInsns seq k b) := by
  have waits : (r.insert seq k b b idx).pending = true := by
    rw [pending_iff, Flushed]
    change ¬b = b + size seq k
    omega
  have before : total (size seq) ((r.insert seq k b b idx).cache.take (idx + 1 - 1)) = b := by
    have length : (r.cache.take idx).length = idx := List.length_take_of_le le
    have same : (r.insert seq k b b idx).cache.take idx = r.cache.take idx := by
      change (r.cache.take idx ++ k :: r.kept idx _).take idx = _
      rw [List.take_append, length, Nat.sub_self, List.take_zero, List.append_nil, List.take_take, min_self]
    have sum := front.total
    rw [Nat.add_sub_cancel, same]
    omega
  have load : (r.insert seq k b b idx).uopLoad seq = blockLoad b (size seq k) := by
    have length : b + size seq k - b = size seq k := Nat.add_sub_cancel_left b _
    change MemInsn.mk .uop _ b (total (size seq) _) 1 (b + size seq k - b) (b + size seq k - b) _ _ _ _ = _
    rw [length]
    exact congrArg (fun d => MemInsn.mk .uop .fpgaBuff b d 1 (size seq k) (size seq k) 0 0 0 0) before
  rw [if_pos waits, insert_place_self, load]
  rfl

theorem pushKernel_cases (h : WellPlaced seq r) (flushed : r.Flushed) (fits : Fits seq k) :
    ∃ r' insns, r.pushKernel seq k = some (r', insns) ∧ Pushed seq r k r' insns := by
  have large : ¬vtaUopBuffDepth < size seq k := Nat.not_lt.mpr fits.2
  have none : ¬size seq k = 0 := fits.1.ne'
  rw [pushKernel, push]
  by_cases here : r.cached k
  · have quiet : ¬r.pending = true := fun waits => (pending_iff r).mp waits flushed
    rw [if_pos here, Option.map_some, if_neg quiet]
    exact ⟨_, _, rfl, .cached here⟩
  · rw [if_neg here, if_neg large, if_neg none]
    by_cases full : vtaUopBuffDepth < r.sramEnd + size seq k
    · rw [if_pos full, Option.map_some, insert_emits fits.1 (Nat.zero_le _) rfl]
      exact ⟨_, _, rfl, .wraps here full⟩
    · have same : r.sramBegin = r.sramEnd := flushed
      rw [if_neg full, Option.map_some, same, insert_emits fits.1 h.idx h.front]
      exact ⟨_, _, rfl, .next here (Nat.le_of_not_lt full)⟩

theorem WellPlaced.pushed {insns : List (UopInsn K)} (h : WellPlaced seq r) (flushed : r.Flushed) (fits : Fits seq k)
    (pushed : Pushed seq r k r' insns) : WellPlaced seq r' ∧ r'.Flushed := by
  cases pushed with
  | cached here => exact ⟨h, flushed⟩
  | next new room => exact ⟨(h.insert new fits.1 room h.idx h.front h.back).flush, rfl⟩
  | wraps new full =>
      exact ⟨(h.insert new fits.1 (by rw [Nat.zero_add]; exact fits.2) (Nat.zero_le _) rfl h.spread).flush, rfl⟩

theorem WellPlaced.reset (h : WellPlaced seq r) : WellPlaced seq r.reset where
  nodup := .nil
  cached k := by
    have gone : ¬r.reset.cached k := by
      change ¬(if k ∈ r.cache then (0, 0) else r.place k : Nat × Nat).1 ≠ (if k ∈ r.cache then (0, 0) else r.place k : Nat × Nat).2
      by_cases here : k ∈ r.cache
      · simp [if_pos here]
      · rw [if_neg here]
        exact fun place => here ((h.cached k).mp place)
    exact iff_of_false gone List.not_mem_nil
  idx := le_rfl
  front := rfl
  back := Nat.zero_le _

/-- What becomes of the cache of a command queue: kernels are pushed, and a synchronization clears it. -/
inductive Reached (seq : K → List U) : UopRing K → Prop
  | start : Reached seq {}
  | push {r r' : UopRing K} {k : K} {insns : List (UopInsn K)} (reached : Reached seq r)
    (pushes : r.pushKernel seq k = some (r', insns)) : Reached seq r'
  | synchronize {r : UopRing K} (reached : Reached seq r) : Reached seq r.reset

theorem Reached.wellPlaced (fits : ∀ k, Fits seq k) (reached : Reached seq r) : WellPlaced seq r ∧ r.Flushed := by
  induction reached with
  | start => exact ⟨wellPlaced_empty, rfl⟩
  | push _ pushes ih =>
      obtain ⟨r'', insns', eq, pushed⟩ := pushKernel_cases ih.1 ih.2 (fits _)
      rw [pushes, Option.some.injEq, Prod.mk.injEq] at eq
      obtain ⟨rfl, rfl⟩ := eq
      exact ih.1.pushed ih.2 (fits _) pushed
  | synchronize _ ih => exact ⟨ih.1.reset, rfl⟩

end Pushes

section Batches

variable [DecidableEq K] {ks : List K} {insns : List (UopInsn K)}

/-- Kernels that are cached lie in the memory, apart from each other, and the next push puts no load over one that
stays. -/
structure Apart (seq : K → List U) (r : UopRing K) : Prop where
  inside : ∀ k, r.cached k → (r.place k).2 = (r.place k).1 + (seq k).length ∧ (r.place k).2 ≤ vtaUopBuffDepth
  apart : ∀ k k', r.cached k → r.cached k' → k ≠ k' → Disjoint (r.range k) (r.range k')
  next : ∀ k, ∃ r' insns, r.pushKernel seq k = some (r', insns) ∧ r'.cached k ∧
    ∀ m, UopInsn.load m ∈ insns → r'.range k = Set.Ico m.sramBase (m.sramBase + m.xSize) ∧
      ∀ k', r.cached k' → r'.cached k' → r'.place k' = r.place k' ∧ Disjoint (r.range k') (r'.range k)

theorem placed_keeps {b idx : Nat} (new : ¬r.cached k) {k' : K} (here : r.cached k')
    (stays : (r.placed seq k b idx).cached k') : (r.placed seq k b idx).place k' = r.place k' := by
  have other : k' ≠ k := fun same => new (same ▸ here)
  change (if k' = k then _ else if k' ∈ _ then _ else r.place k') = _
  rw [if_neg other]
  by_cases evicts : k' ∈ r.evicted idx (b + size seq k)
  · refine absurd stays ?_
    change ¬(if k' = k then _ else if k' ∈ _ then _ else r.place k' : Nat × Nat).1 ≠
      (if k' = k then _ else if k' ∈ _ then _ else r.place k' : Nat × Nat).2
    simp [other, evicts]
  · rw [if_neg evicts]

/-- What `pushKernels` does, push by push. -/
inductive Pushes (seq : K → List U) : UopRing K → List K → UopRing K → List (UopInsn K) → Prop
  | nil (r : UopRing K) : Pushes seq r [] r []
  | cons {r r' r'' : UopRing K} {k : K} {ks : List K} {insns insns' : List (UopInsn K)} (pushed : Pushed seq r k r' insns)
    (rest : Pushes seq r' ks r'' insns') : Pushes seq r (k :: ks) r'' (insns ++ insns')

theorem pushKernels_pushes (fits : ∀ k, Fits seq k) (h : WellPlaced seq r) (flushed : r.Flushed) (ks : List K) :
    ∃ r' insns, r.pushKernels seq ks = some (r', insns) ∧ Pushes seq r ks r' insns := by
  induction ks generalizing r with
  | nil => exact ⟨r, [], rfl, .nil r⟩
  | cons k ks ih =>
      obtain ⟨r₁, insns₁, eq, pushed⟩ := pushKernel_cases h flushed (fits k)
      obtain ⟨h₁, flushed₁⟩ := h.pushed flushed (fits k) pushed
      obtain ⟨r₂, insns₂, eq', rest⟩ := ih h₁ flushed₁
      refine ⟨r₂, insns₁ ++ insns₂, ?_, .cons pushed rest⟩
      rw [pushKernels, eq, Option.bind_some, eq', Option.map_some]

theorem Pushes.some (pushes : Pushes seq r ks r' insns) (some : r.cache ≠ []) : r'.cache ≠ [] := by
  induction pushes with
  | nil r => exact some
  | cons pushed rest ih =>
      refine ih ?_
      cases pushed with
      | cached here => exact some
      | next new room => exact List.append_ne_nil_of_right_ne_nil _ (List.cons_ne_nil _ _)
      | wraps new full => exact List.append_ne_nil_of_right_ne_nil _ (List.cons_ne_nil _ _)

theorem placed_cache (all : r.cacheIdx = r.cache.length) (b : Nat) : (r.placed seq k b r.cacheIdx).cache = r.cache ++ [k] := by
  have behind : r.cache.drop r.cacheIdx = [] := by rw [all, List.drop_length]
  have none : r.kept r.cacheIdx (b + size seq k) = [] := by rw [kept, behind, List.dropWhile_nil]
  change r.cache.take r.cacheIdx ++ k :: r.kept r.cacheIdx (b + size seq k) = _
  rw [none, all, List.take_length]

theorem placed_idx (all : r.cacheIdx = r.cache.length) (b : Nat) :
    (r.placed seq k b r.cacheIdx).cacheIdx = (r.placed seq k b r.cacheIdx).cache.length := by
  rw [placed_cache all, List.length_append]
  exact congrArg (· + 1) all

theorem placed_place (all : r.cacheIdx = r.cache.length) (b : Nat) {e : K} (other : e ≠ k) :
    (r.placed seq k b r.cacheIdx).place e = r.place e := by
  have behind : r.cache.drop r.cacheIdx = [] := by rw [all, List.drop_length]
  have none : r.evicted r.cacheIdx (b + size seq k) = [] := by rw [evicted, behind, List.takeWhile_nil]
  change (if e = k then _ else if e ∈ r.evicted r.cacheIdx (b + size seq k) then _ else r.place e) = _
  rw [if_neg other, none, if_neg List.not_mem_nil]

section Sums

variable {l : List K}

/-- The micro-ops of the kernels of a list, each kernel counted once. -/
def distinct (seq : K → List U) (l : List K) : Nat := ∑ k ∈ l.toFinset, size seq k

theorem distinct_nodup (nodup : l.Nodup) : distinct seq l = total (size seq) l := List.sum_toFinset _ nodup

theorem distinct_le {l' : List K} (sub : l ⊆ l') : distinct seq l ≤ distinct seq l' :=
  Finset.sum_le_sum_of_subset fun _ mem => List.mem_toFinset.mpr (sub (List.mem_toFinset.mp mem))

theorem distinct_congr {l' : List K} (same : ∀ k, k ∈ l ↔ k ∈ l') : distinct seq l = distinct seq l' :=
  Nat.le_antisymm (distinct_le fun k => (same k).mp) (distinct_le fun k => (same k).mpr)

end Sums

/-- Nothing was evicted: the kernels are those of the cache before, and new ones. -/
structure Whole (seq : K → List U) (r : UopRing K) (ks : List K) (r' : UopRing K) (insns : List (UopInsn K)) : Prop where
  room : distinct seq (r.cache ++ ks) ≤ vtaUopBuffDepth
  more : ∃ more, r'.cache = r.cache ++ more
  finds : ∀ buff sram, (∀ k ∈ r.cache, (List.range' (r.place k).1 (size seq k)).map sram = seq k) →
    FindsUops seq (copyFromHost buff (r'.readBarrier seq)) sram insns

/-- The kernel at the start of the memory has changed. -/
structure Overwritten (seq : K → List U) (first : K) (ks : List K) (r r' : UopRing K) (insns : List (UopInsn K)) : Prop where
  full : vtaUopBuffDepth < distinct seq (r.cache ++ ks)
  other : ∃ h h' t, r'.cache = h' :: t ∧ h ≠ h' ∧
    (h = first ∨ ∃ before after, insns = before ++ placedInsns seq h 0 ++ after)

theorem whole_or_overwritten (pushes : Pushes seq r ks r' insns) (fits : ∀ k, Fits seq k) (h : WellPlaced seq r)
    (flushed : r.Flushed) (all : r.cacheIdx = r.cache.length) {first : K} {t : List K} (some : r.cache = first :: t) :
    Whole seq r ks r' insns ∨ Overwritten seq first ks r r' insns := by
  induction pushes generalizing first t with
  | nil r =>
      refine Or.inl ⟨?_, ⟨[], (List.append_nil _).symm⟩, fun buff sram held => trivial⟩
      rw [List.append_nil, distinct_nodup h.nodup, ← h.sramEnd_eq all]
      exact h.back.le_room
  | @cons r r₁ r₂ k ks insns insns' pushed rest ih =>
      obtain ⟨h₁, flushed₁⟩ := h.pushed flushed (fits k) pushed
      cases pushed with
      | cached here =>
          have mem := (h.cached k).mp here
          have same : distinct seq (r.cache ++ k :: ks) = distinct seq (r.cache ++ ks) :=
            distinct_congr fun e => by
              simp only [List.mem_append, List.mem_cons]
              constructor
              · rintro (old | rfl | new)
                · exact Or.inl old
                · exact Or.inl mem
                · exact Or.inr new
              · exact fun some => some.imp_right Or.inr
          obtain ⟨room, more, finds⟩ | ⟨full, h₂, h', t', cache, differ, emitted⟩ := ih h₁ flushed₁ all some
          · refine Or.inl ⟨same ▸ room, more, fun buff sram held => ⟨?_, finds buff sram held⟩⟩
            rw [(h.end_le all mem).1, Nat.add_sub_cancel_left]
            exact held k mem
          · refine Or.inr ⟨same ▸ full, h₂, h', t', cache, differ, emitted.imp_right ?_⟩
            rintro ⟨before, after, rfl⟩
            exact ⟨_ :: before, after, rfl⟩
      | next new room =>
          have out : k ∉ r.cache := fun mem => new ((h.cached k).mpr mem)
          have cache := @placed_cache _ _ seq r k _ all r.sramEnd
          have same : distinct seq ((r.placed seq k r.sramEnd r.cacheIdx).cache ++ ks) = distinct seq (r.cache ++ k :: ks) := by
            rw [cache, List.append_assoc, List.singleton_append]
          obtain ⟨room', ⟨more, final⟩, finds⟩ | ⟨full, h₂, h', t', final, differ, emitted⟩ :=
            ih h₁ flushed₁ (placed_idx all _) (cache.trans (congrArg (· ++ [k]) some))
          · rw [cache, List.append_assoc, List.singleton_append] at final
            refine Or.inl ⟨same ▸ room', ⟨k :: more, final⟩, fun buff sram held => ⟨?_, finds buff _ fun e mem => ?_⟩⟩
            · rw [Nat.add_sub_cancel_left, map_loadUops, readBarrier, final, h.sramEnd_eq all]
              exact copied_at r.cache more k
            · rw [cache, List.mem_append, List.mem_singleton] at mem
              obtain old | rfl := mem
              · have other : e ≠ k := fun eq => out (eq ▸ old)
                obtain ⟨length, below⟩ := h.end_le all old
                rw [placed_place all _ other, map_loadUops_below (by omega)]
                exact held e old
              · have place : (r.placed seq e r.sramEnd r.cacheIdx).place e = (r.sramEnd, r.sramEnd + size seq e) := insert_place_self
                rw [place, map_loadUops, readBarrier, final, h.sramEnd_eq all]
                exact copied_at r.cache more e
          · refine Or.inr ⟨same ▸ full, h₂, h', t', final, differ, emitted.imp_right ?_⟩
            rintro ⟨before, after, rfl⟩
            exact ⟨placedInsns seq k r.sramEnd ++ before, after, by simp only [List.append_assoc]⟩
      | wraps new full =>
          have out : k ∉ r.cache := fun mem => new ((h.cached k).mpr mem)
          have large : vtaUopBuffDepth < distinct seq (r.cache ++ k :: ks) := by
            have nodup : (r.cache ++ [k]).Nodup := List.nodup_append.mpr
              ⟨h.nodup, List.nodup_singleton k, fun a mem b mem' eq => out (List.mem_singleton.mp mem' ▸ eq ▸ mem)⟩
            have sum := @distinct_nodup _ _ seq _ _ nodup
            have sub : r.cache ++ [k] ⊆ r.cache ++ k :: ks :=
              List.append_subset.mpr ⟨List.subset_append_left _ _, fun e mem => by simp [List.mem_singleton.mp mem]⟩
            have le := @distinct_le _ _ seq _ _ _ sub
            rw [sum, total_append, total_cons, total_nil, ← h.sramEnd_eq all] at le
            omega
          have left : (r.placed seq k 0 0).cache ≠ [] := List.append_ne_nil_of_right_ne_nil _ (List.cons_ne_nil _ _)
          obtain ⟨h', t', final⟩ := List.exists_cons_of_ne_nil (rest.some left)
          by_cases back : h' = first
          · refine Or.inr ⟨large, k, h', t', final, fun eq => out ?_, Or.inr ⟨[], insns', by simp⟩⟩
            rw [eq, back, some]
            exact List.mem_cons_self
          · exact Or.inr ⟨large, first, h', t', final, fun eq => back eq.symm, Or.inl rfl⟩

/-- Kernels that are pushed between two synchronizations find their micro-ops exactly when there is room for all of them.
`K` has the kernels at hand, each with another first micro-op. -/
theorem batch_finds_iff (seq : K → List U) (ks : List K) (fits : ∀ k, Fits seq k)
    (heads : ∀ k k', (seq k)[0]? = (seq k')[0]? → k = k') :
    ∃ r insns, ({} : UopRing K).pushKernels seq ks = some (r, insns) ∧ ∀ buff sram,
      FindsUops seq (copyFromHost buff (r.readBarrier seq)) sram insns ↔
        ∑ k ∈ ks.toFinset, (seq k).length ≤ vtaUopBuffDepth := by
  obtain ⟨r, insns, eq, pushes⟩ := pushKernels_pushes fits (@wellPlaced_empty _ _ seq) rfl ks
  refine ⟨r, insns, eq, fun buff sram => ?_⟩
  change _ ↔ distinct seq ks ≤ _
  cases pushes with
  | nil => exact iff_of_true trivial (Nat.zero_le _)
  | @cons _ r₁ _ k ks insns insns' pushed rest =>
      have empty : ¬({} : UopRing K).cached k := fun place => place rfl
      obtain ⟨h₁, flushed₁⟩ := wellPlaced_empty.pushed rfl (fits k) pushed
      cases pushed with
      | cached here => exact absurd here empty
      | wraps new full =>
          have small := (fits k).2
          rw [Nat.zero_add] at full
          omega
      | next new room =>
          have first : (({} : UopRing K).placed seq k 0 0).cache = [k] := rfl
          have place : (({} : UopRing K).placed seq k 0 0).place k = (0, 0 + size seq k) := insert_place_self
          obtain ⟨room', ⟨more, final⟩, finds⟩ | ⟨full, h, h', t, final, differ, emitted⟩ :=
            whole_or_overwritten rest fits h₁ flushed₁ rfl first
          · rw [first] at final finds
            have head : (List.range' 0 (size seq k)).map (copyFromHost buff (r.readBarrier seq)) = seq k := by
              rw [readBarrier, final]
              exact copied_at [] more k
            refine iff_of_true ⟨?_, finds buff _ fun e mem => ?_⟩ room'
            · rw [Nat.zero_add, Nat.sub_zero, map_loadUops]
              exact head
            · rw [List.mem_singleton.mp mem, place, map_loadUops]
              exact head
          · refine iff_of_false (fun finds => differ (heads h h' ?_)) (Nat.not_le.mpr full)
            have found : (List.range' 0 (size seq h)).map (copyFromHost buff (r.readBarrier seq)) = seq h := by
              obtain rfl | ⟨before, after, rfl⟩ := emitted
              · exact @finds_placed _ _ seq h _ _ [] _ finds
              · exact @finds_placed _ _ seq h _ _ (placedInsns seq k 0 ++ before) after
                  (by simpa only [List.append_assoc] using finds)
            have image := @copied_at _ _ seq buff [] t h'
            rw [List.nil_append, ← final] at image
            rw [head_of_map (fits h).1 found, head_of_map (fits h').1 image, readBarrier]

end Batches

/-- Two kernels, of which only one fits in the memory at a time. -/
def largeKernels (k : Bool) : List VTAUop := List.replicate 5000 { dstIdx := k.toNat }

theorem length_largeKernels (k : Bool) : (largeKernels k).length = 5000 := List.length_replicate

theorem largeKernels_fit (k : Bool) : Fits largeKernels k := by
  rw [Fits, size, length_largeKernels]
  decide

theorem largeKernels_lost : ∃ r insns, ({} : UopRing Bool).pushKernels largeKernels [false, true] = some (r, insns) ∧
    ∀ buff sram, ¬FindsUops largeKernels (copyFromHost buff (r.readBarrier largeKernels)) sram insns := by
  obtain ⟨r, insns, eq, finds⟩ := batch_finds_iff largeKernels [false, true] largeKernels_fit fun k k' same => by
    revert same
    revert k k'
    decide
  refine ⟨r, insns, eq, fun buff sram found => ?_⟩
  have small := (finds buff sram).mp found
  rw [Finset.sum_congr rfl fun k _ => length_largeKernels k] at small
  exact absurd small (by decide)

end UopRing

end AlkaliFw
