import AlkaliFw.AluAdd
import Mathlib.Order.Interval.Set.Disjoint
import Mathlib.Tactic.NormNum

/-! The chunks of `aluAdd`: they cut the elements, and their places in the accumulator memory. -/

namespace AlkaliFw

theorem roundFloat_of_dvd {x : Nat} (h : x % 2 ^ (Nat.log2 x - 23) = 0) : roundFloat x = x := by
  have positive : 0 < 2 ^ (Nat.log2 x - 23) := Nat.two_pow_pos _
  simp only [roundFloat, h]
  rw [if_pos (Or.inl (by omega))]
  exact Nat.div_mul_cancel (Nat.dvd_of_mod_eq_zero h)

theorem roundFloat_small {x : Nat} (small : x < 2 ^ 24) : roundFloat x = x := by
  have bits : Nat.log2 x ≤ 23 := by
    by_cases zero : x = 0
    · simp [zero]
    · exact Nat.le_of_lt_succ ((Nat.log2_lt zero).mpr small)
  apply roundFloat_of_dvd
  rw [Nat.sub_eq_zero_of_le bits, pow_zero, Nat.mod_one]

/-- The starts of the chunks are floats. -/
theorem roundFloat_start {k : Nat} (small : 8192 * k < 2 ^ 31) : roundFloat (8192 * k) = 8192 * k := by
  have bits : Nat.log2 (8192 * k) ≤ 30 := by
    by_cases zero : 8192 * k = 0
    · simp [zero]
    · exact Nat.le_of_lt_succ ((Nat.log2_lt zero).mpr small)
  apply roundFloat_of_dvd
  have power : 2 ^ (Nat.log2 (8192 * k) - 23) ∣ 2 ^ 13 := pow_dvd_pow 2 (by omega)
  exact Nat.mod_eq_zero_of_dvd (power.trans (Dvd.intro k rfl))

theorem ceilUnits_of_exact {x : Nat} (exact : roundFloat x = x) : ceilUnits x = ((x + 15) / 16 : Nat) := by
  have float : toFloat x = x := by
    rw [toFloat, Int.natAbs_natCast, exact]
    rcases Nat.eq_zero_or_pos x with zero | positive
    · simp [zero]
    · rw [Int.sign_eq_one_of_pos (by omega), one_mul]
  rw [ceilUnits, float]
  change -(-(x : Int) / 16) = _
  omega

section Chunks

variable (n : Int)

/-- The chunk with number `k`. -/
def chunkAt (k : Nat) : AluChunk := AluChunk.of n (8192 * k) (1024 * (k % 2))

/-- Its number of elements. -/
def chunkLen (k : Nat) : Int := min 8192 (n - 8192 * k)

def chunkCount : Nat := ((n + 8191) / 8192).toNat

variable {n}

theorem chunkLen_le (k : Nat) : chunkLen n k ≤ 8192 := min_le_left _ _

theorem chunkLen_pos {k : Nat} (more : 8192 * k < n) : 0 < chunkLen n k := by
  rw [chunkLen]
  omega

theorem lt_chunkCount {k : Nat} : k < chunkCount n ↔ 8192 * k < n := by
  rw [chunkCount]
  omega

/-- All variables of a round, in exact arithmetic. -/
theorem chunkAt_eq (bound : n < 2 ^ 31) {k : Nat} (more : 8192 * k < n) :
    chunkAt n k =
      { vectorshift := 8192 * k
        sramshift := 1024 * (k % 2)
        veclength := chunkLen n k
        padding := -chunkLen n k % 16
        vectorshiftelem := 512 * k
        veclengthelem := (chunkLen n k + 15) / 16
        processdatalengthelem := (chunkLen n k + 15) / 16 } := by
  have positive := chunkLen_pos more
  have small := chunkLen_le (n := n) k
  have length : min maxelements (toInt32 (n - 8192 * k)) = chunkLen n k := by
    change min 8192 _ = _
    rw [chunkLen, toInt32]
    omega
  have rest : (chunkLen n k).tmod computevectorsize = chunkLen n k % 16 :=
    Int.tmod_eq_emod_of_nonneg (by omega)
  have pad : (if (chunkLen n k).tmod computevectorsize = 0 then 0
      else computevectorsize - (chunkLen n k).tmod computevectorsize) = -chunkLen n k % 16 := by
    rw [rest]
    change (if chunkLen n k % 16 = 0 then 0 else 16 - chunkLen n k % 16) = _
    omega
  have units (x : Int) (nonneg : 0 ≤ x) (few : x < 2 ^ 24) : ceilUnits x = (x + 15) / 16 := by
    lift x to Nat using nonneg
    rw [ceilUnits_of_exact (roundFloat_small (by omega))]
    omega
  have start : ceilUnits (8192 * k) = 512 * k := by
    have exact := ceilUnits_of_exact (roundFloat_start (k := k) (by omega))
    push_cast at exact
    rw [exact]
    omega
  simp only [chunkAt, AluChunk.of, length, pad, start, AluChunk.mk.injEq, true_and]
  exact ⟨units _ (by omega) (by omega), (units _ (by omega) (by omega)).trans (by omega)⟩

/-- `vectorshift` after the chunk. -/
theorem after_chunk (bound : n < 2 ^ 31) {k : Nat} (more : 8192 * k < n) :
    toInt32 (8192 * k + (chunkAt n k).veclength) = min n (8192 * (k + 1 : Nat)) := by
  rw [chunkAt_eq bound more, toInt32]
  change (8192 * k + chunkLen n k + 2 ^ 31) % 2 ^ 32 - 2 ^ 31 = _
  rw [chunkLen]
  omega

theorem sramshift_even (j : Nat) : 1024 * (((2 * j : Nat) : Int) % 2) = 0 := by omega

theorem sramshift_odd (j : Nat) : 1024 * (((2 * j + 1 : Nat) : Int) % 2) = 1024 := by omega

/-- One round of the outer loop: the chunk of one thread, or those of both. -/
theorem threadChunks_round (bound : n < 2 ^ 31) {j : Nat} (more : 8192 * (2 * j : Nat) < n) :
    threadChunks n numThreads (8192 * (2 * j : Nat)) 0 =
      ((List.range' (2 * j) (min 2 (chunkCount n - 2 * j))).map (chunkAt n),
        min n (8192 * (2 * (j + 1) : Nat))) := by
  have first : AluChunk.of n (8192 * (2 * j : Nat)) 0 = chunkAt n (2 * j) := by
    rw [chunkAt, sramshift_even]
  have after := after_chunk bound more
  have shift : toInt32 (0 + 2 * (chunkAt n (2 * j)).processdatalengthelem) =
      2 * ((chunkLen n (2 * j) + 15) / 16) := by
    have positive := chunkLen_pos more
    have small := chunkLen_le (n := n) (2 * j)
    rw [chunkAt_eq bound more, toInt32]
    change (0 + 2 * ((chunkLen n (2 * j) + 15) / 16) + 2 ^ 31) % 2 ^ 32 - 2 ^ 31 = _
    omega
  simp only [numThreads, threadChunks, ge_iff_le, not_le.mpr more, if_false, first, after, shift]
  by_cases last : n ≤ 8192 * (2 * j + 1 : Nat)
  · have count : min 2 (chunkCount n - 2 * j) = 1 := by
      have here := lt_chunkCount.mpr more
      have past : ¬2 * j + 1 < chunkCount n := fun h => by
        have := lt_chunkCount.mp h
        omega
      omega
    rw [min_eq_left last, if_pos le_rfl, count, min_eq_left (by omega)]
    rfl
  · have here : 2 * j + 1 < chunkCount n := lt_chunkCount.mpr (by omega)
    have full : chunkLen n (2 * j) = 8192 := by
      rw [chunkLen]
      omega
    have second : AluChunk.of n (8192 * (2 * j + 1 : Nat)) 1024 = chunkAt n (2 * j + 1) := by
      rw [chunkAt, sramshift_odd]
    have after' := after_chunk (k := 2 * j + 1) bound (by omega)
    have count : min 2 (chunkCount n - 2 * j) = 2 := by omega
    have place : 2 * ((8192 + 15) / 16) = (1024 : Int) := by norm_num
    rw [min_eq_right (by omega), if_neg last, full, place, second, after', count]
    rfl

theorem numbers_round (j count : Nat) :
    List.range' (2 * j) (min 2 (count - 2 * j)) ++ List.range' (2 * (j + 1)) (count - 2 * (j + 1)) =
      List.range' (2 * j) (count - 2 * j) := by
  by_cases two : 2 ≤ count - 2 * j
  · rw [min_eq_left two, Nat.mul_add, mul_one, List.range'_append_1]
    congr 1
    omega
  · rw [min_eq_right (by omega), show count - 2 * (j + 1) = 0 by omega, List.range'_zero, List.append_nil]

/-- The outer loop, from a round on. -/
theorem chunksFrom_round (bound : n < 2 ^ 31) (rounds j : Nat) (enough : n ≤ 8192 * (2 * (j + rounds) : Nat)) :
    chunksFrom n (rounds + 1) (min n (8192 * (2 * j : Nat))) =
      some ((List.range' (2 * j) (chunkCount n - 2 * j)).map (chunkAt n)) := by
  induction rounds generalizing j with
  | zero =>
      have past : chunkCount n - 2 * j = 0 := by
        rw [chunkCount]
        omega
      rw [chunksFrom, if_neg (by omega), past]
      rfl
  | succ rounds ih =>
      by_cases more : 8192 * (2 * j : Nat) < n
      · rw [chunksFrom, min_eq_right more.le, if_pos more]
        simp only [threadChunks_round bound more, ih (j + 1) (by omega), Option.map_some, ← List.map_append]
        rw [numbers_round]
      · have past : chunkCount n - 2 * j = 0 := by
          rw [chunkCount]
          omega
        rw [chunksFrom, if_neg (by omega), past]
        rfl

/-- The chunks do not depend on the fuel. -/
theorem chunksFrom_unique {fuel fuel' : Nat} {v : Int} {cs cs' : List AluChunk}
    (result : chunksFrom n fuel v = some cs) (result' : chunksFrom n fuel' v = some cs') : cs = cs' := by
  induction fuel generalizing fuel' v cs cs' with
  | zero => simp [chunksFrom] at result
  | succ fuel ih =>
      cases fuel' with
      | zero => simp [chunksFrom] at result'
      | succ fuel' =>
          rw [chunksFrom] at result result'
          by_cases more : v < n
          · simp only [if_pos more, Option.map_eq_some_iff] at result result'
            obtain ⟨rest, eq, rfl⟩ := result
            obtain ⟨rest', eq', rfl⟩ := result'
            rw [ih eq eq']
          · simp only [if_neg more, Option.some.injEq] at result result'
            exact result.symm.trans result'

/-- The chunks of the loops, which end. -/
theorem chunks_of_small (positive : 1 ≤ n) (small : n < 2 ^ 31) :
    ∃ fuel, chunksFrom n fuel 0 = some ((List.range (chunkCount n)).map (chunkAt n)) := by
  refine ⟨n.toNat + 1, ?_⟩
  have rounds := chunksFrom_round small n.toNat 0 (by omega)
  rwa [mul_zero, Nat.cast_zero, mul_zero, min_eq_right (by omega), Nat.sub_zero, ← List.range_eq_range'] at rounds

theorem threadChunks_below (large : 2 ^ 31 ≤ n) (threads : Nat) {v s : Int} (below : v < n) :
    (threadChunks n threads v s).2 < n := by
  induction threads generalizing v s with
  | zero => exact below
  | succ threads ih =>
      rw [threadChunks, if_neg (not_le.mpr below)]
      apply ih
      rw [toInt32]
      omega

/-- An `int` never gets to a number of elements that it does not hold. -/
theorem chunksFrom_large (large : 2 ^ 31 ≤ n) (fuel : Nat) {v : Int} (below : v < n) :
    chunksFrom n fuel v = none := by
  induction fuel generalizing v with
  | zero => rfl
  | succ fuel ih =>
      rw [chunksFrom, if_pos below]
      simp only [ih (threadChunks_below large numThreads below), Option.map_none]

end Chunks

/-- The element of the buffer that goes to or comes from a lane, counted from `sramBase` on. -/
def MemInsn.dramElem (m : MemInsn) (lane : Int) : Option Int :=
  if 0 ≤ lane ∧ lane < m.xSize * vtaBlockOut then some (m.dramBase * vtaBlockOut + lane) else none

/-- `sram_end` of `SRAM::Load`: the units before it are written, those of the padding with zeroes. -/
def MemInsn.sramEnd (m : MemInsn) : Nat :=
  m.sramBase + (m.xSize + m.xPad0 + m.xPad1) * (m.ySize + m.yPad0 + m.yPad1)

def AluChunk.Has (c : AluChunk) (i : Int) : Prop := c.vectorshift ≤ i ∧ i < c.vectorshift + c.veclength

/-- The chunks have each of `n` elements once, and store it where they loaded it. -/
structure Partition (n : Int) (cs : List AluChunk) : Prop where
  inside : ∀ c ∈ cs, ∀ i, c.Has i → 0 ≤ i ∧ i < n
  once : ∀ i, 0 ≤ i → i < n → ∃! k : Nat, ∃ c : AluChunk, cs[k]? = some c ∧ c.Has i
  inPlace : ∀ c ∈ cs, c.load1.sramBase = c.storeInsn.sramBase ∧
    ∀ i, c.Has i → ∀ m ∈ [c.load1, c.load2, c.storeInsn], m.dramElem (i - c.vectorshift) = some i

/-- The loads stay in the accumulator memory, and apart from the results of the chunk before. -/
structure TilesApart (cs : List AluChunk) : Prop where
  inMemory : ∀ c ∈ cs, ∀ m ∈ [c.load1, c.load2], m.sramEnd ≤ vtaAccBuffDepth
  fromResults : ∀ k p c, cs[k]? = some p → cs[k + 1]? = some c → ∀ m ∈ [c.load1, c.load2],
    Disjoint (Set.Ico m.sramBase m.sramEnd) (Set.Ico p.storeInsn.sramBase p.storeInsn.sramEnd)

/-- The loops of `aluAdd` end with chunks that cut the elements, and are apart. -/
def TilesSafe (n : Int) : Prop :=
  ∃ cs, (∃ fuel, chunksFrom n fuel 0 = some cs) ∧ Partition n cs ∧ TilesApart cs

/-- The number of elements of the last chunk. -/
def lastLen (n : Int) : Int := (n - 1) % maxelements + 1

/-- An `int` holds the number, and the last of several chunks fits with its padding. -/
def TilesFit (n : Int) : Prop :=
  n < 2 ^ 31 ∧ (n ≤ maxelements ∨ 2 * ((lastLen n + 15) / 16) + -lastLen n % 16 ≤ vtaAccBuffDepth / numThreads)

section Geometry

variable {n : Int}

theorem chunk_insns (bound : n < 2 ^ 31) {k : Nat} (more : 8192 * k < n) :
    let pad := (-chunkLen n k % 16).toNat
    let units := ((chunkLen n k + 15) / 16).toNat
    (chunkAt n k).load1 = ⟨.acc, .vtainput1, 1024 * (k % 2), 512 * k, 1, units, 1, 0, 0, 0, pad⟩ ∧
      (chunkAt n k).load2 = ⟨.acc, .vtainput2, 1024 * (k % 2) + units, 512 * k, 1, units, 1, 0, 0, 0, pad⟩ ∧
      (chunkAt n k).storeInsn = ⟨.out, .vtaoutput, 1024 * (k % 2), 512 * k, 1, units, 1, 0, 0, 0, 0⟩ := by
  have positive := chunkLen_pos more
  have small := chunkLen_le (n := n) k
  rw [chunkAt_eq bound more]
  simp only [AluChunk.load1, AluChunk.load2, AluChunk.storeInsn, toField, MemInsn.mk.injEq, true_and, and_true]
  omega

theorem chunkAt_has (bound : n < 2 ^ 31) {k : Nat} (more : 8192 * k < n) (i : Int) :
    (chunkAt n k).Has i ↔ 8192 * k ≤ i ∧ i < min n (8192 * (k + 1 : Nat)) := by
  rw [chunkAt_eq bound more]
  change 8192 * (k : Int) ≤ i ∧ i < 8192 * k + chunkLen n k ↔ _
  rw [chunkLen]
  omega

theorem getElem?_chunks (k : Nat) (c : AluChunk) :
    ((List.range (chunkCount n)).map (chunkAt n))[k]? = some c ↔ 8192 * k < n ∧ chunkAt n k = c := by
  rw [← lt_chunkCount]
  by_cases here : k < chunkCount n
  · simp [here]
  · simp [here]

theorem mem_chunks {c : AluChunk} (mem : c ∈ (List.range (chunkCount n)).map (chunkAt n)) :
    ∃ k : Nat, 8192 * k < n ∧ chunkAt n k = c := by
  obtain ⟨k, range, eq⟩ := List.mem_map.mp mem
  exact ⟨k, lt_chunkCount.mp (List.mem_range.mp range), eq⟩

theorem dramElem_eq (m : MemInsn) {lane : Int} (nonneg : 0 ≤ lane) (few : lane < 16 * m.xSize) :
    m.dramElem lane = some (16 * m.dramBase + lane) := by
  have block : (vtaBlockOut : Int) = 16 := rfl
  rw [MemInsn.dramElem, block, if_pos (by omega), mul_comm]

theorem chunks_partition (bound : n < 2 ^ 31) :
    Partition n ((List.range (chunkCount n)).map (chunkAt n)) where
  inside c mem i has := by
    obtain ⟨k, more, rfl⟩ := mem_chunks mem
    have := (chunkAt_has bound more i).mp has
    omega
  once i nonneg below := by
    have more : 8192 * ((i / 8192).toNat : Int) < n := by omega
    refine ⟨(i / 8192).toNat, ⟨chunkAt n _, (getElem?_chunks _ _).mpr ⟨more, rfl⟩, ?_⟩, ?_⟩
    · rw [chunkAt_has bound more]
      omega
    · rintro k ⟨c, at_k, has⟩
      obtain ⟨more', rfl⟩ := (getElem?_chunks k c).mp at_k
      rw [chunkAt_has bound more'] at has
      omega
  inPlace c mem := by
    obtain ⟨k, more, rfl⟩ := mem_chunks mem
    have positive := chunkLen_pos more
    obtain ⟨load1, load2, store⟩ := chunk_insns bound more
    rw [load1, load2, store]
    refine ⟨rfl, fun i has m member => ?_⟩
    have place : m.dramBase = 512 * k ∧ m.xSize = ((chunkLen n k + 15) / 16).toNat := by
      simp only [List.mem_cons, List.not_mem_nil, or_false] at member
      obtain rfl | rfl | rfl := member <;> exact ⟨rfl, rfl⟩
    have start : (chunkAt n k).vectorshift = 8192 * k := rfl
    rw [chunkAt_has bound more] at has
    rw [start, dramElem_eq m (by omega) (by rw [place.2, chunkLen]; omega), place.1]
    congr 1
    omega

theorem chunkLen_full {k : Nat} (more : 8192 * ((k + 1 : Nat) : Int) < n) : chunkLen n k = 8192 := by
  rw [chunkLen]
  omega

theorem chunkLen_last {k : Nat} (more : 8192 * (k : Int) < n) (last : n ≤ 8192 * ((k + 1 : Nat) : Int)) :
    chunkLen n k = lastLen n := by
  rw [chunkLen, lastLen]
  change _ = (n - 1) % 8192 + 1
  omega

theorem chunk_sramEnd (bound : n < 2 ^ 31) {k : Nat} (more : 8192 * k < n) :
    let pad := (-chunkLen n k % 16).toNat
    let units := ((chunkLen n k + 15) / 16).toNat
    (chunkAt n k).load1.sramEnd = 1024 * (k % 2) + (units + pad) ∧
      (chunkAt n k).load2.sramEnd = 1024 * (k % 2) + (2 * units + pad) ∧
      (chunkAt n k).storeInsn.sramEnd = 1024 * (k % 2) + units := by
  obtain ⟨load1, load2, store⟩ := chunk_insns bound more
  rw [load1, load2, store]
  simp only [MemInsn.sramEnd]
  omega

/-- Two loads of a chunk write what begins at its half of the memory. -/
theorem load_interval (bound : n < 2 ^ 31) {k : Nat} (more : 8192 * k < n) {m : MemInsn}
    (mem : m ∈ [(chunkAt n k).load1, (chunkAt n k).load2]) :
    1024 * (k % 2) ≤ m.sramBase ∧
      m.sramEnd ≤ 1024 * (k % 2) + (2 * ((chunkLen n k + 15) / 16) + -chunkLen n k % 16).toNat := by
  have positive := chunkLen_pos more
  obtain ⟨load1, load2, -⟩ := chunk_insns bound more
  obtain ⟨end1, end2, -⟩ := chunk_sramEnd bound more
  simp only [List.mem_cons, List.not_mem_nil, or_false] at mem
  obtain rfl | rfl := mem
  · rw [end1, load1]
    dsimp only
    omega
  · rw [end2, load2]
    dsimp only
    omega

/-- The half of the memory is enough. -/
def HalfEnough (len : Int) : Prop := 2 * ((len + 15) / 16) + -len % 16 ≤ 1024

theorem chunks_apart_of_last (bound : n < 2 ^ 31) (enough : n ≤ 8192 ∨ HalfEnough (lastLen n)) :
    TilesApart ((List.range (chunkCount n)).map (chunkAt n)) := by
  have half : ∀ k : Nat, 8192 * (k : Int) < n → 8192 < n → HalfEnough (chunkLen n k) := by
    intro k more several
    by_cases last : n ≤ 8192 * ((k + 1 : Nat) : Int)
    · rw [chunkLen_last more last]
      exact enough.resolve_left (by omega)
    · rw [chunkLen_full (by omega), HalfEnough]
      decide
  refine ⟨fun c mem m member => ?_, fun k p c at_k at_next m member => ?_⟩
  · obtain ⟨k, more, rfl⟩ := mem_chunks mem
    have interval := load_interval bound more member
    have positive := chunkLen_pos more
    have small := chunkLen_le (n := n) k
    change _ ≤ 2048
    by_cases several : 8192 < n
    · have := half k more several
      rw [HalfEnough] at this
      omega
    · have zero : k = 0 := by omega
      omega
  · obtain ⟨more, rfl⟩ := (getElem?_chunks k p).mp at_k
    obtain ⟨more', rfl⟩ := (getElem?_chunks (k + 1) c).mp at_next
    have interval := load_interval bound more' member
    have fits := half (k + 1) more' (by omega)
    have full := chunkLen_full more'
    obtain ⟨-, -, store⟩ := chunk_insns bound more
    obtain ⟨-, -, storeEnd⟩ := chunk_sramEnd bound more
    rw [full] at store storeEnd
    rw [Set.Ico_disjoint_Ico, storeEnd, store]
    rw [HalfEnough] at fits
    dsimp only
    omega

theorem last_of_chunks_apart (bound : n < 2 ^ 31) (apart : TilesApart ((List.range (chunkCount n)).map (chunkAt n)))
    (several : 8192 < n) : HalfEnough (lastLen n) := by
  obtain ⟨k, more, last⟩ : ∃ k : Nat, 8192 * ((k + 1 : Nat) : Int) < n ∧ n ≤ 8192 * ((k + 1 + 1 : Nat) : Int) :=
    ⟨((n - 1) / 8192).toNat - 1, by omega, by omega⟩
  have at_next := (getElem?_chunks (n := n) (k + 1) _).mpr ⟨more, rfl⟩
  have at_k := (getElem?_chunks (n := n) k _).mpr ⟨by omega, rfl⟩
  obtain ⟨-, load2, -⟩ := chunk_insns bound more
  obtain ⟨-, end2, -⟩ := chunk_sramEnd bound more
  have positive := chunkLen_pos more
  have small := chunkLen_le (n := n) (k + 1)
  rw [← chunkLen_last more last, HalfEnough]
  by_cases odd : (k + 1) % 2 = 1
  · have room := apart.inMemory _ (List.mem_of_getElem? at_next) (chunkAt n (k + 1)).load2 (by simp)
    change _ ≤ 2048 at room
    rw [end2] at room
    omega
  · have disjoint := apart.fromResults k _ _ at_k at_next (chunkAt n (k + 1)).load2 (by simp)
    obtain ⟨-, -, store⟩ := chunk_insns (k := k) bound (by omega)
    obtain ⟨-, -, storeEnd⟩ := chunk_sramEnd (k := k) bound (by omega)
    rw [chunkLen_full more] at store storeEnd
    rw [Set.Ico_disjoint_Ico, end2, load2, storeEnd, store] at disjoint
    dsimp only at disjoint
    omega

end Geometry

/-- The exact numbers of elements that the tiles are safe for. -/
theorem tilesSafe_iff (n : Int) (positive : 1 ≤ n) : TilesSafe n ↔ TilesFit n := by
  have condition : (n ≤ maxelements ∨
      2 * ((lastLen n + 15) / 16) + -lastLen n % 16 ≤ vtaAccBuffDepth / numThreads) ↔
      (n ≤ 8192 ∨ HalfEnough (lastLen n)) := Iff.rfl
  rw [TilesFit, condition]
  constructor
  · rintro ⟨cs, ⟨fuel, result⟩, partition, apart⟩
    have bound : n < 2 ^ 31 := by
      by_contra large
      rw [chunksFrom_large (by omega) fuel (by omega)] at result
      cases result
    obtain ⟨fuel', result'⟩ := chunks_of_small positive bound
    obtain rfl := chunksFrom_unique result result'
    refine ⟨bound, ?_⟩
    by_cases several : 8192 < n
    · exact Or.inr (last_of_chunks_apart bound apart several)
    · exact Or.inl (by omega)
  · rintro ⟨bound, enough⟩
    exact ⟨_, chunks_of_small positive bound, chunks_partition bound, chunks_apart_of_last bound enough⟩

theorem tilesSafe_of_three_chunks : TilesSafe 20000 :=
  (tilesSafe_iff 20000 (by decide)).mpr ⟨by decide, Or.inr (by decide)⟩

/-- Of 16383 elements the second chunk has 8191, and its zeroes leave the memory. -/
theorem padding_overflows : ¬∀ n : Int, 1 ≤ n → TilesSafe n := by
  intro safe
  obtain ⟨cs, ⟨fuel, result⟩, -, apart⟩ := safe 16383 (by decide)
  have chunks : chunksFrom 16383 2 0 = some [chunkAt 16383 0, chunkAt 16383 1] := by decide +kernel
  obtain rfl := chunksFrom_unique result chunks
  have room := apart.inMemory (chunkAt 16383 1) (by simp) (chunkAt 16383 1).load2 (by simp)
  revert room
  decide +kernel

end AlkaliFw
