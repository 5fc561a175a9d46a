import Mathlib

/-! Physical region pages of the NVMe specification, for any page size and any reading of
the host's memory: which chunks a transfer of `len` bytes consists of. A list that does not
reach the end of its page holds data entries only; one that has to go on gives its last slot
to the address of the next list. -/

namespace AlkaliFw.Prp

/-- `len` bytes at `host`, which are bytes `off ..` of the transfer. -/
structure Chunk where
  host : Nat
  off : Nat
  len : Nat

/-- The chunks are non-empty and cover `[off, off + len)` in order, each byte once. -/
def Tiles : (off len : Nat) → List Chunk → Prop
  | _, len, [] => len = 0
  | off, len, c :: cs => c.off = off ∧ 0 < c.len ∧ c.len ≤ len ∧ Tiles (off + c.len) (len - c.len) cs

def total (cs : List Chunk) : Nat := (cs.map (·.len)).sum

theorem Tiles.total {off len : Nat} {cs : List Chunk} (h : Tiles off len cs) : total cs = len := by
  induction cs generalizing off len with
  | nil => exact h.symm
  | cons c cs ih =>
    have rest := ih h.2.2.2
    have le := h.2.2.1
    simp only [Prp.total, List.map_cons, List.sum_cons] at rest ⊢
    omega

theorem Tiles.off_le {off len : Nat} {cs : List Chunk} (h : Tiles off len cs) {c : Chunk}
    (hc : c ∈ cs) : off ≤ c.off := by
  induction cs generalizing off len with
  | nil => cases hc
  | cons d ds ih =>
    rcases List.mem_cons.mp hc with rfl | later
    · exact h.1.ge
    · have := ih h.2.2.2 later
      omega

/-- Every byte of the transfer lies in exactly one chunk. -/
theorem Tiles.once {off len : Nat} {cs : List Chunk} (h : Tiles off len cs) (k : Nat)
    (lo : off ≤ k) (hi : k < off + len) : cs.countP (fun c => c.off ≤ k ∧ k < c.off + c.len) = 1 := by
  induction cs generalizing off len with
  | nil =>
    have : len = 0 := h
    omega
  | cons c cs ih =>
    obtain ⟨rfl, pos, le, rest⟩ := h
    by_cases here : k < c.off + c.len
    · have others : cs.countP (fun d => d.off ≤ k ∧ k < d.off + d.len) = 0 := by
        rw [List.countP_eq_zero]
        intro d hd
        have := rest.off_le hd
        simp only [decide_eq_true_eq]
        omega
      rw [List.countP_cons, others, if_pos (by simpa using ⟨lo, here⟩)]
    · rw [List.countP_cons, ih rest (by omega) (by omega), if_neg (by simp; omega)]

theorem Tiles.le {off len : Nat} {cs : List Chunk} (h : Tiles off len cs) {c : Chunk} (hc : c ∈ cs) :
    c.off + c.len ≤ off + len := by
  induction cs generalizing off len with
  | nil => cases hc
  | cons d ds ih =>
    obtain ⟨rfl, -, le, rest⟩ := h
    rcases List.mem_cons.mp hc with rfl | later
    · omega
    · have := ih rest later
      omega

theorem Tiles.pos {off len : Nat} {cs : List Chunk} (h : Tiles off len cs) {c : Chunk} (hc : c ∈ cs) : 0 < c.len := by
  induction cs generalizing off len with
  | nil => cases hc
  | cons d ds ih =>
    rcases List.mem_cons.mp hc with rfl | later
    · exact h.2.1
    · exact ih h.2.2.2 later

theorem Tiles.mem_iff {off len : Nat} {cs : List Chunk} (h : Tiles off len cs) (k : Nat) :
    (∃ c ∈ cs, c.off ≤ k ∧ k < c.off + c.len) ↔ off ≤ k ∧ k < off + len := by
  constructor
  · rintro ⟨c, hc, lo, hi⟩
    have := h.off_le hc
    have := h.le hc
    omega
  · rintro ⟨lo, hi⟩
    have once := h.once k lo hi
    have pos : 0 < cs.countP (fun c => c.off ≤ k ∧ k < c.off + c.len) := by omega
    obtain ⟨c, hc, inside⟩ := List.countP_pos_iff.mp pos
    exact ⟨c, hc, by simpa using inside⟩

def pages (mps len : Nat) : Nat := (len + mps - 1) / mps

theorem pages_le_iff {mps : Nat} (pos : 0 < mps) (len n : Nat) : pages mps len ≤ n ↔ len ≤ n * mps := by
  rw [pages, ← Nat.lt_succ_iff, Nat.div_lt_iff_lt_mul pos, Nat.succ_mul]
  omega

theorem lt_pages_iff {mps : Nat} (pos : 0 < mps) (len n : Nat) : n < pages mps len ↔ n * mps < len := by
  have := pages_le_iff pos len n
  omega

theorem pages_le {mps : Nat} (pos : 0 < mps) (len : Nat) : pages mps len ≤ len :=
  (pages_le_iff pos len len).mpr (Nat.le_mul_of_pos_right len pos)

theorem pages_sub {mps : Nat} (pos : 0 < mps) (len n : Nat) : pages mps (len - n * mps) = pages mps len - n := by
  apply Nat.le_antisymm
  · rw [pages_le_iff pos]
    have := (pages_le_iff pos len (pages mps len)).mp le_rfl
    rw [Nat.sub_mul]
    omega
  · rw [Nat.sub_le_iff_le_add, pages_le_iff pos, Nat.add_mul]
    have := (pages_le_iff pos (len - n * mps) (pages mps (len - n * mps))).mp le_rfl
    omega

/-- The chunks of `len` bytes over the data entries `es`. -/
def pieces (mps : Nat) : (off len : Nat) → List Nat → List Chunk
  | _, _, [] => []
  | off, len, e :: es =>
    ⟨e, off, min mps len⟩ :: pieces mps (off + min mps len) (len - min mps len) es

theorem pieces_append (mps off len : Nat) (es fs : List Nat) :
    pieces mps off len (es ++ fs) = pieces mps off len es ++
      pieces mps (off + min (es.length * mps) len) (len - min (es.length * mps) len) fs := by
  induction es generalizing off len with
  | nil => simp [pieces]
  | cons e es ih =>
    simp only [List.cons_append, pieces, ih, List.length_cons, Nat.succ_mul]
    congr 3 <;> omega

theorem pieces_tiles {mps : Nat} (pos : 0 < mps) (off len : Nat) (es : List Nat)
    (h : es.length = pages mps len) : Tiles off len (pieces mps off len es) := by
  induction es generalizing off len with
  | nil =>
    have := (pages_le_iff pos len 0).mp (by simp at h; omega)
    simp only [pieces, Tiles]
    omega
  | cons e es ih =>
    have more : 0 * mps < len := (lt_pages_iff pos len 0).mp (by simp at h; omega)
    refine ⟨rfl, by simp only [lt_min_iff]; omega, by simp, ih _ _ ?_⟩
    have less := pages_sub pos len 1
    have same : len - min mps len = len - 1 * mps := by omega
    simp only [List.length_cons] at h
    rw [same, less]
    omega

section Lists

variable (entry : Nat → Nat) (mps : Nat)

/-- `n` entries of the list at `ptr`. -/
def read (ptr n : Nat) : List Nat := (List.range n).map fun i => entry (ptr + 8 * i)

@[simp] theorem length_read (ptr n : Nat) : (read entry ptr n).length = n := by simp [read]

/-- `n` pages are described by the chain of lists at `lists`, the first of them at `ptr`. -/
inductive Chain : (ptr n : Nat) → (es lists : List Nat) → Prop where
  | last {ptr n : Nat} (aligned : 8 ∣ ptr) (fits : 8 * n ≤ mps - ptr % mps) :
      Chain ptr n (read entry ptr n) [ptr]
  | link {ptr n k : Nat} {es lists : List Nat} (aligned : 8 ∣ ptr)
      (slots : 8 * (k + 1) = mps - ptr % mps) (more : k + 1 < n)
      (rest : Chain (entry (ptr + 8 * k)) (n - k) es lists) :
      Chain ptr n (read entry ptr k ++ es) (ptr :: lists)

theorem Chain.length {ptr n : Nat} {es lists : List Nat}
    (h : Chain entry mps ptr n es lists) : es.length = n := by
  induction h with
  | last => simp
  | link _ _ more _ ih =>
    simp only [List.length_append, length_read, ih]
    omega

theorem Chain.head {ptr n : Nat} {es lists : List Nat} (h : Chain entry mps ptr n es lists) :
    ∃ rest, lists = ptr :: rest := by
  cases h with
  | last => exact ⟨[], rfl⟩
  | link => exact ⟨_, rfl⟩

/-- A transfer of `len` bytes that starts at `prp1`: the rest of that page, then one page at
`prp2` or as many as the lists from `prp2` on name. -/
inductive Describes (prp1 prp2 len : Nat) : List Chunk → (lists : List Nat) → Prop where
  | one (h : len ≤ mps - prp1 % mps) : Describes prp1 prp2 len [⟨prp1, 0, len⟩] []
  | two {room : Nat} (hroom : room = mps - prp1 % mps) (more : room < len) (fits : len - room ≤ mps) :
      Describes prp1 prp2 len [⟨prp1, 0, room⟩, ⟨prp2, room, len - room⟩] []
  | list {room : Nat} {es lists : List Nat} (hroom : room = mps - prp1 % mps)
      (more : mps < len - room) (chain : Chain entry mps prp2 (pages mps (len - room)) es lists) :
      Describes prp1 prp2 len (⟨prp1, 0, room⟩ :: pieces mps room (len - room) es) lists

theorem Describes.tiles {prp1 prp2 len : Nat} {cs : List Chunk} {lists : List Nat} (pos : 0 < mps)
    (hlen : 0 < len) (h : Describes entry mps prp1 prp2 len cs lists) : Tiles 0 len cs := by
  have hmod := Nat.mod_lt prp1 pos
  cases h with
  | one h => exact ⟨rfl, hlen, le_rfl, by simp [Tiles]⟩
  | two hroom more fits =>
    refine ⟨rfl, ?_, ?_, ?_, ?_, ?_, ?_⟩ <;> simp only [Tiles] <;> omega
  | list hroom more chain =>
    refine ⟨rfl, by simp only; omega, by simp only; omega, ?_⟩
    simpa using pieces_tiles pos _ _ _ (chain.length entry mps)

end Lists

end AlkaliFw.Prp
