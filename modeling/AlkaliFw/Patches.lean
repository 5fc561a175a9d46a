import Mathlib

/-! Patches written over an array that grows as needed. What lies between the old end and
a patch is filled; where patches overlap, the later one counts. -/

namespace AlkaliFw

structure Patch (α : Type) where
  off : Nat
  data : List α

namespace Patch

variable {α : Type} (fill : α)

def stop (p : Patch α) : Nat := p.off + p.data.length

def Covers (p : Patch α) (i : Nat) : Prop := p.off ≤ i ∧ i < p.stop

instance (p : Patch α) (i : Nat) : Decidable (p.Covers i) := by
  unfold Covers
  infer_instance

def grow (l : List α) (n : Nat) : List α := l ++ List.replicate (n - l.length) fill

theorem length_grow (l : List α) (n : Nat) : (grow fill l n).length = max l.length n := by
  rw [grow, List.length_append, List.length_replicate]
  omega

theorem getD_grow (l : List α) (n i : Nat) : (grow fill l n).getD i fill = l.getD i fill := by
  rw [grow]
  by_cases inside : i < l.length
  · rw [List.getD_append _ _ _ _ inside]
  · rw [List.getD_append_right _ _ _ _ (Nat.not_lt.mp inside), List.getD_eq_default l fill (Nat.not_lt.mp inside)]
    simp [List.getD_eq_getElem?_getD, List.getElem?_replicate]
    split <;> rfl

/-- Overwrite in place. -/
def write (l : List α) (p : Patch α) : List α := l.take p.off ++ p.data ++ l.drop p.stop

theorem length_write {l : List α} {p : Patch α} (fits : p.stop ≤ l.length) : (write l p).length = l.length := by
  rw [stop] at fits
  simp only [write, stop, List.length_append, List.length_take, List.length_drop]
  omega

theorem getD_write {l : List α} {p : Patch α} (fits : p.stop ≤ l.length) (i : Nat) :
    (write l p).getD i fill = if p.Covers i then p.data.getD (i - p.off) fill else l.getD i fill := by
  rw [stop] at fits
  have front : (l.take p.off).length = p.off := by
    rw [List.length_take]
    omega
  simp only [write, List.append_assoc, List.getD_eq_getElem?_getD, List.getElem?_append, front, Covers, stop]
  by_cases before : i < p.off
  · rw [if_pos before, if_neg (by omega), List.getElem?_take_of_lt before]
  · rw [if_neg before]
    by_cases inside : i - p.off < p.data.length
    · rw [if_pos inside, if_pos (by omega)]
    · rw [if_neg inside, if_neg (by omega), List.getElem?_drop]
      congr 2
      omega

def apply (l : List α) (p : Patch α) : List α := write (grow fill l p.stop) p

theorem length_apply (l : List α) (p : Patch α) : (apply fill l p).length = max l.length p.stop := by
  rw [apply, length_write, length_grow]
  rw [length_grow]
  exact le_max_right _ _

theorem getD_apply (l : List α) (p : Patch α) (i : Nat) :
    (apply fill l p).getD i fill = if p.Covers i then p.data.getD (i - p.off) fill else l.getD i fill := by
  rw [apply, getD_write fill, getD_grow]
  rw [length_grow]
  exact le_max_right _ _

/-- Patches in the order in which they were made. -/
def overlay (l : List α) (ps : List (Patch α)) : List α := ps.foldl (apply fill) l

def stopOf : List (Patch α) → Nat
  | [] => 0
  | p :: ps => max p.stop (stopOf ps)

theorem length_overlay (l : List α) (ps : List (Patch α)) : (overlay fill l ps).length = max l.length (stopOf ps) := by
  induction ps generalizing l with
  | nil => exact (max_eq_left (Nat.zero_le _)).symm
  | cons p ps ih =>
    change (overlay fill (apply fill l p) ps).length = _
    rw [ih, length_apply, stopOf, max_assoc]

/-- What is under the patches shows only where none of them covers it. -/
theorem getD_overlay_congr {l m : List α} {i : Nat} (same : l.getD i fill = m.getD i fill) (ps : List (Patch α)) :
    (overlay fill l ps).getD i fill = (overlay fill m ps).getD i fill := by
  induction ps generalizing l m with
  | nil => exact same
  | cons p ps ih =>
    refine ih ?_
    rw [getD_apply, getD_apply, same]

theorem getD_overlay_of_covered {l m : List α} {i : Nat} {ps : List (Patch α)} (covered : ∃ p ∈ ps, p.Covers i) :
    (overlay fill l ps).getD i fill = (overlay fill m ps).getD i fill := by
  induction ps generalizing l m with
  | nil =>
    obtain ⟨p, h, -⟩ := covered
    cases h
  | cons p ps ih =>
    by_cases first : p.Covers i
    · refine getD_overlay_congr fill ?_ ps
      rw [getD_apply, getD_apply, if_pos first, if_pos first]
    · refine ih ?_
      obtain ⟨p', h, c⟩ := covered
      rcases List.mem_cons.mp h with rfl | later
      · exact absurd c first
      · exact ⟨p', later, c⟩

theorem getD_overlay_of_uncovered (l : List α) {i : Nat} {ps : List (Patch α)} (uncovered : ∀ p ∈ ps, ¬p.Covers i) :
    (overlay fill l ps).getD i fill = l.getD i fill := by
  induction ps generalizing l with
  | nil => rfl
  | cons p ps ih =>
    change (overlay fill (apply fill l p) ps).getD i fill = _
    rw [ih _ fun p' h => uncovered p' (List.mem_cons_of_mem _ h), getD_apply, if_neg (uncovered p List.mem_cons_self)]

theorem ext_getD {l m : List α} (length : l.length = m.length) (get : ∀ i, l.getD i fill = m.getD i fill) : l = m := by
  refine List.ext_getElem length fun i hl hm => ?_
  have := get i
  rwa [List.getD_eq_getElem _ _ hl, List.getD_eq_getElem _ _ hm] at this

/-- What shows at a place is the last patch that covers it. -/
theorem getD_overlay (l : List α) (ps : List (Patch α)) (i : Nat) :
    (overlay fill l ps).getD i fill =
      match ps.reverse.find? (fun p => decide (p.Covers i)) with
      | some p => p.data.getD (i - p.off) fill
      | none => l.getD i fill := by
  induction ps generalizing l with
  | nil => rfl
  | cons p ps ih =>
    change (overlay fill (apply fill l p) ps).getD i fill = _
    rw [ih, List.reverse_cons, List.find?_append]
    cases ps.reverse.find? (fun p => decide (p.Covers i)) with
    | some q => rfl
    | none =>
      rw [getD_apply]
      by_cases first : p.Covers i
      · simp [first]
      · simp [first]

/-- No place is under both. -/
def Apart (p q : Patch α) : Prop := ∀ i, ¬(p.Covers i ∧ q.Covers i)

theorem Apart.symm {p q : Patch α} (h : p.Apart q) : q.Apart p := fun i both => h i both.symm

/-- Patches that are apart may be written in any order. -/
theorem overlay_perm (l : List α) {ps qs : List (Patch α)} (perm : ps.Perm qs) (apart : ps.Pairwise Apart) :
    overlay fill l ps = overlay fill l qs := by
  induction perm generalizing l with
  | nil => rfl
  | cons p _ ih => exact ih (apply fill l p) (List.pairwise_cons.mp apart).2
  | swap p q ps =>
    have both : q.Apart p := (List.pairwise_cons.mp apart).1 p List.mem_cons_self
    have swapped : apply fill (apply fill l q) p = apply fill (apply fill l p) q := by
      refine ext_getD fill ?_ fun i => ?_
      · rw [length_apply, length_apply, length_apply, length_apply]
        omega
      · rw [getD_apply, getD_apply, getD_apply, getD_apply]
        by_cases hp : p.Covers i
        · rw [if_pos hp, if_neg fun hq => both i ⟨hq, hp⟩, if_pos hp]
        · rw [if_neg hp, if_neg hp]
    change overlay fill (apply fill (apply fill l q) p) ps = overlay fill (apply fill (apply fill l p) q) ps
    rw [swapped]
  | trans first _ ih ih' =>
    exact (ih l apart).trans (ih' l (first.pairwise apart fun h => h.symm))

/-- Nothing of `l` is left under the patches exactly when they reach its end and leave no gap over
anything but fill. -/
theorem overlay_eq_iff (l : List α) (ps : List (Patch α)) :
    overlay fill l ps = overlay fill [] ps ↔
      l.length ≤ stopOf ps ∧ ∀ i, (∀ p ∈ ps, ¬p.Covers i) → l.getD i fill = fill := by
  constructor
  · intro same
    constructor
    · have length := congrArg List.length same
      rw [length_overlay, length_overlay, List.length_nil] at length
      omega
    · intro i uncovered
      have get := congrArg (·.getD i fill) same
      rw [getD_overlay_of_uncovered fill l uncovered, getD_overlay_of_uncovered fill [] uncovered] at get
      exact get
  · rintro ⟨length, gap⟩
    refine ext_getD fill ?_ fun i => ?_
    · rw [length_overlay, length_overlay, List.length_nil]
      omega
    · by_cases covered : ∃ p ∈ ps, p.Covers i
      · exact getD_overlay_of_covered fill covered
      · push Not at covered
        refine getD_overlay_congr fill ?_ ps
        rw [gap i covered]
        rfl

end Patch
end AlkaliFw
