import AlkaliFw.MixedRadix
import AlkaliFw.Types

/-! Layouts of tensors in `vta-delegate-ops.cpp`: axes by name, their sizes in `dims`, and the
copy of an array into another order of its axes. -/

namespace AlkaliFw
open MixedRadix

/-- A result that an `int` holds; more is not defined. -/
def toInt (x : Int) : Option Int := if -2 ^ 31 ≤ x ∧ x < 2 ^ 31 then some x else none

abbrev Dims := String → Int

def tensorElements (dims : Dims) (layout : List String) : Option Int :=
  layout.foldlM (fun size dimname => toInt (size * dims dimname)) 1

/-- The loop of `getDimStep`, over the axes from the last one on. There is nothing before the first. -/
def dimStepFrom (dims : Dims) (axis : String) : List String → Int → Option Int
  | [], _ => none
  | a :: rest, step => if a = axis then some step else (toInt (step * dims a)).bind (dimStepFrom dims axis rest)

def getDimStep (dims : Dims) (layout : List String) (axis : String) : Option Int :=
  dimStepFrom dims axis layout.reverse 1

/-- A write to the output: `memset`, or one element of the input. -/
inductive ArrayWrite where
  | fill (n : Nat)
  | copy (src dst : Nat)
  deriving DecidableEq

namespace ArrayWrite

def apply (elemsize : Nat) (inparray outarray : Nat → UInt8) : ArrayWrite → Nat → UInt8
  | fill n => copyTo outarray 0 n fun _ => 0
  | copy src dst => copyTo outarray (dst * elemsize) elemsize fun j => inparray (src * elemsize + j)

/-- The bytes that are written. -/
def touches (elemsize : Nat) (b : Nat) : ArrayWrite → Bool
  | fill n => decide (b < n)
  | copy _ dst => decide (dst * elemsize ≤ b ∧ b < (dst + 1) * elemsize)

def isCopy : ArrayWrite → Bool
  | copy _ _ => true
  | fill _ => false

end ArrayWrite

section

variable (dims : Dims) (inplayout outlayout : List String)

/-- One axis of the inner loop, on `inpremaining` and `outindex`. -/
def permuteAxis (st : Int × Int) (axis : String) : Option (Int × Int) := do
  let step ← getDimStep dims inplayout axis
  if step = 0 then none
  else do
    let outstep ← getDimStep dims outlayout axis
    let product ← toInt (st.1.tdiv step * outstep)
    let outindex ← toInt (st.2 + product)
    some (st.1.tmod step, outindex)

def permuteIndex (i : Int) : Option Int :=
  (inplayout.foldlM (permuteAxis dims inplayout outlayout) (i, 0)).map (·.2)

/-- One round of the outer loop. -/
def permuteElem (i : Nat) : Option (List ArrayWrite) := do
  let outindex ← permuteIndex dims inplayout outlayout i
  some (if outindex > -1 then [.copy i outindex.toNat] else [])

/-- What `permuteDims` writes, in this order. The two checks abort. -/
def permuteWrites : Option (List ArrayWrite) := do
  let elements ← tensorElements dims inplayout
  let outelements ← tensorElements dims outlayout
  if inplayout.length ≠ outlayout.length ∨ elements ≠ outelements then none
  else do
    let copies ← (List.range elements.toNat).mapM (permuteElem dims inplayout outlayout)
    some (.fill outelements.toNat :: copies.flatten)

def permuteDims (inparray outarray : Nat → UInt8) (elemsize : Nat) : Option (Nat → UInt8) :=
  (permuteWrites dims inplayout outlayout).map (List.foldl (fun out w => w.apply elemsize inparray out) outarray)

end

section Sizes

variable {d : String → Nat}

/-- Sizes as the code has them. -/
def sizes (d : String → Nat) : Dims := fun a => d a

theorem toInt_nat {n : Nat} (h : n < 2 ^ 31) : toInt n = some (n : Int) := if_pos (by omega)

theorem toInt_mul {m n : Nat} (h : m * n < 2 ^ 31) : toInt ((m : Int) * n) = some ((m * n : Nat) : Int) := by
  rw [← Int.natCast_mul]
  exact toInt_nat h

theorem elements_from {l : List String} (pos : ∀ a ∈ l, 0 < d a) (acc : Nat) (bound : acc * volume d l < 2 ^ 31) :
    l.foldlM (fun size dimname => toInt (size * sizes d dimname)) (acc : Int) = some ((acc * volume d l : Nat) : Int) := by
  induction l generalizing acc with
  | nil =>
    rw [volume_nil, Nat.mul_one]
    rfl
  | cons a l ih =>
    have rest : ∀ b ∈ l, 0 < d b := fun b hb => pos b (List.mem_cons_of_mem _ hb)
    rw [volume_cons, ← Nat.mul_assoc] at bound ⊢
    have first : acc * d a < 2 ^ 31 := (Nat.le_mul_of_pos_right _ (volume_pos d rest)).trans_lt bound
    rw [List.foldlM_cons, sizes, toInt_mul first]
    exact ih rest _ bound

theorem tensorElements_eq {l : List String} (pos : ∀ a ∈ l, 0 < d a) (bound : volume d l < 2 ^ 31) :
    tensorElements (sizes d) l = some (volume d l : Int) := by
  have all := elements_from pos 1 (by rwa [Nat.one_mul])
  rwa [Nat.one_mul] at all

theorem dimStepFrom_eq {a : String} {l : List String} (pos : ∀ b ∈ l, 0 < d b) (other : a ∉ l) (rest : List String) (acc : Nat)
    (bound : acc * volume d l < 2 ^ 31) :
    dimStepFrom (sizes d) a (l ++ a :: rest) acc = some ((acc * volume d l : Nat) : Int) := by
  induction l generalizing acc with
  | nil =>
    rw [volume_nil, Nat.mul_one]
    exact if_pos rfl
  | cons b l ih =>
    have rest' : ∀ b ∈ l, 0 < d b := fun b hb => pos b (List.mem_cons_of_mem _ hb)
    rw [volume_cons, ← Nat.mul_assoc] at bound ⊢
    have first : acc * d b < 2 ^ 31 := (Nat.le_mul_of_pos_right _ (volume_pos d rest')).trans_lt bound
    rw [List.cons_append, dimStepFrom, if_neg fun same => other (by rw [same]; exact List.mem_cons_self), sizes, toInt_mul first]
    exact ih rest' (fun hl => other (List.mem_cons_of_mem _ hl)) _ bound

/-- The step of an axis is the product of the sizes behind it. -/
theorem getDimStep_append {a : String} {front back : List String} (pos : ∀ b ∈ front ++ a :: back, 0 < d b) (other : a ∉ back)
    (bound : volume d (front ++ a :: back) < 2 ^ 31) :
    getDimStep (sizes d) (front ++ a :: back) a = some (volume d back : Int) := by
  have behind : ∀ b ∈ back.reverse, 0 < d b := fun b hb => pos b (by simp [List.mem_reverse.mp hb])
  have le : volume d back ≤ volume d (front ++ a :: back) := by
    rw [volume_append, volume_cons, ← Nat.mul_assoc]
    refine Nat.le_mul_of_pos_left _ (Nat.mul_pos (volume_pos d fun b hb => pos b (by simp [hb])) (pos a (by simp)))
  have reversed : volume d back.reverse = volume d back := volume_perm d back.reverse_perm
  have all := dimStepFrom_eq (a := a) behind (fun h => other (List.mem_reverse.mp h)) front.reverse 1
    (by rw [Nat.one_mul, reversed]; omega)
  rw [Nat.one_mul, reversed] at all
  rw [getDimStep, List.reverse_append, List.reverse_cons, List.append_assoc, List.singleton_append]
  exact all

theorem step_append {a : String} {front back : List String} (nodup : (front ++ a :: back).Nodup) :
    MixedRadix.step d a (front ++ a :: back) = volume d back := by
  induction front with
  | nil => exact if_pos rfl
  | cons b front ih =>
    rw [List.cons_append] at nodup ⊢
    rw [step_tail nodup (List.mem_append_right _ List.mem_cons_self), ih (List.nodup_cons.mp nodup).2]

theorem getDimStep_eq {a : String} {l : List String} (nodup : l.Nodup) (pos : ∀ b ∈ l, 0 < d b) (bound : volume d l < 2 ^ 31)
    (ha : a ∈ l) : getDimStep (sizes d) l a = some (MixedRadix.step d a l : Int) := by
  obtain ⟨front, back, rfl⟩ := List.append_of_mem ha
  rw [step_append nodup]
  exact getDimStep_append pos (List.nodup_cons.mp (List.Nodup.of_append_right nodup)).1 bound

end Sizes

theorem mapM_some {α β : Type} {f : α → Option β} {g : α → β} {l : List α} (h : ∀ a ∈ l, f a = some (g a)) :
    l.mapM f = some (l.map g) := by
  induction l with
  | nil => rfl
  | cons a l ih =>
    rw [List.mapM_cons, h a List.mem_cons_self, ih fun b hb => h b (List.mem_cons_of_mem _ hb)]
    rfl

/-! Elements of an array. -/

section Elements

variable {e : Nat} {inp out : Nat → UInt8} {source place : Nat → Nat}

/-- A byte belongs to one element. -/
theorem element_unique {p q j : Nat} (hj : j < e) (low : q * e ≤ p * e + j) (high : p * e + j < (q + 1) * e) : q = p := by
  have below : q * e < (p + 1) * e := by
    rw [Nat.add_mul, Nat.one_mul]
    omega
  have above : p * e < (q + 1) * e := by omega
  have := Nat.lt_of_mul_lt_mul_right below
  have := Nat.lt_of_mul_lt_mul_right above
  omega

def applyAll (e : Nat) (inp : Nat → UInt8) : (Nat → UInt8) → List ArrayWrite → Nat → UInt8 :=
  List.foldl fun out w => w.apply e inp out

/-- Copies elsewhere leave an element alone. -/
theorem applyAll_elsewhere {is : List Nat} {p j : Nat} (hj : j < e) (other : ∀ i ∈ is, place i ≠ p) :
    applyAll e inp out (is.map fun i => .copy (source i) (place i)) (p * e + j) = out (p * e + j) := by
  induction is generalizing out with
  | nil => rfl
  | cons k is ih =>
    rw [List.map_cons, applyAll, List.foldl_cons, ← applyAll, ih fun i hi => other i (List.mem_cons_of_mem _ hi)]
    refine if_neg fun inside => other k List.mem_cons_self (element_unique hj inside.1 ?_)
    rw [Nat.add_mul, Nat.one_mul]
    exact inside.2

/-- Copies to different places do not disturb one another. -/
theorem applyAll_here {is : List Nat} (nodup : is.Nodup) (apart : ∀ i ∈ is, ∀ j ∈ is, place i = place j → i = j) {i j : Nat}
    (hi : i ∈ is) (hj : j < e) :
    applyAll e inp out (is.map fun i => .copy (source i) (place i)) (place i * e + j) = inp (source i * e + j) := by
  induction is generalizing out with
  | nil => cases hi
  | cons k is ih =>
    obtain ⟨new, nodup⟩ := List.nodup_cons.mp nodup
    rw [List.map_cons, applyAll, List.foldl_cons, ← applyAll]
    rcases List.mem_cons.mp hi with rfl | later
    · rw [applyAll_elsewhere hj fun l hl same => new (apart l (List.mem_cons_of_mem _ hl) i List.mem_cons_self same ▸ hl)]
      refine (if_pos ⟨Nat.le_add_right _ _, Nat.add_lt_add_left hj _⟩).trans ?_
      rw [Nat.add_sub_cancel_left]
    · exact ih nodup (fun l hl m hm => apart l (List.mem_cons_of_mem _ hl) m (List.mem_cons_of_mem _ hm)) later

end Elements

/-! Two layouts of the same axes, all sizes positive, the product an `int`. -/

section Permute

variable {d : String → Nat} {inplayout outlayout : List String}

/-- What the callers of `permuteDims` give it. -/
structure SameAxes (d : String → Nat) (inplayout outlayout : List String) : Prop where
  nodup : inplayout.Nodup
  perm : outlayout.Perm inplayout
  pos : ∀ a ∈ inplayout, 0 < d a
  int : volume d inplayout < 2 ^ 31

namespace SameAxes

theorem symm (h : SameAxes d inplayout outlayout) : SameAxes d outlayout inplayout where
  nodup := h.perm.nodup_iff.mpr h.nodup
  perm := h.perm.symm
  pos a ha := h.pos a (h.perm.mem_iff.mp ha)
  int := (volume_perm d h.perm).trans_lt h.int

/-- The digits are taken off one by one, and each counts in the other layout. -/
theorem permuteAxes (h : SameAxes d inplayout outlayout) (front : List String) {back : List String}
    (split : inplayout = front ++ back) (r acc : Nat)
    (bound : acc + (back.map fun a => digit d back r a * MixedRadix.step d a outlayout).sum < 2 ^ 31) :
    ∃ r' : Int, back.foldlM (permuteAxis (sizes d) inplayout outlayout) ((r : Int), (acc : Int)) =
      some (r', ((acc + (back.map fun a => digit d back r a * MixedRadix.step d a outlayout).sum : Nat) : Int)) := by
  induction back generalizing front r acc with
  | nil => exact ⟨r, rfl⟩
  | cons a back ih =>
    have nodup := h.nodup
    have pos := h.pos
    have int := h.int
    rw [split] at nodup pos int
    have nodup' : (a :: back).Nodup := List.Nodup.of_append_right nodup
    have others : (back.map fun b => digit d (a :: back) r b * MixedRadix.step d b outlayout) =
        back.map fun b => digit d back (r % volume d back) b * MixedRadix.step d b outlayout :=
      List.map_congr_left fun b hb => by rw [digit_tail nodup' hb]
    have ha : a ∈ outlayout := h.perm.mem_iff.mpr (by rw [split]; exact List.mem_append_right _ List.mem_cons_self)
    have instep : getDimStep (sizes d) inplayout a = some (volume d back : Int) := by
      rw [split]
      exact getDimStep_append pos (List.nodup_cons.mp nodup').1 int
    have outstep := getDimStep_eq h.symm.nodup h.symm.pos h.symm.int ha
    have some' : volume d back ≠ 0 := Nat.ne_of_gt (volume_pos d fun b hb => pos b (by simp [hb]))
    rw [List.map_cons, List.sum_cons, others, digit_head, ← Nat.add_assoc] at bound ⊢
    have product : r / volume d back * MixedRadix.step d a outlayout < 2 ^ 31 := by omega
    have sum : acc + r / volume d back * MixedRadix.step d a outlayout < 2 ^ 31 := by omega
    have first : permuteAxis (sizes d) inplayout outlayout (r, acc) a =
        some (((r % volume d back : Nat) : Int), ((acc + r / volume d back * MixedRadix.step d a outlayout : Nat) : Int)) := by
      simp only [permuteAxis, instep, outstep, Option.bind_eq_bind, Option.bind_some]
      rw [if_neg (by omega), ← Int.ofNat_tdiv, toInt_mul product, Option.bind_some, ← Int.natCast_add, toInt_nat sum, Option.bind_some,
        ← Int.ofNat_tmod]
    rw [List.foldlM_cons, first]
    exact ih (front ++ [a]) (by rw [split, List.append_assoc]; rfl) _ _ bound

theorem permuteIndex_eq (h : SameAxes d inplayout outlayout) {i : Nat} (hi : i < volume d inplayout) :
    permuteIndex (sizes d) inplayout outlayout i = some (reorder d inplayout outlayout i : Int) := by
  have sum := reorder_eq_sum (d := d) h.nodup h.perm i
  have bound := (reorder_lt h.nodup h.perm hi).trans h.int
  obtain ⟨r, all⟩ := h.permuteAxes [] rfl i 0 (by rw [Nat.zero_add, ← sum]; exact bound)
  rw [permuteIndex, show ((i : Int), (0 : Int)) = ((i : Int), ((0 : Nat) : Int)) from rfl, all, Nat.zero_add, ← sum]
  rfl

/-- The zeros first, and then each element to its place. -/
theorem permuteWrites_eq (h : SameAxes d inplayout outlayout) : permuteWrites (sizes d) inplayout outlayout =
    some (.fill (volume d inplayout) ::
      (List.range (volume d inplayout)).map fun i => .copy i (reorder d inplayout outlayout i)) := by
  have elements := tensorElements_eq h.pos h.int
  have outelements := tensorElements_eq h.symm.pos h.symm.int
  rw [volume_perm d h.perm] at outelements
  have each : ∀ i ∈ List.range (volume d inplayout), permuteElem (sizes d) inplayout outlayout i =
      some [.copy i (reorder d inplayout outlayout i)] := by
    intro i hi
    simp only [permuteElem, h.permuteIndex_eq (List.mem_range.mp hi), Option.bind_eq_bind, Option.bind_some]
    rw [if_pos (by omega), Int.toNat_natCast]
  simp only [permuteWrites, elements, outelements, Option.bind_eq_bind, Option.bind_some, h.perm.length_eq, ne_eq, not_true, or_self,
    if_false, Int.toNat_natCast]
  rw [mapM_some each, Option.bind_some, ← List.flatMap_def, ← List.map_eq_flatMap]

theorem permuteDims_eq (h : SameAxes d inplayout outlayout) (inparray outarray : Nat → UInt8) (elemsize : Nat) :
    permuteDims (sizes d) inplayout outlayout inparray outarray elemsize =
      some (applyAll elemsize inparray (copyTo outarray 0 (volume d inplayout) fun _ => 0)
        ((List.range (volume d inplayout)).map fun i => .copy i (reorder d inplayout outlayout i))) := by
  rw [permuteDims, h.permuteWrites_eq]
  rfl

/-- An element of the output is that of the input with the same coordinates. -/
theorem permuteDims_apply (h : SameAxes d inplayout outlayout) {inparray outarray result : Nat → UInt8} {elemsize : Nat}
    (run : permuteDims (sizes d) inplayout outlayout inparray outarray elemsize = some result) {x : String → Nat}
    (hx : InRange d x inplayout) {j : Nat} (hj : j < elemsize) :
    result (index d x outlayout * elemsize + j) = inparray (index d x inplayout * elemsize + j) := by
  rw [h.permuteDims_eq] at run
  cases run
  rw [← reorder_index h.nodup h.perm hx]
  exact applyAll_here List.nodup_range (fun i hi j hj => reorder_injOn h.nodup h.perm (List.mem_range.mp hi) (List.mem_range.mp hj))
    (List.mem_range.mpr (index_lt hx)) hj

/-- The way back. -/
theorem permuteDims_back (h : SameAxes d inplayout outlayout) {inparray outarray result other again : Nat → UInt8} {elemsize : Nat}
    (pos : 0 < elemsize) (run : permuteDims (sizes d) inplayout outlayout inparray outarray elemsize = some result)
    (run' : permuteDims (sizes d) outlayout inplayout result other elemsize = some again) :
    ∀ b < volume d inplayout * elemsize, again b = inparray b := by
  intro b hb
  have nth : b / elemsize < volume d inplayout := Nat.div_lt_of_lt_mul (by rwa [Nat.mul_comm])
  have digits := digit_inRange h.nodup nth
  have byte : index d (digit d inplayout (b / elemsize)) inplayout * elemsize + b % elemsize = b := by
    rw [index_digit h.nodup nth, Nat.mul_comm]
    exact Nat.div_add_mod b elemsize
  have there := h.symm.permuteDims_apply run' (digits.perm h.perm.symm) (Nat.mod_lt b pos)
  have here := h.permuteDims_apply run digits (Nat.mod_lt b pos)
  rw [byte] at there here
  exact there.trans here

/-- The places of the elements are all the places. -/
theorem places_perm (h : SameAxes d inplayout outlayout) :
    ((List.range (volume d inplayout)).map (reorder d inplayout outlayout)).Perm (List.range (volume d inplayout)) := by
  have nodup : ((List.range (volume d inplayout)).map (reorder d inplayout outlayout)).Nodup :=
    List.Nodup.map_on (fun i hi j hj => reorder_injOn h.nodup h.perm (List.mem_range.mp hi) (List.mem_range.mp hj)) List.nodup_range
  refine (List.subperm_of_subset nodup fun k hk => ?_).perm_of_length_le (by rw [List.length_map])
  obtain ⟨i, hi, rfl⟩ := List.mem_map.mp hk
  exact List.mem_range.mpr (reorder_lt h.nodup h.perm (List.mem_range.mp hi))

/-- One copy writes a byte of the output. -/
theorem copies_once (h : SameAxes d inplayout outlayout) {elemsize b : Nat} (hb : b < volume d inplayout * elemsize) :
    ((List.range (volume d inplayout)).map fun i => ArrayWrite.copy i (reorder d inplayout outlayout i)).countP
      (·.touches elemsize b) = 1 := by
  have pos : 0 < elemsize := Nat.pos_of_mul_pos_left (Nat.zero_lt_of_lt hb)
  have same (q : Nat) : q * elemsize ≤ b ∧ b < (q + 1) * elemsize ↔ q = b / elemsize := by
    rw [← Nat.le_div_iff_mul_le pos, ← Nat.div_lt_iff_lt_mul pos]
    omega
  have element : (fun q => decide (q * elemsize ≤ b ∧ b < (q + 1) * elemsize)) = (· == b / elemsize) := by
    funext q
    rw [Bool.beq_eq_decide_eq]
    exact decide_eq_decide.mpr (same q)
  calc ((List.range (volume d inplayout)).map fun i => ArrayWrite.copy i (reorder d inplayout outlayout i)).countP
        (·.touches elemsize b)
    _ = ((List.range (volume d inplayout)).map (reorder d inplayout outlayout)).countP
        fun q => decide (q * elemsize ≤ b ∧ b < (q + 1) * elemsize) := by
      rw [List.countP_map, List.countP_map]
      rfl
    _ = (List.range (volume d inplayout)).count (b / elemsize) := by rw [h.places_perm.countP_eq, element]; rfl
    _ = 1 := List.count_eq_one_of_mem List.nodup_range (List.mem_range.mpr (Nat.div_lt_of_lt_mul (by rwa [Nat.mul_comm])))

end SameAxes

/-- The output is the input in the other layout: every byte of it is copied once, after the first
bytes, as many as there are elements, were zeroed, nothing else is written, and the way back
gives the input. -/
structure Permutation (d : String → Nat) (inplayout outlayout : List String) (elemsize : Nat) (inparray outarray : Nat → UInt8)
    (ws : List ArrayWrite) (result : Nat → UInt8) : Prop where
  writes : permuteWrites (sizes d) inplayout outlayout = some ws
  run : permuteDims (sizes d) inplayout outlayout inparray outarray elemsize = some result
  element : ∀ x, InRange d x inplayout → ∀ j < elemsize,
    result (index d x outlayout * elemsize + j) = inparray (index d x inplayout * elemsize + j)
  copied : ∀ b < volume d inplayout * elemsize, (ws.filter ArrayWrite.isCopy).countP (·.touches elemsize b) = 1
  zeroed : ws.filter (!·.isCopy) = [.fill (volume d inplayout)]
  inside : ∀ w ∈ ws, ∀ b, w.touches elemsize b → b < volume d inplayout * elemsize
  back : ∀ other, ∃ again, permuteDims (sizes d) outlayout inplayout result other elemsize = some again ∧
    ∀ b < volume d inplayout * elemsize, again b = inparray b

theorem filter_copies {n : Nat} {place : Nat → Nat} :
    ((List.range n).map fun i => ArrayWrite.copy i (place i)).filter ArrayWrite.isCopy =
      (List.range n).map fun i => ArrayWrite.copy i (place i) := by
  refine List.filter_eq_self.mpr fun w hw => ?_
  obtain ⟨i, -, rfl⟩ := List.mem_map.mp hw
  rfl

theorem permuteDims_permutes (d : String → Nat) (inplayout outlayout : List String) (axes : SameAxes d inplayout outlayout)
    (elemsize : Nat) (pos : 0 < elemsize) (inparray outarray : Nat → UInt8) :
    ∃ ws result, Permutation d inplayout outlayout elemsize inparray outarray ws result := by
  have run := axes.permuteDims_eq inparray outarray elemsize
  refine ⟨_, _, axes.permuteWrites_eq, run, fun x hx j hj => axes.permuteDims_apply run hx hj, fun b hb => ?_, ?_, ?_, fun other => ?_⟩
  · rw [List.filter_cons_of_neg Bool.false_ne_true, filter_copies]
    exact axes.copies_once hb
  · rw [List.filter_cons_of_pos rfl]
    refine congrArg _ (List.filter_eq_nil_iff.mpr fun w hw => ?_)
    obtain ⟨i, -, rfl⟩ := List.mem_map.mp hw
    exact nofun
  · intro w hw b touched
    rcases List.mem_cons.mp hw with rfl | copy
    · exact (of_decide_eq_true touched).trans_le (Nat.le_mul_of_pos_right _ pos)
    · obtain ⟨i, hi, rfl⟩ := List.mem_map.mp copy
      have within := reorder_lt axes.nodup axes.perm (List.mem_range.mp hi)
      exact (of_decide_eq_true touched).2.trans_le (Nat.mul_le_mul_right _ within)
  · exact ⟨_, axes.symm.permuteDims_eq _ other elemsize, axes.permuteDims_back pos run (axes.symm.permuteDims_eq _ other elemsize)⟩

/-- The first byte of an array with one element is written by `memset` and again by the copy. -/
theorem first_byte_twice : ¬∀ (d : String → Nat) (inplayout outlayout : List String), SameAxes d inplayout outlayout →
    ∀ elemsize, 0 < elemsize → ∀ inparray outarray, ∃ ws result,
      permuteWrites (sizes d) inplayout outlayout = some ws ∧
      permuteDims (sizes d) inplayout outlayout inparray outarray elemsize = some result ∧
      (∀ x, InRange d x inplayout → ∀ j < elemsize,
        result (index d x outlayout * elemsize + j) = inparray (index d x inplayout * elemsize + j)) ∧
      (∀ b < volume d inplayout * elemsize, ws.countP (·.touches elemsize b) = 1) ∧
      ∀ other, ∃ again, permuteDims (sizes d) outlayout inplayout result other elemsize = some again ∧
        ∀ b < volume d inplayout * elemsize, again b = inparray b := by
  intro claim
  have axes : SameAxes (fun _ => 1) ["N"] ["N"] := ⟨by decide, .refl _, by decide, by decide⟩
  obtain ⟨ws, result, writes, -, -, once, -⟩ := claim _ _ _ axes 1 Nat.one_pos (fun _ => 0) fun _ => 0
  have two : (permuteWrites (sizes fun _ => 1) ["N"] ["N"]).map (List.countP (·.touches 1 0)) = some 2 := by decide
  rw [writes, Option.map_some, Option.some.injEq, once 0 (by decide)] at two
  cases two

/-- The layouts of the data of a convolution. -/
theorem blocked_permutes : ∃ ws result, Permutation (fun a => if a = "No" then 1 else 4) ["No", "Ni", "Io", "Ii", "H", "W"]
    ["No", "Io", "H", "W", "Ni", "Ii"] 1 (fun i => UInt8.ofNat i) (fun _ => 0) ws result :=
  permuteDims_permutes _ _ _ ⟨by decide, by decide, by decide, by decide⟩ 1 Nat.one_pos _ _

end Permute

end AlkaliFw
