import AlkaliFw.PermuteDims

/-! `padData` in `vta-delegate-ops.cpp`: the copy of an array into a larger one, axis by axis. -/

namespace AlkaliFw
open MixedRadix

section

variable (dims : Dims) (srclayout dstlayout : List String)

/-- The inner loop, from an axis on, with the names of the axis in both layouts; `some none` where
padding applies. -/
def padAxes : List (String × String) → Int → Int → Option (Option Int)
  | [], _, inpindex => some (some inpindex)
  | (srcaxis, dstaxis) :: rest, dstremaining, inpindex => do
    let step ← getDimStep dims dstlayout dstaxis
    if step = 0 then none
    else if dstremaining.tdiv step ≥ dims srcaxis then some none
    else do
      let srcstep ← getDimStep dims srclayout srcaxis
      let product ← toInt (dstremaining.tdiv step * srcstep)
      let inpindex ← toInt (inpindex + product)
      padAxes rest (dstremaining.tmod step) inpindex

/-- One round of the outer loop. There is nothing before the start of the input. -/
def padElem (outid : Nat) : Option (List ArrayWrite) := do
  let inpindex ← padAxes dims srclayout dstlayout (srclayout.zip dstlayout) outid 0
  match inpindex with
  | none => some []
  | some i => if i < 0 then none else some [.copy i.toNat outid]

/-- What `padData` writes, in this order. The checks abort; the second one compares names. -/
def padWrites : Option (List ArrayWrite) := do
  let elements ← tensorElements dims dstlayout
  if srclayout.length ≠ dstlayout.length ∨ ¬∀ axis ∈ srclayout.zip dstlayout, axis.2 ≥ axis.1 then none
  else do
    let copies ← (List.range elements.toNat).mapM (padElem dims srclayout dstlayout)
    some (.fill elements.toNat :: copies.flatten)

def padData (inparray outarray : Nat → UInt8) (elemsize : Nat) : Option (Nat → UInt8) :=
  (padWrites dims srclayout dstlayout).map (List.foldl (fun out w => w.apply elemsize inparray out) outarray)

end

example : padWrites (fun a => if a = "Ni" then 1 else 2) ["Ni", "Ci"] ["No", "Co"] =
    some [.fill 4, .copy 0 0, .copy 1 1] := by decide

section Elements

variable {d : String → Nat}

/-- A product that an `int` does not hold. -/
theorem elements_overflow {l : List String} (pos : ∀ a ∈ l, 0 < d a) (acc : Nat) (small : acc < 2 ^ 31)
    (large : 2 ^ 31 ≤ acc * volume d l) :
    l.foldlM (fun size dimname => toInt (size * sizes d dimname)) (acc : Int) = none := by
  induction l generalizing acc with
  | nil =>
    rw [volume_nil] at large
    omega
  | cons a l ih =>
    rw [volume_cons, ← Nat.mul_assoc] at large
    rw [List.foldlM_cons, sizes]
    by_cases fits : acc * d a < 2 ^ 31
    · rw [toInt_mul fits]
      exact ih (fun b hb => pos b (List.mem_cons_of_mem _ hb)) _ fits large
    · rw [toInt, if_neg (by rw [← Int.natCast_mul]; omega)]
      rfl

theorem tensorElements_overflow {l : List String} (pos : ∀ a ∈ l, 0 < d a) (large : 2 ^ 31 ≤ volume d l) :
    tensorElements (sizes d) l = none := elements_overflow pos 1 (by decide) (by rwa [Nat.one_mul])

end Elements

/-! The axes as pairs of their names in the two layouts. -/

section Axes

variable (d : String → Nat)

def srcSize (axis : String × String) : Nat := d axis.1

def dstSize (axis : String × String) : Nat := d axis.2

/-- What the callers of `padData` give it. -/
structure PadLayouts (srclayout dstlayout : List String) : Prop where
  length : srclayout.length = dstlayout.length
  srcNodup : srclayout.Nodup
  dstNodup : dstlayout.Nodup
  pos : ∀ a ∈ srclayout, 0 < d a
  le : ∀ axis ∈ srclayout.zip dstlayout, srcSize d axis ≤ dstSize d axis

variable {d}

theorem volume_map (name : String × String → String) (axes : List (String × String)) :
    volume d (axes.map name) = volume (fun axis => d (name axis)) axes := by
  rw [volume, List.map_map]
  rfl

/-- The step of an axis in either layout. -/
theorem getDimStep_axes {name : String × String → String} {front back : List (String × String)} {axis : String × String}
    (nodup : ((front ++ axis :: back).map name).Nodup) (pos : ∀ a ∈ front ++ axis :: back, 0 < d (name a))
    (int : volume (fun a => d (name a)) (front ++ axis :: back) < 2 ^ 31) :
    getDimStep (sizes d) ((front ++ axis :: back).map name) (name axis) =
      some (volume (fun a => d (name a)) back : Int) := by
  have pos' : ∀ b ∈ (front ++ axis :: back).map name, 0 < d b := by
    intro b hb
    obtain ⟨a, mem, rfl⟩ := List.mem_map.mp hb
    exact pos a mem
  rw [← volume_map] at int ⊢
  rw [List.map_append, List.map_cons] at nodup pos' int ⊢
  exact getDimStep_append pos' (List.nodup_cons.mp (List.Nodup.of_append_right nodup)).1 int

/-- Layouts that are given by their axes. -/
structure PadAxes (d : String → Nat) (axes : List (String × String)) : Prop where
  srcNodup : (axes.map Prod.fst).Nodup
  dstNodup : (axes.map Prod.snd).Nodup
  pos : ∀ axis ∈ axes, 0 < srcSize d axis
  le : ∀ axis ∈ axes, srcSize d axis ≤ dstSize d axis

theorem flatten_of_filter {α β : Type} (p : α → Prop) [DecidablePred p] (f : α → β) (l : List α) :
    (l.map fun a => if p a then [f a] else []).flatten = (l.filter fun a => p a).map f := by
  induction l with
  | nil => rfl
  | cons a l ih =>
    rw [List.map_cons, List.flatten_cons, ih]
    by_cases here : p a
    · rw [if_pos here, List.filter_cons_of_pos (by simpa using here)]
      rfl
    · rw [if_neg here, List.filter_cons_of_neg (by simpa using here)]
      rfl

namespace PadAxes

variable {axes : List (String × String)}

theorem nodup (h : PadAxes d axes) : axes.Nodup := h.srcNodup.of_map _

theorem dstPos (h : PadAxes d axes) (axis : String × String) (mem : axis ∈ axes) : 0 < dstSize d axis :=
  (h.pos axis mem).trans_le (h.le axis mem)

theorem volume_le (h : PadAxes d axes) : volume (srcSize d) axes ≤ volume (dstSize d) axes := by
  induction axes with
  | nil => exact le_rfl
  | cons axis axes ih =>
    have rest : PadAxes d axes :=
      { srcNodup := (List.nodup_cons.mp h.srcNodup).2
        dstNodup := (List.nodup_cons.mp h.dstNodup).2
        pos := fun a mem => h.pos a (List.mem_cons_of_mem _ mem)
        le := fun a mem => h.le a (List.mem_cons_of_mem _ mem) }
    rw [volume_cons, volume_cons]
    exact Nat.mul_le_mul (h.le axis List.mem_cons_self) (ih rest)

/-- All coordinates of an element of the output are those of one of the input. -/
def Inside (d : String → Nat) (axes : List (String × String)) (i : Nat) : Prop :=
  ∀ axis ∈ axes, digit (dstSize d) axes i axis < srcSize d axis

instance (d : String → Nat) (axes : List (String × String)) (i : Nat) : Decidable (Inside d axes i) :=
  inferInstanceAs (Decidable (∀ _ ∈ _, _))

/-- The element of the input with the same coordinates. -/
def source (d : String → Nat) (axes : List (String × String)) (i : Nat) : Nat :=
  index (srcSize d) (digit (dstSize d) axes i) axes

/-- The coordinates are taken off one by one, until one of them is in the padding. -/
theorem padAxes_eq (h : PadAxes d axes) (int : volume (dstSize d) axes < 2 ^ 31) (front : List (String × String))
    {back : List (String × String)} (split : axes = front ++ back) (r acc : Nat)
    (bound : acc + volume (srcSize d) back ≤ volume (dstSize d) axes) :
    padAxes (sizes d) (axes.map Prod.fst) (axes.map Prod.snd) back r acc =
      some (if Inside d back r then some ((acc + source d back r : Nat) : Int) else none) := by
  induction back generalizing front r acc with
  | nil =>
    have inside : Inside d [] r := fun _ mem => nomatch mem
    rw [if_pos inside]
    rfl
  | cons axis back ih =>
    have nodup := h.nodup
    rw [split] at nodup
    have nodup' : (axis :: back).Nodup := List.Nodup.of_append_right nodup
    have pos (a : String × String) (mem : a ∈ back) : 0 < dstSize d a :=
      h.dstPos a (by rw [split]; exact List.mem_append_right _ (List.mem_cons_of_mem _ mem))
    have step : getDimStep (sizes d) (axes.map Prod.snd) axis.2 = some (volume (dstSize d) back : Int) := by
      have dstNodup := h.dstNodup
      have dstPos := h.dstPos
      rw [split] at dstNodup dstPos int ⊢
      exact getDimStep_axes dstNodup dstPos int
    have srcstep : getDimStep (sizes d) (axes.map Prod.fst) axis.1 = some (volume (srcSize d) back : Int) := by
      have srcNodup := h.srcNodup
      have srcPos := h.pos
      have srcInt := h.volume_le.trans_lt int
      rw [split] at srcNodup srcPos srcInt ⊢
      exact getDimStep_axes srcNodup srcPos srcInt
    have some' : volume (dstSize d) back ≠ 0 := Nat.ne_of_gt (volume_pos (dstSize d) pos)
    have others : Inside d (axis :: back) r ↔
        r / volume (dstSize d) back < srcSize d axis ∧ Inside d back (r % volume (dstSize d) back) := by
      rw [Inside, List.forall_mem_cons, digit_head]
      refine and_congr_right fun _ => forall₂_congr fun a mem => ?_
      rw [digit_tail nodup' mem]
    have digits : source d (axis :: back) r =
        r / volume (dstSize d) back * volume (srcSize d) back + source d back (r % volume (dstSize d) back) := by
      rw [source, index, digit_head, index_congr (srcSize d) fun a mem => digit_tail nodup' mem r]
      rfl
    simp only [padAxes, step, srcstep, Option.bind_eq_bind, Option.bind_some]
    rw [if_neg (by omega), ← Int.ofNat_tdiv]
    by_cases outside : srcSize d axis ≤ r / volume (dstSize d) back
    · rw [if_pos (by change (srcSize d axis : Int) ≤ _; omega), if_neg fun inside => by have := (others.mp inside).1; omega]
    · rw [volume_cons] at bound
      have digit : (r / volume (dstSize d) back + 1) * volume (srcSize d) back ≤ srcSize d axis * volume (srcSize d) back :=
        Nat.mul_le_mul_right _ (by omega)
      rw [Nat.add_mul, Nat.one_mul] at digit
      rw [if_neg (by change ¬(srcSize d axis : Int) ≤ _; omega), toInt_mul (by omega), Option.bind_some, ← Int.natCast_add,
        toInt_nat (by omega), Option.bind_some, ← Int.ofNat_tmod,
        ih (front ++ [axis]) (by rw [split, List.append_assoc]; rfl) _ _ (by omega), digits, Nat.add_assoc]
      congr 1
      refine if_congr ?_ rfl rfl
      rw [others]
      exact ⟨fun inside => ⟨by omega, inside⟩, And.right⟩

theorem padElem_eq (h : PadAxes d axes) (int : volume (dstSize d) axes < 2 ^ 31) (i : Nat) :
    padElem (sizes d) (axes.map Prod.fst) (axes.map Prod.snd) i =
      some (if Inside d axes i then [.copy (source d axes i) i] else []) := by
  have index := h.padAxes_eq int [] rfl i 0 (by rw [Nat.zero_add]; exact h.volume_le)
  rw [Nat.zero_add] at index
  have zip := (@List.zip_of_prod _ _ _ _ axes rfl rfl).symm
  change padAxes (sizes d) (axes.map Prod.fst) (axes.map Prod.snd) axes i 0 = _ at index
  rw [padElem, zip, index, Option.bind_eq_bind, Option.bind_some]
  split
  · rename_i none
    split at none
    · cases none
    · rename_i outside
      rw [if_neg outside]
  · rename_i k some
    split at some
    · rename_i inside
      cases some
      rw [if_neg (by omega), if_pos inside, Int.toNat_natCast]
    · cases some

/-- What is written: the zeros, and then the elements that are inside. -/
def writes (d : String → Nat) (axes : List (String × String)) : List ArrayWrite :=
  .fill (volume (dstSize d) axes) ::
    ((List.range (volume (dstSize d) axes)).filter fun i => Inside d axes i).map fun i => .copy (source d axes i) i

theorem padWrites_eq (h : PadAxes d axes) (int : volume (dstSize d) axes < 2 ^ 31) (names : ∀ axis ∈ axes, axis.2 ≥ axis.1) :
    padWrites (sizes d) (axes.map Prod.fst) (axes.map Prod.snd) = some (writes d axes) := by
  have pos : ∀ b ∈ axes.map Prod.snd, 0 < d b := by
    intro b hb
    obtain ⟨a, mem, rfl⟩ := List.mem_map.mp hb
    exact h.dstPos a mem
  have elements : tensorElements (sizes d) (axes.map Prod.snd) = some (volume (dstSize d) axes : Int) := by
    have size : volume d (axes.map Prod.snd) = volume (dstSize d) axes := volume_map _ _
    rw [tensorElements_eq pos (by rwa [size]), size]
  have zip := (@List.zip_of_prod _ _ _ _ axes rfl rfl).symm
  have checks : ¬((axes.map Prod.fst).length ≠ (axes.map Prod.snd).length ∨ ¬∀ axis ∈ axes, axis.2 ≥ axis.1) := by
    rw [List.length_map, List.length_map]
    exact fun failed => failed.elim (fun h => h rfl) fun h => h names
  rw [padWrites, elements, Option.bind_eq_bind, Option.bind_some, zip, if_neg checks, Int.toNat_natCast,
    mapM_some fun i _ => h.padElem_eq int i, Option.bind_eq_bind, Option.bind_some, writes]
  rw [flatten_of_filter]

section Result

variable {inparray outarray result : Nat → UInt8} {elemsize : Nat}

theorem padData_eq (h : PadAxes d axes) (int : volume (dstSize d) axes < 2 ^ 31) (names : ∀ axis ∈ axes, axis.2 ≥ axis.1)
    (inparray outarray : Nat → UInt8) (elemsize : Nat) :
    padData (sizes d) (axes.map Prod.fst) (axes.map Prod.snd) inparray outarray elemsize =
      some (applyAll elemsize inparray (copyTo outarray 0 (volume (dstSize d) axes) fun _ => 0)
        (((List.range (volume (dstSize d) axes)).filter fun i => Inside d axes i).map fun i => .copy (source d axes i) i)) := by
  rw [padData, h.padWrites_eq int names]
  rfl

/-- An element of the output: a copy, or what `memset` leaves. -/
theorem padData_apply (h : PadAxes d axes) (int : volume (dstSize d) axes < 2 ^ 31) (names : ∀ axis ∈ axes, axis.2 ≥ axis.1)
    (run : padData (sizes d) (axes.map Prod.fst) (axes.map Prod.snd) inparray outarray elemsize = some result)
    {x : String × String → Nat} (hx : InRange (dstSize d) x axes) {j : Nat} (hj : j < elemsize) :
    result (index (dstSize d) x axes * elemsize + j) =
      if ∀ axis ∈ axes, x axis < srcSize d axis then inparray (index (srcSize d) x axes * elemsize + j)
      else if index (dstSize d) x axes * elemsize + j < volume (dstSize d) axes then 0
      else outarray (index (dstSize d) x axes * elemsize + j) := by
  have digits := digit_index h.nodup hx
  have inside : Inside d axes (index (dstSize d) x axes) ↔ ∀ axis ∈ axes, x axis < srcSize d axis :=
    forall₂_congr fun axis mem => by rw [digits axis mem]
  have place : source d axes (index (dstSize d) x axes) = index (srcSize d) x axes := index_congr _ digits
  rw [h.padData_eq int names] at run
  cases run
  split
  · rename_i all
    rw [← place]
    refine applyAll_here (List.nodup_range.filter _) (fun i _ k _ same => same) (List.mem_filter.mpr ⟨?_, ?_⟩) hj
    · exact List.mem_range.mpr (index_lt hx)
    · exact decide_eq_true (inside.mpr all)
  · rename_i padding
    rw [applyAll_elsewhere hj]
    · rw [copyTo]
      simp only [Nat.zero_le, true_and, Nat.zero_add]
    · rintro i mem rfl
      exact padding (inside.mp (of_decide_eq_true (List.mem_filter.mp mem).2))

end Result

end PadAxes

end Axes

section Claim

variable {d : String → Nat} {srclayout dstlayout : List String}

theorem PadLayouts.axes (h : PadLayouts d srclayout dstlayout) : PadAxes d (srclayout.zip dstlayout) where
  srcNodup := by
    rw [List.map_fst_zip h.length.le]
    exact h.srcNodup
  dstNodup := by
    rw [List.map_snd_zip h.length.ge]
    exact h.dstNodup
  pos axis mem := h.pos axis.1 (List.of_mem_zip mem).1
  le := h.le

/-- The output is the input with zeros around it, whatever was there before. -/
def ZeroExtends (d : String → Nat) (srclayout dstlayout : List String) (elemsize : Nat) (inparray outarray : Nat → UInt8) :
    Prop :=
  ∃ result, padData (sizes d) srclayout dstlayout inparray outarray elemsize = some result ∧
    ∀ x, InRange (dstSize d) x (srclayout.zip dstlayout) → ∀ j < elemsize,
      result (index (dstSize d) x (srclayout.zip dstlayout) * elemsize + j) =
        if ∀ axis ∈ srclayout.zip dstlayout, x axis < srcSize d axis then
          inparray (index (srcSize d) x (srclayout.zip dstlayout) * elemsize + j)
        else 0

/-- The names are in the order that the check asks for, an `int` holds the number of elements, and the bytes of
the padding that `memset` does not reach are zero already. -/
structure PadSafe (d : String → Nat) (srclayout dstlayout : List String) (elemsize : Nat) (outarray : Nat → UInt8) :
    Prop where
  names : ∀ axis ∈ srclayout.zip dstlayout, axis.2 ≥ axis.1
  int : volume d dstlayout < 2 ^ 31
  clean : ∀ x, InRange (dstSize d) x (srclayout.zip dstlayout) → (∃ axis ∈ srclayout.zip dstlayout, srcSize d axis ≤ x axis) →
    ∀ j < elemsize, volume d dstlayout ≤ index (dstSize d) x (srclayout.zip dstlayout) * elemsize + j →
      outarray (index (dstSize d) x (srclayout.zip dstlayout) * elemsize + j) = 0

theorem padData_none_of_names {dims : Dims} {inparray outarray : Nat → UInt8} {elemsize : Nat}
    (wrong : ¬∀ axis ∈ srclayout.zip dstlayout, axis.2 ≥ axis.1) :
    padData dims srclayout dstlayout inparray outarray elemsize = none := by
  rw [padData, Option.map_eq_none_iff, padWrites]
  cases tensorElements dims dstlayout with
  | none => rfl
  | some n => exact if_pos (Or.inr wrong)

/-- When `padData` zero-extends. -/
theorem zeroExtends_iff (d : String → Nat) (srclayout dstlayout : List String) (layouts : PadLayouts d srclayout dstlayout)
    (elemsize : Nat) (inparray outarray : Nat → UInt8) :
    ZeroExtends d srclayout dstlayout elemsize inparray outarray ↔ PadSafe d srclayout dstlayout elemsize outarray := by
  have h := layouts.axes
  have src : (srclayout.zip dstlayout).map Prod.fst = srclayout := List.map_fst_zip layouts.length.le
  have dst : (srclayout.zip dstlayout).map Prod.snd = dstlayout := List.map_snd_zip layouts.length.ge
  have size : volume d dstlayout = volume (dstSize d) (srclayout.zip dstlayout) := by
    have all : volume d ((srclayout.zip dstlayout).map Prod.snd) = _ := volume_map _ _
    rwa [dst] at all
  have apply (int : volume (dstSize d) (srclayout.zip dstlayout) < 2 ^ 31)
      (names : ∀ axis ∈ srclayout.zip dstlayout, axis.2 ≥ axis.1) {result : Nat → UInt8}
      (run : padData (sizes d) srclayout dstlayout inparray outarray elemsize = some result)
      {x : String × String → Nat} (hx : InRange (dstSize d) x (srclayout.zip dstlayout)) {j : Nat} (hj : j < elemsize) :=
    h.padData_apply int names (by rwa [src, dst]) hx hj
  constructor
  · rintro ⟨result, run, extended⟩
    have names : ∀ axis ∈ srclayout.zip dstlayout, axis.2 ≥ axis.1 := by
      by_contra wrong
      rw [padData_none_of_names wrong] at run
      cases run
    have int : volume d dstlayout < 2 ^ 31 := by
      by_contra large
      have pos : ∀ b ∈ dstlayout, 0 < d b := by
        intro b hb
        rw [← dst] at hb
        obtain ⟨axis, mem, rfl⟩ := List.mem_map.mp hb
        exact h.dstPos axis mem
      rw [padData, padWrites, tensorElements_overflow pos (by omega)] at run
      cases run
    refine ⟨names, int, fun x hx padding j hj far => ?_⟩
    have outside : ¬∀ axis ∈ srclayout.zip dstlayout, x axis < srcSize d axis := by
      obtain ⟨axis, mem, past⟩ := padding
      exact fun all => absurd (all axis mem) (by omega)
    have left := apply (size ▸ int) names run hx hj
    rw [extended x hx j hj, if_neg outside, if_neg outside, if_neg (by omega)] at left
    exact left.symm
  · rintro ⟨names, int, clean⟩
    have run := h.padData_eq (size ▸ int) names inparray outarray elemsize
    rw [src, dst] at run
    refine ⟨_, run, fun x hx j hj => ?_⟩
    rw [apply (size ▸ int) names run hx hj]
    split
    · rfl
    · rename_i outside
      split
      · rfl
      · rename_i far
        obtain ⟨axis, mem, past⟩ := not_forall₂.mp outside
        exact clean x hx ⟨axis, mem, by omega⟩ j hj (by omega)

/-- The sizes of biases that are padded to a whole block. -/
def biasSizes (axis : String) : Nat := if axis = "O" then 3 else 16

theorem zeroExtends_of_bytes : ZeroExtends biasSizes ["O"] ["Oaligned"] 1 (fun _ => 1) (fun _ => 255) ↔
    PadSafe biasSizes ["O"] ["Oaligned"] 1 fun _ => 255 :=
  zeroExtends_iff biasSizes ["O"] ["Oaligned"] ⟨rfl, by decide, by decide, by decide, by decide⟩ 1 (fun _ => 1) fun _ => 255

/-- One element of four bytes into two: of the second one only the bytes before the third are cleared. -/
theorem padding_keeps_old_bytes : ¬∀ (d : String → Nat) (srclayout dstlayout : List String), PadLayouts d srclayout dstlayout →
    ∀ elemsize, 0 < elemsize → ∀ inparray outarray, ZeroExtends d srclayout dstlayout elemsize inparray outarray := by
  intro claim
  have layouts : PadLayouts (fun a => if a = "O" then 1 else 2) ["O"] ["Oaligned"] :=
    ⟨rfl, by decide, by decide, by decide, by decide⟩
  obtain ⟨result, run, extended⟩ := claim _ _ _ layouts 4 (by decide) (fun _ => 0) fun _ => 255
  have byte := extended (fun _ => 1) (by intro axis mem; simp at mem; subst mem; decide) 0 (by decide)
  have old : (padData (sizes fun a => if a = "O" then 1 else 2) ["O"] ["Oaligned"] (fun _ => 0) (fun _ => 255) 4).map (· 4) =
      some 255 := by decide
  rw [run, Option.map_some, Option.some.injEq] at old
  have zero : result 4 = 0 := byte
  rw [zero] at old
  cases old

end Claim

end AlkaliFw
