import Mathlib

/-! Items that are taken and given back. A history lists, newest first, who took an item and
who gave it back; it is regular when only free items are taken, by someone who has none, and
only the holder gives an item back. Then an item has one holder and a holder one item. -/

namespace AlkaliFw.Lease

inductive Entry (γ β : Type) where
  | take (c : γ) (b : β)
  | give (c : γ) (b : β)

variable {γ β : Type} [DecidableEq β]

def holder (b : β) : List (Entry γ β) → Option γ
  | [] => none
  | .take c x :: h => if x = b then some c else holder b h
  | .give _ x :: h => if x = b then none else holder b h

def Entry.Regular : Entry γ β → List (Entry γ β) → Prop
  | .take c b, h => holder b h = none ∧ ∀ x, holder x h ≠ some c
  | .give c b, h => holder b h = some c

def Regular : List (Entry γ β) → Prop
  | [] => True
  | e :: h => e.Regular h ∧ Regular h

def takes (b : β) (h : List (Entry γ β)) : Nat := h.countP fun
  | .take _ x => x = b
  | .give _ _ => false

def gives (b : β) (h : List (Entry γ β)) : Nat := h.countP fun
  | .take _ _ => false
  | .give _ x => x = b

section

variable {h : List (Entry γ β)} {b x : β} {c e : γ}

theorem holder_take : holder x (.take c b :: h) = if b = x then some c else holder x h := rfl

theorem holder_give : holder x (.give c b :: h) = if b = x then none else holder x h := rfl

/-- Nobody holds two items. -/
theorem Regular.one (regular : Regular h) (hb : holder b h = some c) (hx : holder x h = some c) : b = x := by
  induction h with
  | nil => cases hb
  | cons entry h ih =>
    obtain ⟨here, regular⟩ := regular
    cases entry with
    | take e y =>
      rw [holder_take] at hb hx
      split at hb
      · rename_i same
        cases hb
        split at hx
        · exact same.symm.trans ‹y = x›
        · exact absurd hx (here.2 x)
      · split at hx
        · cases hx
          exact absurd hb (here.2 b)
        · exact ih regular hb hx
    | give e y =>
      rw [holder_give] at hb hx
      split at hb
      · cases hb
      · split at hx
        · cases hx
        · exact ih regular hb hx

/-- An item is given back once each time that it was taken, unless it is held. -/
theorem Regular.balance (regular : Regular h) (b : β) : takes b h = gives b h + if (holder b h).isSome then 1 else 0 := by
  induction h with
  | nil => rfl
  | cons entry h ih =>
    obtain ⟨here, regular⟩ := regular
    have before := ih regular
    unfold takes gives at before ⊢
    cases entry with
    | take e y =>
      rw [holder_take, List.countP_cons, List.countP_cons, before]
      by_cases same : y = b
      · subst same
        simp [here.1]
      · simp [same]
    | give e y =>
      rw [holder_give, List.countP_cons, List.countP_cons, before]
      by_cases same : y = b
      · subst same
        have held : holder y h = some e := here
        simp [held]
      · simp [same]

/-- There are not more items in use than there are holders. -/
theorem Regular.length_le (regular : Regular h) {used : List β} (nodup : used.Nodup) {holders : List γ}
    (held : ∀ b ∈ used, ∃ c ∈ holders, holder b h = some c) : used.length ≤ holders.length := by
  have distinct : (used.map fun b => holder b h).Nodup := by
    refine List.Nodup.map_on (fun b hb x _ same => ?_) nodup
    obtain ⟨c, -, hc⟩ := held b hb
    exact regular.one hc (same ▸ hc)
  have sub : (used.map fun b => holder b h) ⊆ holders.map some := by
    intro o mem
    obtain ⟨b, hb, rfl⟩ := List.mem_map.mp mem
    obtain ⟨c, hc, held⟩ := held b hb
    exact List.mem_map.mpr ⟨c, hc, held.symm⟩
  have le := (List.subperm_of_subset distinct sub).length_le
  rwa [List.length_map, List.length_map] at le

end
end AlkaliFw.Lease
