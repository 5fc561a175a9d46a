import AlkaliFw.InOrderStages

/-! What instructions do when stages run them in an order that is not that of the program. Two that do not
commute may be of one stage, or a token may keep their order; then all schedules do the same. -/

namespace InOrderStages

section Lists

variable {β μ : Type*} {f : μ → β → μ}

theorem foldl_move (before after : List β) (x : β) (comm : ∀ y ∈ before, ∀ m, f (f m x) y = f (f m y) x) (m : μ) :
    (before ++ x :: after).foldl f m = (x :: (before ++ after)).foldl f m := by
  induction before generalizing m with
  | nil => rfl
  | cons y before ih =>
      have rest := ih (fun z mem => comm z (List.mem_cons_of_mem y mem)) (f m y)
      rw [List.cons_append, List.foldl_cons, rest, List.foldl_cons, List.foldl_cons, ← comm y List.mem_cons_self]
      rfl

/-- Two orders of the same things do the same when all that changed places commute. -/
theorem foldl_of_inversions {l d : List β} (perm : d.Perm l)
    (comm : ∀ x y, [x, y].Sublist l → [y, x].Sublist d → ∀ m, f (f m x) y = f (f m y) x) (m : μ) :
    d.foldl f m = l.foldl f m := by
  induction l generalizing d m with
  | nil => rw [perm.eq_nil]
  | cons x l ih =>
      obtain ⟨before, after, rfl⟩ := List.append_of_mem (perm.mem_iff.mpr List.mem_cons_self)
      have rest : (before ++ after).Perm l := (List.perm_cons x).mp (List.perm_middle.symm.trans perm)
      have part : (before ++ after).Sublist (before ++ x :: after) :=
        (List.Sublist.refl before).append (List.sublist_cons_self x after)
      rw [foldl_move before after x (fun y mem => ?_), List.foldl_cons, List.foldl_cons, ih rest fun y z order order' => ?_]
      · exact comm y z (order.cons x) (order'.trans part)
      · have later : y ∈ l := rest.mem_iff.mp (List.mem_append_left after mem)
        refine comm x y ((List.singleton_sublist.mpr later).cons_cons x) ?_
        exact (List.singleton_sublist.mpr mem).append (List.singleton_sublist.mpr List.mem_cons_self)

/-- A pair at the end of a list. -/
theorem pair_concat {l : List β} {x y z : β} (order : [y, x].Sublist (l ++ [z])) : [y, x].Sublist l ∨ y ∈ l ∧ x = z := by
  have back := order.reverse
  rw [List.reverse_append] at back
  change [x, y].Sublist (z :: l.reverse) at back
  cases back with
  | cons _ inside => exact Or.inl (List.reverse_sublist.mp inside)
  | cons_cons _ rest => exact Or.inr ⟨List.mem_reverse.mp (List.singleton_sublist.mp rest), rfl⟩

theorem pair_append {l l' : List β} {x y : β} (order : [x, y].Sublist (l ++ l')) (last : y ∉ l') : x ∈ l := by
  obtain ⟨a, b, eq, sub, sub'⟩ := List.sublist_append_iff.mp order
  cases a with
  | nil =>
      have here : y ∈ b := by
        rw [← List.nil_append b, ← eq]
        exact List.mem_cons_of_mem x List.mem_cons_self
      exact absurd (sub'.mem here) last
  | cons z a =>
      obtain ⟨rfl, -⟩ := List.cons.inj eq
      exact sub.mem List.mem_cons_self

end Lists

section Schedules

variable {α σ κ : Type*} [DecidableEq σ] {net : Net α σ κ} {program : List α} {first left : κ → Nat} {st : State α σ κ}
variable {x y : α × Nat}

/-- One of the two ran while the other one had not. -/
theorem reach_between (reach : Relation.ReflTransGen (Step net) (startWith net first program) st)
    (order : [y, x].Sublist st.done) :
    ∃ st', Relation.ReflTransGen (Step net) (startWith net first program) st' ∧ y ∈ st'.done ∧ x ∉ st'.done := by
  induction reach with
  | refl => cases order
  | @tail st st' reach step ih =>
      have nodup := (inv_of_reach (reach.tail step)).nodup
      obtain ⟨s, z, rest, next, ready⟩ := step
      change [y, x].Sublist (st.done ++ [z]) at order
      change (st.done ++ [z]).Nodup at nodup
      obtain before | ⟨here, rfl⟩ := pair_concat order
      · exact ih before
      · refine ⟨st, reach, here, fun old => ?_⟩
        exact (List.nodup_append.mp nodup).2.2 x old x (List.mem_singleton_self x) rfl

/-- What keeps two instructions in the order of the program: their stage, or a token that the first one's stage gives
only after it. -/
def KeepsOrder (net : Net α σ κ) (program : List α) (x y : α × Nat) : Prop :=
  net.stage x.1 = net.stage y.1 ∨ ∃ k, net.stage y.1 = net.consumer k ∧ net.stage x.1 = net.producer k ∧
    givenBy net program x.2 k < takenBy net program (y.2 + 1) k

/-- A stage keeps to the order of the program. -/
theorem Inv.same_stage {tokens : κ → Nat} (inv : Inv net tokens program st) (before : [x, y].Sublist program.zipIdx)
    (same : net.stage x.1 = net.stage y.1) (done : y ∈ st.done) : x ∈ st.done := by
  have parts := inv.parts (net.stage y.1)
  have unique := (nodup_zipIdx program).filter fun z => net.stage z.1 = net.stage y.1
  have pair := before.filter fun z => net.stage z.1 = net.stage y.1
  rw [List.filter_cons_of_pos (by simpa using same), List.filter_cons_of_pos (by simp), List.filter_nil] at pair
  rw [show program.zipIdx.filter _ = _ from parts] at unique pair
  have front := pair_append pair fun waits =>
    (List.nodup_append.mp unique).2.2 y (mem_ofStage_self.mpr done) y waits rfl
  exact (mem_ofStage.mp front).1

theorem Inv.ordered (inv : Inv net (fun _ => 0) program st) (before : [x, y].Sublist program.zipIdx)
    (ordered : KeepsOrder net program x y) (done : y ∈ st.done) : x ∈ st.done := by
  obtain same | ⟨k, taker, giver, more⟩ := ordered
  · exact inv.same_stage before same done
  · have at_x := List.mem_zipIdx_iff_getElem?.mp (before.mem (List.mem_cons_self))
    have at_y := List.mem_zipIdx_iff_getElem?.mp (before.mem (List.mem_cons_of_mem x List.mem_cons_self))
    exact inv.ran_at at_y at_x taker giver more done

theorem Inv.perm (inv : Inv net first program st) (complete : ∀ s, st.queue s = []) : st.done.Perm program.zipIdx :=
  (List.perm_ext_iff_of_nodup inv.nodup (nodup_zipIdx program)).mpr fun _ =>
    ⟨inv.mem_done, inv.ran_of_empty complete _⟩

variable {μ : Type*} {f : μ → α × Nat → μ}

/-- Any schedule does what the program does in its own order, if what may change places commutes. -/
theorem effect_of_order (reach : Reachable net program st) (complete : ∀ s, st.queue s = [])
    (apart : ∀ x y, [x, y].Sublist program.zipIdx →
      (∀ st', Reachable net program st' → y ∈ st'.done → x ∈ st'.done) ∨ ∀ m, f (f m x) y = f (f m y) x) (m : μ) :
    st.done.foldl f m = program.zipIdx.foldl f m := by
  refine foldl_of_inversions (reach.inv.perm complete) (fun x y before after => ?_) m
  refine (apart x y before).resolve_left fun ordered => ?_
  obtain ⟨st', reach', here, missing⟩ := reach_between reach after
  exact missing (ordered st' reach' here)

theorem schedule_effect (reach : Reachable net program st) (complete : ∀ s, st.queue s = [])
    (apart : ∀ x y, [x, y].Sublist program.zipIdx → KeepsOrder net program x y ∨ ∀ m, f (f m x) y = f (f m y) x) (m : μ) :
    st.done.foldl f m = program.zipIdx.foldl f m :=
  effect_of_order reach complete (fun x y before => (apart x y before).imp_left fun ordered _ reach' =>
    (inv_of_reach reach').ordered before ordered) m

/-- Whatever ran, the rest can still run. -/
theorem Conveys.completion (conveys : Conveys net first program left)
    (reach : Relation.ReflTransGen (Step net) (startWith net first program) st) :
    ∃ st', Relation.ReflTransGen (Step net) (startWith net first program) st' ∧ Finished program left st' ∧
      ∃ more, st'.done = st.done ++ more := by
  generalize waiting : program.length - st.done.length = n
  induction n generalizing st with
  | zero =>
      refine ⟨st, reach, conveys.finished_of_stuck reach fun st' step => ?_, [], (List.append_nil _).symm⟩
      have bound := (inv_of_reach (reach.tail step)).length_le
      have more := step.length
      omega
  | succ n ih =>
      by_cases stuck : ∀ st', ¬Step net st st'
      · exact ⟨st, reach, conveys.finished_of_stuck reach stuck, [], (List.append_nil _).symm⟩
      · obtain ⟨st', step⟩ := not_forall_not.mp stuck
        have more := step.length
        obtain ⟨st'', reach', finished, l, done⟩ := ih (reach.tail step) (by omega)
        obtain ⟨s, z, rest, next, ready⟩ := step
        exact ⟨st'', reach', finished, z :: l, by rw [done, List.append_assoc]; rfl⟩

end Schedules

section Prefixes

variable {α σ κ : Type*} [DecidableEq σ] {net : Net α σ κ} {program : List α} {first left : κ → Nat} {st : State α σ κ}

theorem pair_zipIdx {i j : Nat} {a b : α} (at_i : program[i]? = some a) (at_j : program[j]? = some b) (lt : i < j) :
    [(a, i), (b, j)].Sublist program.zipIdx := by
  rw [cut_at at_j]
  have before : [(a, i)].Sublist (program.zipIdx.take j) := by
    refine List.singleton_sublist.mpr (List.mem_iff_getElem?.mpr ⟨i, ?_⟩)
    rw [List.getElem?_take_of_lt lt, List.getElem?_zipIdx, at_i, Option.map_some, Nat.zero_add]
  exact before.append (List.singleton_sublist.mpr List.mem_cons_self)

/-- After a first part of the program the rest waits. -/
theorem Inv.queue_of_take (inv : Inv net first program st) {n : Nat} (done : st.done = program.zipIdx.take n) (s : σ) :
    st.queue s = ofStage net s (program.zipIdx.drop n) := by
  have parts := inv.parts s
  rw [← List.take_append_drop n program.zipIdx, ofStage_append, done] at parts
  exact (List.append_cancel_left parts).symm

/-- The stages may run the program in its own order. -/
theorem Conveys.reach_take (conveys : Conveys net first program left) {n : Nat} (le : n ≤ program.length) :
    ∃ st, Relation.ReflTransGen (Step net) (startWith net first program) st ∧ st.done = program.zipIdx.take n := by
  induction n with
  | zero => exact ⟨_, .refl, rfl⟩
  | succ n ih =>
      obtain ⟨st, reach, done⟩ := ih (Nat.le_of_succ_le le)
      have inv := inv_of_reach reach
      have at_n : program[n]? = some program[n] := List.getElem?_eq_getElem le
      have cut := cut_at at_n
      have rest : program.zipIdx.drop n = (program[n], n) :: program.zipIdx.drop (n + 1) := by
        have length : n < program.zipIdx.length := by rwa [List.length_zipIdx]
        rw [List.drop_eq_getElem_cons length, List.getElem_zipIdx, Nat.zero_add]
      have next := inv.queue_of_take done (net.stage program[n])
      rw [rest, @ofStage_cons_self _ _ _ _ net (program[n], n)] at next
      refine ⟨_, reach.tail (.run _ _ _ next fun k => ?_), ?_⟩
      · have enough := conveys.enough cut k
        have sum := inv.tokens k
        rw [done] at sum
        change net.pops program[n] k ≤ _
        change _ + net.pops program[n] k ≤ _ at enough
        omega
      · change st.done ++ [(program[n], n)] = _
        rw [done, List.take_add_one, List.getElem?_zipIdx, at_n, Option.map_some, Nat.zero_add]
        rfl

end Prefixes

section Relays

variable {α σ κ : Type*} {net : Net α σ κ} {l more : List α} {i : Nat} {x y : α}

/-- Each instruction gives what the next one takes, and the first one takes nothing. -/
structure Relays (net : Net α σ κ) (l : List α) : Prop where
  first : ∀ x ∈ l.head?, ∀ k, net.pops x k = 0
  chain : l.IsChain fun x y => ∀ k, net.pushes x k = net.pops y k

/-- Two instructions of one stage, or with a token from one to the other. -/
def Neighbours (net : Net α σ κ) (x y : α) : Prop :=
  net.stage x = net.stage y ∨ ∃ k, net.stage y = net.consumer k ∧ net.stage x = net.producer k ∧ 0 < net.pops y k

theorem tally_chain (chain : (x :: l).IsChain fun x y => ∀ k, net.pushes x k = net.pops y k) (k : κ) :
    tally (net.pops x k) ((x :: l).map (effect net k)) = some (net.pushes (l.getLastD x) k) := by
  induction l generalizing x with
  | nil => simp [tally, effect]
  | cons y l ih =>
      obtain ⟨here, rest⟩ := List.isChain_cons_cons.mp chain
      rw [List.map_cons, tally, effect, if_pos le_rfl, Nat.sub_self, Nat.zero_add, here k, ih rest, List.getLastD_cons]

theorem Relays.tally (relays : Relays net (x :: l)) (k : κ) :
    InOrderStages.tally 0 ((x :: l).map (effect net k)) = some (net.pushes (l.getLastD x) k) := by
  rw [← relays.first x rfl k, tally_chain relays.chain]

/-- What was given before an instruction was taken up to it. -/
theorem Relays.given (relays : Relays net l) (less : i < l.length) (k : κ) :
    givenBy net (l ++ more) i k = takenBy net (l ++ more) (i + 1) k := by
  induction i with
  | zero =>
      have at_0 : (l ++ more)[0]? = some l[0] := by
        rw [List.getElem?_append_left less, List.getElem?_eq_getElem less]
      have none := relays.first l[0] (by rw [List.head?_eq_getElem?, List.getElem?_eq_getElem less]; rfl) k
      rw [takenBy, sum_take_succ _ at_0, none]
      rfl
  | succ i ih =>
      have at_i : (l ++ more)[i]? = some l[i] := by
        rw [List.getElem?_append_left (by omega), List.getElem?_eq_getElem (by omega)]
      have at_next : (l ++ more)[i + 1]? = some l[i + 1] := by
        rw [List.getElem?_append_left less, List.getElem?_eq_getElem less]
      have link := (List.isChain_iff_getElem.mp relays.chain) i less k
      have before := ih (by omega)
      rw [givenBy, takenBy] at before
      rw [givenBy, takenBy, sum_take_succ _ at_i, sum_take_succ _ at_next, before, link]

theorem Relays.keeps (relays : Relays net l) (at_x : l[i]? = some x) (at_y : l[i + 1]? = some y) (near : Neighbours net x y) :
    KeepsOrder net (l ++ more) (x, i) (y, i + 1) := by
  obtain same | ⟨k, taker, giver, some⟩ := near
  · exact Or.inl same
  · refine Or.inr ⟨k, taker, giver, ?_⟩
    obtain ⟨less, -⟩ := List.getElem?_eq_some_iff.mp at_x
    have at_next : (l ++ more)[i + 1]? = Option.some y := by
      rw [List.getElem?_append_left (List.getElem?_eq_some_iff.mp at_y).1, at_y]
    change givenBy net (l ++ more) i k < takenBy net (l ++ more) (i + 1 + 1) k
    have given := @Relays.given _ _ _ net l more i relays less k
    rw [given, takenBy, takenBy, sum_take_succ _ at_next]
    omega

/-- A later instruction that waits for the last of those that relay. -/
theorem Relays.last_keeps (relays : Relays net l) {j : Nat} {k : κ} (last : i + 1 = l.length) (at_y : (l ++ more)[j]? = some y)
    (later : l.length ≤ j) (taker : net.stage y = net.consumer k) (giver : net.stage x = net.producer k)
    (takes : 0 < net.pops y k) : KeepsOrder net (l ++ more) (x, i) (y, j) := by
  refine Or.inr ⟨k, taker, giver, ?_⟩
  have given := @Relays.given _ _ _ net l more i relays (by omega) k
  have before := sum_take_le (net.pops · k) (l ++ more) (last.le.trans later)
  change givenBy net (l ++ more) i k < takenBy net (l ++ more) (j + 1) k
  rw [given, takenBy, takenBy, sum_take_succ _ at_y]
  omega

variable [DecidableEq σ] {st : State α σ κ}

/-- Where neighbours keep their order, all instructions do. -/
theorem Relays.in_order (relays : Relays net l) (near : l.IsChain (Neighbours net))
    (inv : Inv net (fun _ => 0) (l ++ more) st) {d : Nat} (at_x : l[i]? = some x) (at_y : l[i + d]? = some y)
    (done : (y, i + d) ∈ st.done) : (x, i) ∈ st.done := by
  induction d generalizing y with
  | zero =>
      obtain rfl := Option.some.inj (at_x.symm.trans at_y)
      exact done
  | succ d ih =>
      obtain ⟨less, eq⟩ := List.getElem?_eq_some_iff.mp at_y
      have at_z : l[i + d]? = some l[i + d] := List.getElem?_eq_getElem (by omega)
      refine ih at_z ?_
      have whole {j : Nat} {a : α} (at_j : l[j]? = some a) : (l ++ more)[j]? = some a := by
        rw [List.getElem?_append_left (List.getElem?_eq_some_iff.mp at_j).1, at_j]
      refine inv.ordered (pair_zipIdx (whole at_z) (whole at_y) (Nat.lt_succ_self _)) (relays.keeps at_z at_y ?_) done
      rw [← eq]
      exact (List.isChain_iff_getElem.mp near) (i + d) less

end Relays

section Relabelled

variable {α β σ κ : Type*} [DecidableEq σ] {net : Net α σ κ} {net' : Net β σ κ} {f : α → β} {st : State α σ κ}

/-- Other instructions for the same stages, with the same tokens. -/
structure Relabels (net : Net α σ κ) (net' : Net β σ κ) (f : α → β) : Prop where
  stage : ∀ a, net'.stage (f a) = net.stage a
  pops : ∀ a, net'.pops (f a) = net.pops a
  pushes : ∀ a, net'.pushes (f a) = net.pushes a

def State.map (f : α → β) (st : State α σ κ) : State β σ κ where
  queue s := (st.queue s).map (Prod.map f id)
  tokens := st.tokens
  done := st.done.map (Prod.map f id)

theorem startWith_map (relabels : Relabels net net' f) (tokens : κ → Nat) (program : List α) :
    startWith net' tokens (program.map f) = (startWith net tokens program).map f := by
  have queue (s : σ) : ofStage net' s (program.map f).zipIdx = (ofStage net s program.zipIdx).map (Prod.map f id) := by
    rw [List.zipIdx_map, ofStage, ofStage, List.filter_map]
    refine congrArg (List.map _) (List.filter_congr fun x _ => ?_)
    change decide (net'.stage (f x.1) = s) = _
    rw [relabels.stage]
  rw [startWith, State.map]
  exact congrArg (fun queue => State.mk queue tokens []) (funext queue)

theorem State.map_ran (s : σ) (x : α × Nat) (rest : List (α × Nat)) (tokens : κ → Nat) :
    (State.mk (Function.update st.queue s rest) tokens (st.done ++ [x])).map f =
      ⟨Function.update (st.map f).queue s (rest.map (Prod.map f id)), tokens, (st.map f).done ++ [Prod.map f id x]⟩ := by
  rw [State.map, List.map_append]
  exact congrArg (fun queue => State.mk queue tokens _) (Function.comp_update (List.map (Prod.map f id)) st.queue s rest)

theorem Step.map (relabels : Relabels net net' f) {st' : State α σ κ} (step : Step net st st') :
    Step net' (st.map f) (st'.map f) := by
  obtain ⟨s, x, rest, next, ready⟩ := step
  have queue : (st.map f).queue s = Prod.map f id x :: rest.map (Prod.map f id) := congrArg (List.map (Prod.map f id)) next
  have result := @Step.run _ _ _ _ net' (st.map f) s _ _ queue (by rwa [Prod.map_fst, relabels.pops])
  rw [Prod.map_fst, relabels.pops, relabels.pushes] at result
  rw [State.map_ran]
  exact result

/-- A step of the other instructions is one of these. -/
theorem Step.of_map (relabels : Relabels net net' f) {st' : State β σ κ} (step : Step net' (st.map f) st') :
    ∃ st₀, Step net st st₀ ∧ st' = st₀.map f := by
  obtain ⟨s, y, rest', next, ready⟩ := step
  obtain ⟨x, rest, queue, rfl, rfl⟩ := List.map_eq_cons_iff.mp next
  rw [Prod.map_fst, relabels.pops] at ready
  refine ⟨_, .run s x rest queue ready, ?_⟩
  rw [State.map_ran, Prod.map_fst, relabels.pops, relabels.pushes]
  rfl

theorem reach_map (relabels : Relabels net net' f) {st' : State α σ κ} (reach : Relation.ReflTransGen (Step net) st st') :
    Relation.ReflTransGen (Step net') (st.map f) (st'.map f) := by
  induction reach with
  | refl => exact .refl
  | tail _ step ih => exact ih.tail (step.map relabels)

theorem reach_of_map (relabels : Relabels net net' f) {st' : State β σ κ}
    (reach : Relation.ReflTransGen (Step net') (st.map f) st') :
    ∃ st₀, Relation.ReflTransGen (Step net) st st₀ ∧ st' = st₀.map f := by
  induction reach with
  | refl => exact ⟨st, .refl, rfl⟩
  | tail _ step ih =>
      obtain ⟨st₀, before, rfl⟩ := ih
      obtain ⟨st₁, step₁, rfl⟩ := step.of_map relabels
      exact ⟨st₁, before.tail step₁, rfl⟩

end Relabelled

end InOrderStages
