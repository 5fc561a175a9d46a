import Mathlib

/-! Stages that each run their own instructions in order, with queues of tokens between them. A
program that finds its tokens when it runs in its own order finds them under every schedule. -/

namespace InOrderStages

/-- Which stage runs an instruction, and the tokens it takes before and gives after it. A queue has
one stage on either side. -/
structure Net (α σ κ : Type*) where
  stage : α → σ
  pops : α → κ → Nat
  pushes : α → κ → Nat
  consumer : κ → σ
  producer : κ → σ
  pops_consumer : ∀ a k, pops a k ≠ 0 → stage a = consumer k
  pushes_producer : ∀ a k, pushes a k ≠ 0 → stage a = producer k

/-- The instructions that wait, with their places in the program, and those that ran. -/
structure State (α σ κ : Type*) where
  queue : σ → List (α × Nat)
  tokens : κ → Nat
  done : List (α × Nat)

section

variable {α σ κ : Type*} [DecidableEq σ] (net : Net α σ κ)

/-- Any stage whose next instruction has its tokens may go on. -/
inductive Step (st : State α σ κ) : State α σ κ → Prop
  | run (s : σ) (x : α × Nat) (rest : List (α × Nat)) (next : st.queue s = x :: rest)
      (ready : ∀ k, net.pops x.1 k ≤ st.tokens k) :
      Step st
        { queue := Function.update st.queue s rest
          tokens := fun k => st.tokens k - net.pops x.1 k + net.pushes x.1 k
          done := st.done ++ [x] }

def ofStage (s : σ) (l : List (α × Nat)) : List (α × Nat) := l.filter fun x => net.stage x.1 = s

def startWith (tokens : κ → Nat) (program : List α) : State α σ κ where
  queue s := ofStage net s program.zipIdx
  tokens := tokens
  done := []

def start (program : List α) : State α σ κ := startWith net (fun _ => 0) program

def Reachable (program : List α) : State α σ κ → Prop :=
  Relation.ReflTransGen (Step net) (start net program)

def total (f : α → κ → Nat) (l : List (α × Nat)) (k : κ) : Nat := (l.map fun x => f x.1 k).sum

/-- The tokens of one queue after the effects of a list, in its order. -/
def tally : Nat → List (Nat × Nat) → Option Nat
  | t, [] => some t
  | t, (pop, push) :: rest => if pop ≤ t then tally (t - pop + push) rest else none

def effect (k : κ) (a : α) : Nat × Nat := (net.pops a k, net.pushes a k)

/-- In its own order the program finds its tokens, and leaves none. -/
def Balanced (program : List α) : Prop := ∀ k, tally 0 (program.map (effect net k)) = some 0

/-- The same from the tokens `first` to the tokens `left`. -/
def Conveys (first : κ → Nat) (program : List α) (left : κ → Nat) : Prop :=
  ∀ k, tally (first k) (program.map (effect net k)) = some (left k)

theorem tally_append (t : Nat) (l l' : List (Nat × Nat)) :
    tally t (l ++ l') = (tally t l).bind fun t' => tally t' l' := by
  induction l generalizing t with
  | nil => rfl
  | cons e l ih =>
      simp only [List.cons_append, tally]
      split
      · exact ih _
      · rfl

theorem tally_sum {t t' : Nat} {l : List (Nat × Nat)} (result : tally t l = some t') :
    t' + (l.map Prod.fst).sum = t + (l.map Prod.snd).sum := by
  induction l generalizing t with
  | nil =>
      cases result
      rfl
  | cons e l ih =>
      rw [tally] at result
      split at result
      · have rest := ih result
        simp only [List.map_cons, List.sum_cons]
        omega
      · cases result

/-- What an instruction takes was given before it. -/
theorem tally_enough {t t' : Nat} {before after : List (Nat × Nat)} {e : Nat × Nat}
    (result : tally t (before ++ e :: after) = some t') :
    (before.map Prod.fst).sum + e.1 ≤ t + (before.map Prod.snd).sum := by
  rw [tally_append, Option.bind_eq_some_iff] at result
  obtain ⟨u, first, rest⟩ := result
  have sum := tally_sum first
  rw [tally] at rest
  split at rest
  · omega
  · cases rest

end

section Totals

variable {α σ κ : Type*} (f : α → κ → Nat) (k : κ)

theorem total_append (l l' : List (α × Nat)) : total f (l ++ l') k = total f l k + total f l' k := by
  simp [total]

theorem total_cons (x : α × Nat) (l : List (α × Nat)) : total f (x :: l) k = f x.1 k + total f l k := by
  simp [total]

theorem total_le_of_subset {l l' : List (α × Nat)} (nodup : l.Nodup) (sub : l ⊆ l') :
    total f l k ≤ total f l' k := by
  obtain ⟨m, perm, sublist⟩ := List.subperm_of_subset nodup sub
  rw [total, ← (perm.map fun x => f x.1 k).sum_eq]
  exact (sublist.map fun x => f x.1 k).sum_le_sum fun _ _ => Nat.zero_le _

end Totals

section Lists

variable {β : Type*}

/-- The first of a list that is not in another one. -/
theorem first_missing {l d : List β} (missing : ∃ x ∈ l, x ∉ d) :
    ∃ before x after, l = before ++ x :: after ∧ x ∉ d ∧ before ⊆ d := by
  induction l with
  | nil => simp at missing
  | cons y l ih =>
      by_cases here : y ∈ d
      · obtain ⟨before, x, after, eq, out, sub⟩ := ih (by simpa [here] using missing)
        exact ⟨y :: before, x, after, by rw [eq, List.cons_append], out, by simpa [here] using sub⟩
      · exact ⟨[], y, l, rfl, here, by simp⟩

theorem cut_after {before after done rest : List β} {x : β} (eq : before ++ x :: after = done ++ rest)
    (out : x ∉ done) : ∃ m, before = done ++ m ∧ rest = m ++ x :: after := by
  obtain ⟨m, rfl, tail⟩ | ⟨m, rfl, tail⟩ := List.append_eq_append_iff.mp eq
  · cases m with
    | nil => exact ⟨[], by simp, tail.symm⟩
    | cons y m =>
        rw [List.cons_append, List.cons.injEq] at tail
        exact absurd (by simp [tail.1]) out
  · exact ⟨m, rfl, tail⟩

theorem cut_before {before after done rest : List β} {x : β} (eq : before ++ x :: after = done ++ rest)
    (once : x ∉ before) (ran : x ∈ done) : ∃ m, done = before ++ x :: m := by
  obtain ⟨m, rfl, tail⟩ | ⟨m, rfl, -⟩ := List.append_eq_append_iff.mp eq
  · cases m with
    | nil => exact absurd (by simpa using ran) once
    | cons y m =>
        rw [List.cons_append, List.cons.injEq] at tail
        exact ⟨m, by rw [tail.1]⟩
  · exact absurd (List.mem_append_left _ ran) once

end Lists

section Programs

variable {α σ κ : Type*} {net : Net α σ κ} {program : List α} {first left : κ → Nat}

theorem nodup_zipIdx (l : List α) : l.zipIdx.Nodup := by
  have numbers : (l.zipIdx.map Prod.snd).Nodup := by
    rw [List.zipIdx_map_snd]
    exact List.nodup_range'
  exact numbers.of_map _

/-- In the order of the program, what is taken up to an instruction was given before it. -/
theorem Conveys.enough (conveys : Conveys net first program left) {before after : List (α × Nat)} {x : α × Nat}
    (cut : program.zipIdx = before ++ x :: after) (k : κ) :
    total net.pops before k + net.pops x.1 k ≤ first k + total net.pushes before k := by
  have result := conveys k
  rw [← List.zipIdx_map_fst 0 program, cut, List.map_map, List.map_append, List.map_cons] at result
  have bound := tally_enough result
  rw [List.map_map, List.map_map] at bound
  exact bound

theorem Conveys.sums (conveys : Conveys net first program left) (k : κ) :
    left k + total net.pops program.zipIdx k = first k + total net.pushes program.zipIdx k := by
  have sum := tally_sum (conveys k)
  rw [← List.zipIdx_map_fst 0 program, List.map_map, List.map_map, List.map_map, List.map_map] at sum
  exact sum

theorem Balanced.conveys (balanced : Balanced net program) : Conveys net (fun _ => 0) program fun _ => 0 := balanced

/-- The tokens that a first part of the program takes and gives, by its length. -/
def takenBy (net : Net α σ κ) (program : List α) (n : Nat) (k : κ) : Nat := ((program.take n).map (net.pops · k)).sum

def givenBy (net : Net α σ κ) (program : List α) (n : Nat) (k : κ) : Nat := ((program.take n).map (net.pushes · k)).sum

theorem sum_take_succ (f : α → Nat) {program : List α} {i : Nat} {a : α} (at_i : program[i]? = some a) :
    ((program.take (i + 1)).map f).sum = ((program.take i).map f).sum + f a := by
  rw [List.take_add_one, at_i]
  simp

theorem sum_take_le (f : α → Nat) (program : List α) {i j : Nat} (le : i ≤ j) :
    ((program.take i).map f).sum ≤ ((program.take j).map f).sum :=
  ((List.take_sublist_take_left le).map f).sum_le_sum fun _ _ => Nat.zero_le _

theorem cut_at {i : Nat} {a : α} (at_i : program[i]? = some a) :
    program.zipIdx = program.zipIdx.take i ++ (a, i) :: program.zipIdx.drop (i + 1) := by
  have here : program.zipIdx[i]? = some (a, i) := by simp [List.getElem?_zipIdx, at_i]
  obtain ⟨bound, eq⟩ := List.getElem?_eq_some_iff.mp here
  rw [← eq, List.getElem_cons_drop, List.take_append_drop]

theorem total_take (f : α → κ → Nat) (n : Nat) (k : κ) :
    total f (program.zipIdx.take n) k = ((program.take n).map (f · k)).sum := by
  rw [← List.zipIdx_map_fst 0 program, ← List.map_take, List.map_map, List.zipIdx_map_fst]
  rfl

end Programs

section Invariant

variable {α σ κ : Type*} [DecidableEq σ] {net : Net α σ κ} {program : List α} {first left : κ → Nat}
variable {st st' : State α σ κ}

/-- Every stage has run a first part of its instructions, and the queues hold what was given and not taken. -/
structure Inv (net : Net α σ κ) (first : κ → Nat) (program : List α) (st : State α σ κ) : Prop where
  nodup : st.done.Nodup
  parts : ∀ s, ofStage net s program.zipIdx = ofStage net s st.done ++ st.queue s
  tokens : ∀ k, st.tokens k + total net.pops st.done k = first k + total net.pushes st.done k

theorem ofStage_append (s : σ) (l l' : List (α × Nat)) :
    ofStage net s (l ++ l') = ofStage net s l ++ ofStage net s l' := List.filter_append _ _

theorem ofStage_cons_self (x : α × Nat) (l : List (α × Nat)) :
    ofStage net (net.stage x.1) (x :: l) = x :: ofStage net (net.stage x.1) l := by
  simp [ofStage]

theorem ofStage_cons_ne {s : σ} (x : α × Nat) (l : List (α × Nat)) (other : net.stage x.1 ≠ s) :
    ofStage net s (x :: l) = ofStage net s l := List.filter_cons_of_neg (by simpa using other)

theorem mem_ofStage {s : σ} {x : α × Nat} {l : List (α × Nat)} :
    x ∈ ofStage net s l ↔ x ∈ l ∧ net.stage x.1 = s := by
  simp [ofStage]

theorem mem_ofStage_self {x : α × Nat} {l : List (α × Nat)} : x ∈ ofStage net (net.stage x.1) l ↔ x ∈ l := by
  simp [ofStage]

theorem inv_start : Inv net first program (startWith net first program) :=
  ⟨List.nodup_nil, fun _ => rfl, fun _ => rfl⟩

theorem inv_step (inv : Inv net first program st) (step : Step net st st') : Inv net first program st' := by
  obtain ⟨s, x, rest, next, ready⟩ := step
  have here := inv.parts s
  rw [next] at here
  have stage : net.stage x.1 = s := by
    have mem : x ∈ ofStage net s program.zipIdx := by simp [here]
    exact (mem_ofStage.mp mem).2
  have new : x ∉ st.done := by
    intro old
    have unique := (nodup_zipIdx program).filter fun y => net.stage y.1 = s
    rw [show program.zipIdx.filter _ = _ from here, List.nodup_append] at unique
    exact unique.2.2 x (mem_ofStage.mpr ⟨old, stage⟩) x List.mem_cons_self rfl
  refine ⟨inv.nodup.append (List.nodup_singleton x) (by simpa using new), fun s' => ?_, fun k => ?_⟩
  · by_cases same : s' = s
    · subst same stage
      change _ = ofStage net _ (st.done ++ [x]) ++ Function.update st.queue _ rest _
      rw [here, ofStage_append, ofStage_cons_self, Function.update_self, List.append_assoc]
      rfl
    · have other : net.stage x.1 ≠ s' := fun eq => same (eq.symm.trans stage)
      change _ = ofStage net _ (st.done ++ [x]) ++ Function.update st.queue _ rest _
      rw [inv.parts s', ofStage_append, ofStage_cons_ne x [] other, Function.update_of_ne same]
      exact congrArg (· ++ st.queue s') (List.append_nil _).symm
  · have sum := inv.tokens k
    have enough := ready k
    change st.tokens k - net.pops x.1 k + net.pushes x.1 k + total net.pops (st.done ++ [x]) k =
      first k + total net.pushes (st.done ++ [x]) k
    rw [total_append, total_append, total_cons, total_cons]
    change _ + (_ + (_ + 0)) = _ + (_ + (_ + 0))
    omega

theorem inv_of_reach (reach : Relation.ReflTransGen (Step net) (startWith net first program) st) :
    Inv net first program st := by
  induction reach with
  | refl => exact inv_start
  | tail _ step ih => exact inv_step ih step

theorem Reachable.inv (reach : Reachable net program st) : Inv net (fun _ => 0) program st := inv_of_reach reach

/-- Only the stage at that end of the queue counts. -/
theorem total_ofStage {f : α → κ → Nat} {k : κ} {s : σ} (only : ∀ a, f a k ≠ 0 → net.stage a = s)
    (l : List (α × Nat)) : total f (ofStage net s l) k = total f l k := by
  induction l with
  | nil => rfl
  | cons x l ih =>
      by_cases here : net.stage x.1 = s
      · rw [ofStage, List.filter_cons_of_pos (by simpa using here), total_cons, total_cons, ← ih]
        rfl
      · have none : f x.1 k = 0 := by
          by_contra some
          exact here (only x.1 some)
        rw [ofStage, List.filter_cons_of_neg (by simpa using here), total_cons, none, zero_add, ← ih]
        rfl

theorem Inv.mem_done (inv : Inv net first program st) {x : α × Nat} (mem : x ∈ st.done) : x ∈ program.zipIdx := by
  have part : x ∈ ofStage net (net.stage x.1) program.zipIdx := by
    rw [inv.parts]
    exact List.mem_append_left _ (mem_ofStage_self.mpr mem)
  exact mem_ofStage_self.mp part

/-- The instruction that comes first among those that wait can run. -/
theorem progress (conveys : Conveys net first program left) (inv : Inv net first program st)
    (missing : ∃ x ∈ program.zipIdx, x ∉ st.done) : ∃ st', Step net st st' := by
  obtain ⟨before, x, after, cut, out, sub⟩ := first_missing missing
  have nodup : before.Nodup := ((cut ▸ nodup_zipIdx program).of_append_left)
  have parts := inv.parts (net.stage x.1)
  rw [cut, ofStage_append, ofStage_cons_self] at parts
  obtain ⟨m, same, next⟩ := cut_after parts fun mem => out (mem_ofStage_self.mp mem)
  have none : m = [] := by
    refine List.eq_nil_iff_forall_not_mem.mpr fun y mem => ?_
    have early : y ∈ ofStage net (net.stage x.1) before := same ▸ List.mem_append_right _ mem
    have unique := nodup.filter fun y => net.stage y.1 = net.stage x.1
    rw [show before.filter _ = _ from same, List.nodup_append] at unique
    exact unique.2.2 y (mem_ofStage.mpr ⟨sub (mem_ofStage.mp early).1, (mem_ofStage.mp early).2⟩) y mem rfl
  rw [none, List.append_nil] at same
  rw [none, List.nil_append] at next
  refine ⟨_, .run (net.stage x.1) x _ next fun k => ?_⟩
  by_cases takes : net.pops x.1 k = 0
  · omega
  · have only := net.pops_consumer x.1 k takes
    have ends : ∀ a, net.pops a k ≠ 0 → net.stage a = net.stage x.1 :=
      fun a some => (net.pops_consumer a k some).trans only.symm
    have taken : total net.pops st.done k = total net.pops before k := by
      rw [← total_ofStage ends, ← same, total_ofStage ends]
    have given := total_le_of_subset net.pushes k nodup sub
    have enough := conveys.enough cut k
    have sum := inv.tokens k
    omega

/-- Who took tokens that were not given before `y` ran after `y`. -/
theorem Inv.ran (inv : Inv net first program st) {x y : α × Nat} {k : κ} {before after before' after' : List (α × Nat)}
    (cut : program.zipIdx = before ++ x :: after) (cut' : program.zipIdx = before' ++ y :: after')
    (taker : net.stage x.1 = net.consumer k) (giver : net.stage y.1 = net.producer k)
    (more : first k + total net.pushes before' k < total net.pops before k + net.pops x.1 k)
    (done : x ∈ st.done) : y ∈ st.done := by
  by_contra out
  have takes : ∀ a, net.pops a k ≠ 0 → net.stage a = net.stage x.1 :=
    fun a some => (net.pops_consumer a k some).trans taker.symm
  have gives : ∀ a, net.pushes a k ≠ 0 → net.stage a = net.stage y.1 :=
    fun a some => (net.pushes_producer a k some).trans giver.symm
  have taken : total net.pops before k + net.pops x.1 k ≤ total net.pops st.done k := by
    have unique : (before ++ x :: after).Nodup := cut ▸ nodup_zipIdx program
    have once : x ∉ before := fun mem => (List.nodup_append.mp unique).2.2 x mem x List.mem_cons_self rfl
    have parts := inv.parts (net.stage x.1)
    rw [cut, ofStage_append, ofStage_cons_self] at parts
    obtain ⟨m, split⟩ := cut_before parts (fun mem => once (mem_ofStage_self.mp mem)) (mem_ofStage_self.mpr done)
    rw [← total_ofStage takes before, ← total_ofStage takes st.done, split, total_append, total_cons]
    omega
  have given : total net.pushes st.done k ≤ total net.pushes before' k := by
    have parts := inv.parts (net.stage y.1)
    rw [cut', ofStage_append, ofStage_cons_self] at parts
    obtain ⟨m, split, -⟩ := cut_after parts fun mem => out (mem_ofStage_self.mp mem)
    rw [← total_ofStage gives before', ← total_ofStage gives st.done, split, total_append]
    omega
  have sum := inv.tokens k
  omega

/-- The same by the places of the two in the program. -/
theorem Inv.ran_at (inv : Inv net (fun _ => 0) program st) {a b : α} {i j : Nat} {k : κ} (at_j : program[j]? = some a)
    (at_i : program[i]? = some b) (taker : net.stage a = net.consumer k) (giver : net.stage b = net.producer k)
    (more : givenBy net program i k < takenBy net program (j + 1) k) (done : (a, j) ∈ st.done) : (b, i) ∈ st.done := by
  refine inv.ran (cut_at at_j) (cut_at at_i) taker giver ?_ done
  rw [zero_add, total_take, total_take]
  rwa [givenBy, takenBy, sum_take_succ _ at_j] at more

theorem Inv.length_le (inv : Inv net first program st) : st.done.length ≤ program.length := by
  have bound := (List.subperm_of_subset inv.nodup fun _ mem => inv.mem_done mem).length_le
  rwa [List.length_zipIdx] at bound

theorem Step.length (step : Step net st st') : st'.done.length = st.done.length + 1 := by
  obtain ⟨s, x, rest, next, ready⟩ := step
  exact List.length_append

/-- Everything ran, and no token is left. -/
structure Complete (program : List α) (st : State α σ κ) : Prop where
  ran : ∀ x ∈ program.zipIdx, x ∈ st.done
  nothingWaits : ∀ s, st.queue s = []
  noTokens : ∀ k, st.tokens k = 0

/-- Everything ran, and these tokens are left. -/
structure Finished (program : List α) (left : κ → Nat) (st : State α σ κ) : Prop where
  ran : ∀ x ∈ program.zipIdx, x ∈ st.done
  nothingWaits : ∀ s, st.queue s = []
  tokens : ∀ k, st.tokens k = left k

theorem Inv.finished (inv : Inv net first program st) (conveys : Conveys net first program left)
    (ran : ∀ x ∈ program.zipIdx, x ∈ st.done) : Finished program left st := by
  refine ⟨ran, fun s => ?_, fun k => ?_⟩
  · refine List.eq_nil_iff_forall_not_mem.mpr fun x waits => ?_
    have unique := (nodup_zipIdx program).filter fun y => net.stage y.1 = s
    rw [show program.zipIdx.filter _ = _ from inv.parts s, List.nodup_append] at unique
    have here : x ∈ ofStage net s program.zipIdx := inv.parts s ▸ List.mem_append_right _ waits
    have old := mem_ofStage.mpr ⟨ran x (mem_ofStage.mp here).1, (mem_ofStage.mp here).2⟩
    exact unique.2.2 x old x waits rfl
  · have given := total_le_of_subset net.pushes k inv.nodup fun _ mem => inv.mem_done mem
    have given' := total_le_of_subset net.pushes k (nodup_zipIdx program) ran
    have taken := total_le_of_subset net.pops k (nodup_zipIdx program) ran
    have taken' := total_le_of_subset net.pops k inv.nodup fun _ mem => inv.mem_done mem
    have sums := conveys.sums k
    have sum := inv.tokens k
    omega

theorem Inv.ran_of_empty (inv : Inv net first program st) (empty : ∀ s : σ, st.queue s = []) :
    ∀ x ∈ program.zipIdx, x ∈ st.done := by
  intro x mem
  have parts := inv.parts (net.stage x.1)
  rw [empty, List.append_nil] at parts
  have here : x ∈ ofStage net (net.stage x.1) program.zipIdx := mem_ofStage_self.mpr mem
  rw [parts] at here
  exact mem_ofStage_self.mp here

end Invariant

section Schedules

variable {α σ κ : Type*} [DecidableEq σ] {net : Net α σ κ} {program : List α} {first left : κ → Nat}
variable {st : State α σ κ}

/-- No schedule goes on forever, and one stops only when all is done. -/
structure Executes (net : Net α σ κ) (program : List α) : Prop where
  ends : ¬∃ run : Nat → State α σ κ, run 0 = start net program ∧ ∀ t, Step net (run t) (run (t + 1))
  completes : ∀ st, Reachable net program st → (∀ st', ¬Step net st st') → Complete program st

theorem not_forever {run : Nat → State α σ κ} (start : run 0 = startWith net first program)
    (steps : ∀ t, Step net (run t) (run (t + 1))) : False := by
  have reach : ∀ t, Relation.ReflTransGen (Step net) (startWith net first program) (run t) ∧
      (run t).done.length = t := by
    intro t
    induction t with
    | zero =>
        rw [start]
        exact ⟨.refl, rfl⟩
    | succ t ih => exact ⟨ih.1.tail (steps t), by rw [(steps t).length, ih.2]⟩
  have last := reach (program.length + 1)
  have bound := (inv_of_reach last.1).length_le
  omega

theorem Conveys.finished_of_stuck (conveys : Conveys net first program left)
    (reach : Relation.ReflTransGen (Step net) (startWith net first program) st) (stuck : ∀ st', ¬Step net st st') :
    Finished program left st := by
  refine (inv_of_reach reach).finished conveys fun x mem => ?_
  by_contra out
  obtain ⟨st', step⟩ := progress conveys (inv_of_reach reach) ⟨x, mem, out⟩
  exact stuck st' step

/-- Some schedule comes to the end. -/
theorem Conveys.exists_finished (conveys : Conveys net first program left) :
    ∃ st, Relation.ReflTransGen (Step net) (startWith net first program) st ∧ Finished program left st := by
  have go : ∀ (n : Nat) (st : State α σ κ), Relation.ReflTransGen (Step net) (startWith net first program) st →
      program.length ≤ st.done.length + n →
      ∃ st, Relation.ReflTransGen (Step net) (startWith net first program) st ∧ Finished program left st := by
    intro n
    induction n with
    | zero =>
        intro st reach long
        by_cases stuck : ∀ st', ¬Step net st st'
        · exact ⟨st, reach, conveys.finished_of_stuck reach stuck⟩
        · obtain ⟨st', step⟩ := not_forall_not.mp stuck
          have bound := (inv_of_reach (reach.tail step)).length_le
          have more := step.length
          omega
    | succ n ih =>
        intro st reach long
        by_cases stuck : ∀ st', ¬Step net st st'
        · exact ⟨st, reach, conveys.finished_of_stuck reach stuck⟩
        · obtain ⟨st', step⟩ := not_forall_not.mp stuck
          have more := step.length
          exact ih st' (reach.tail step) (by omega)
  exact go program.length _ .refl (by omega)

theorem Balanced.executes (balanced : Balanced net program) : Executes net program where
  ends := fun ⟨_, start, steps⟩ => not_forever start steps
  completes _ reach stuck :=
    have finished := balanced.conveys.finished_of_stuck reach stuck
    ⟨finished.ran, finished.nothingWaits, finished.tokens⟩

end Schedules

end InOrderStages
