import AlkaliFw.TiledAddition
import AlkaliFw.VtaRuntime

/-! The device of `sim_driver.cc` with its micro-op memory: `RunALULoop` takes the indices from the
micro-ops that it finds there. When every ALU instruction finds those of its kernel, the streams do what
they do on the device that has the kernels with the instructions. -/

namespace AlkaliFw
open InOrderStages

/-- The memories, and the buffer in DRAM that the micro-ops are loaded from. -/
structure UopMemory where
  mem : DeviceMemory
  uop : Nat → VTAUop
  fpgaBuff : Nat → VTAUop

namespace UopMemory

/-- `RunLoad`; `none` when the `CHECK` fails. Loads of the other memories are left out. -/
def runLoad (d : UopMemory) (m : MemInsn) : Option UopMemory :=
  if m.xSize = 0 then some d
  else if m.memoryType = .uop then
    if m.sramEnd ≤ vtaUopBuffDepth then some { d with uop := loadUops d.fpgaBuff d.uop m } else none
  else if m.memoryType = .acc then
    if m.sramEnd ≤ vtaAccBuffDepth then some { d with mem := d.mem.loadAcc m } else none
  else some d

/-- The micro-op `k` in one round of `RunALULoop`; `none` when a `BeginPtr` fails. -/
def aluStep (d : UopMemory) (kernel : UopKernel) (x k : Nat) : Option UopMemory :=
  let uop := d.uop k
  if k < vtaUopBuffDepth ∧ uop.dstIdx + x * kernel.dstFactor < vtaAccBuffDepth ∧
      uop.srcIdx + x * kernel.srcFactor < vtaAccBuffDepth then
    some { d with mem := d.mem.aluUnit { kernel with dstIndex := uop.dstIdx, srcIndex := uop.srcIdx } x }
  else none

/-- Of the kernel only what the instruction holds is read, not its indices. -/
def runALU (d : UopMemory) (uopBgn uopEnd : Nat) (kernel : UopKernel) : Option UopMemory :=
  (List.range kernel.extent).foldlM
    (fun d x => (List.range' uopBgn (uopEnd - uopBgn)).foldlM (fun d k => d.aluStep kernel x k) d) d

def runInsn (d : UopMemory) (insn : Insn) : Option UopMemory :=
  match insn.operation with
  | .load m => d.runLoad m
  | .store m => some { d with mem := d.mem.runStore m }
  | .alu uopBgn uopEnd kernel => d.runALU uopBgn uopEnd kernel
  | .finish => some d

def runInsns (d : UopMemory) (done : List (Insn × Nat)) : Option UopMemory := done.foldlM (fun d x => d.runInsn x.1) d

/-- The copy of `ReadBarrier`. -/
def readBarrier (d : UopMemory) (image : List VTAUop) : UopMemory := { d with fpgaBuff := copyFromHost d.fpgaBuff image }

end UopMemory

/-- What may come of streams with their micro-ops, under any schedule. -/
inductive UopDeviceRuns : (DepQueue → Nat) → List (List Insn × List VTAUop) → UopMemory → DeviceResult → Prop
  | none (tokens : DepQueue → Nat) (d : UopMemory) : UopDeviceRuns tokens [] d (.done d.mem)
  | next {tokens : DepQueue → Nat} {s : List Insn} {image : List VTAUop} {rest : List (List Insn × List VTAUop)}
      {d d' : UopMemory} {st : State Insn CoreType DepQueue} {result : DeviceResult}
      (reach : Relation.ReflTransGen (Step tlpp) (startWith tlpp tokens s) st) (complete : ∀ core, st.queue core = [])
      (ran : (d.readBarrier image).runInsns st.done = some d') (runs : UopDeviceRuns st.tokens rest d' result) :
      UopDeviceRuns tokens ((s, image) :: rest) d result
  | aborts {tokens : DepQueue → Nat} {s : List Insn} {image : List VTAUop} {rest : List (List Insn × List VTAUop)}
      {d : UopMemory} {st : State Insn CoreType DepQueue}
      (reach : Relation.ReflTransGen (Step tlpp) (startWith tlpp tokens s) st)
      (fails : (d.readBarrier image).runInsns st.done = none) : UopDeviceRuns tokens ((s, image) :: rest) d .aborted
  | stuck {tokens : DepQueue → Nat} {s : List Insn} {image : List VTAUop} {rest : List (List Insn × List VTAUop)}
      {d : UopMemory} {st : State Insn CoreType DepQueue} {core : CoreType}
      (reach : Relation.ReflTransGen (Step tlpp) (startWith tlpp tokens s) st) (stop : ∀ st', ¬Step tlpp st st')
      (waits : st.queue core ≠ []) : UopDeviceRuns tokens ((s, image) :: rest) d .hangs
  | forever {tokens : DepQueue → Nat} {s : List Insn} {image : List VTAUop} {rest : List (List Insn × List VTAUop)}
      {d : UopMemory} (run : Nat → State Insn CoreType DepQueue) (first : run 0 = startWith tlpp tokens s)
      (steps : ∀ t, Step tlpp (run t) (run (t + 1))) : UopDeviceRuns tokens ((s, image) :: rest) d .hangs

section Links

variable {mem : DeviceMemory}

theorem linked_inBounds {o : Operation} : o.linked.InBounds ↔ o.InBounds := by
  cases o with
  | load m =>
      rw [Operation.linked]
      split <;> rfl
  | store | alu | finish => rfl

theorem runInsn_linked (mem : DeviceMemory) (insn : Insn) : mem.runInsn insn.linked = mem.runInsn insn := by
  obtain ⟨operation, pp, pn, up, un⟩ := insn
  cases operation with
  | load m =>
      change mem.runLoad (if m.memoryType = .uop then _ else m) = mem.runLoad m
      by_cases uop : m.memoryType = .uop
      · rw [if_pos uop, runLoad_other (by simp [uop]), runLoad_other (by simp [uop])]
      · rw [if_neg uop]
  | store | alu | finish => rfl

theorem linked_core (insn : Insn) : getCoreType insn.linked = getCoreType insn := by
  obtain ⟨operation, pp, pn, up, un⟩ := insn
  cases operation with
  | load m =>
      change (if (if m.memoryType = .uop then _ else m : MemInsn).memoryType = .inp ∨ _ then CoreType.coreLoad else .coreGemm) = _
      split <;> rfl
  | store | alu | finish => rfl

theorem linked_relabels : Relabels tlpp tlpp Insn.linked where
  stage := linked_core
  pops insn := funext fun k => by
    change depPops insn.linked k = depPops insn k
    simp only [depPops, linked_core]
    rfl
  pushes insn := funext fun k => by
    change depPushes insn.linked k = depPushes insn k
    simp only [depPushes, linked_core]
    rfl

theorem runInsns_linked (mem : DeviceMemory) (done : List (Insn × Nat)) :
    mem.runInsns (done.map (Prod.map Insn.linked id)) = mem.runInsns done := by
  simp only [DeviceMemory.runInsns, List.foldl_map, Prod.map_fst, runInsn_linked]

end Links

section Execution

variable {d : UopMemory} {kernel : UopKernel} {b : Nat}

/-- Where the micro-op of a kernel is found, the kernel runs. -/
theorem runALU_found (found : d.uop b = kernel.uop) (inside : b < vtaUopBuffDepth)
    (bounds : ∀ x < kernel.extent,
      kernel.dstIndex + x * kernel.dstFactor < vtaAccBuffDepth ∧ kernel.srcIndex + x * kernel.srcFactor < vtaAccBuffDepth) :
    d.runALU b (b + 1) kernel = some { d with mem := d.mem.runALU kernel } := by
  have depth : vtaAccBuffDepth = 2 ^ 11 := rfl
  have rounds (l : List Nat) (mem : DeviceMemory) (few : ∀ x ∈ l, x < kernel.extent) :
      l.foldlM (fun d x => (List.range' b (b + 1 - b)).foldlM (fun d k => d.aluStep kernel x k) d) { d with mem } =
        some { d with mem := l.foldl (fun mem x => mem.aluUnit kernel x) mem } := by
    induction l generalizing mem with
    | nil => rfl
    | cons x l ih =>
        obtain ⟨dst, src⟩ := bounds x (few x List.mem_cons_self)
        have small : kernel.uop = ⟨kernel.dstIndex, kernel.srcIndex, 0⟩ := by
          rw [UopKernel.uop, Nat.mod_eq_of_lt (by omega), Nat.mod_eq_of_lt (by omega)]
        have step : UopMemory.aluStep { d with mem } kernel x b = some { d with mem := mem.aluUnit kernel x } := by
          rw [UopMemory.aluStep]
          dsimp only
          rw [found, small]
          exact if_pos ⟨inside, dst, src⟩
        have round : (List.range' b (b + 1 - b)).foldlM (fun d k => UopMemory.aluStep d kernel x k) { d with mem } =
            some { d with mem := mem.aluUnit kernel x } := by
          rw [Nat.add_sub_cancel_left, List.range'_one, List.foldlM_cons, step]
          rfl
        rw [List.foldlM_cons, round, List.foldl_cons]
        exact ih _ fun y mem => few y (List.mem_cons_of_mem x mem)
  exact rounds (List.range kernel.extent) d.mem fun x => List.mem_range.mp

theorem blockLoad_end (b : Nat) : (UopRing.blockLoad b 1).sramEnd = b + 1 := rfl

/-- The load of one micro-op. -/
theorem loadUops_block {buff sram : Nat → VTAUop} (b p : Nat) :
    loadUops buff sram (UopRing.blockLoad b 1) p = if p = b then buff p else sram p := by
  change (if b ≤ p ∧ p < b + 1 then buff (b + (p - b)) else sram p) = _
  by_cases here : p = b
  · subst here
    rw [if_pos (by omega), if_pos rfl, Nat.sub_self, Nat.add_zero]
  · rw [if_neg (by omega), if_neg here]

variable {image : List VTAUop} {l : List Operation} {insn : Insn}

/-- An instruction that finds its micro-op does what it does with the kernel at hand, and what a load has brought stays. -/
theorem runInsn_found (inBounds : insn.operation.InBounds) (fetches : Fetches image l insn.operation)
    (loaded : ∀ b, Operation.load (UopRing.blockLoad b 1) ∈ l → d.uop b = d.fpgaBuff b)
    (copied : ∀ b u, image[b]? = some u → d.fpgaBuff b = u) :
    ∃ d', d.runInsn insn = some d' ∧ d'.mem = d.mem.runInsn insn ∧ d'.fpgaBuff = d.fpgaBuff ∧
      ∀ b, d'.uop b = if insn.operation = .load (UopRing.blockLoad b 1) then d.fpgaBuff b else d.uop b := by
  rw [UopMemory.runInsn, DeviceMemory.runInsn]
  cases operation : insn.operation with
  | load m =>
      rw [operation] at inBounds fetches
      dsimp only
      by_cases none : m.xSize = 0
      · refine ⟨d, if_pos none, (if_pos none).symm, rfl, fun b => (if_neg fun same => ?_).symm⟩
        rw [Operation.load.inj same] at none
        cases none
      have small := inBounds.resolve_left none
      by_cases uop : m.memoryType = .uop
      · obtain ⟨b, rfl⟩ := (fetches uop).resolve_left none
        refine ⟨{ d with uop := loadUops d.fpgaBuff d.uop (UopRing.blockLoad b 1) }, ?_, (runLoad_other (by simp [uop])).symm, rfl,
          fun p => ?_⟩
        · rw [UopMemory.runLoad, if_neg none, if_pos uop]
          exact if_pos small
        · change loadUops _ _ _ p = _
          rw [loadUops_block]
          by_cases here : p = b
          · rw [if_pos here, if_pos (by rw [here])]
          · rw [if_neg here, if_neg fun same => here ?_]
            have base := congrArg MemInsn.sramBase (Operation.load.inj same)
            exact base.symm
      · have other (b : Nat) : ¬Operation.load m = .load (UopRing.blockLoad b 1) := fun same =>
          uop (by rw [Operation.load.inj same]; rfl)
        rw [if_neg uop] at small
        rw [UopMemory.runLoad, DeviceMemory.runLoad, if_neg none, if_neg uop, if_neg none]
        by_cases acc : m.memoryType = .acc
        · rw [if_pos acc, if_pos acc, if_pos small]
          exact ⟨_, rfl, rfl, rfl, fun b => (if_neg (other b)).symm⟩
        · rw [if_neg acc, if_neg acc]
          exact ⟨d, rfl, rfl, rfl, fun b => (if_neg (other b)).symm⟩
  | store m => exact ⟨_, rfl, rfl, rfl, fun b => (if_neg (by simp)).symm⟩
  | alu b e kernel =>
      rw [operation] at inBounds fetches
      obtain ⟨rfl, here, before⟩ := fetches
      have found : d.uop b = kernel.uop := (loaded b before).trans (copied b _ here)
      exact ⟨_, runALU_found found inBounds.1 inBounds.2, rfl, rfl, fun b => (if_neg (by simp)).symm⟩
  | finish => exact ⟨d, rfl, rfl, rfl, fun b => (if_neg (by simp)).symm⟩

/-- What some instructions of a stream have made of the memories. -/
structure Ran (d : UopMemory) (done : List (Insn × Nat)) (d' : UopMemory) : Prop where
  ran : d.runInsns done = some d'
  mem : d'.mem = d.mem.runInsns done
  fpgaBuff : d'.fpgaBuff = d.fpgaBuff
  loaded : ∀ b, Operation.load (UopRing.blockLoad b 1) ∈ done.map (fun x => x.1.operation) → d'.uop b = d.fpgaBuff b

variable {d' : UopMemory} {done : List (Insn × Nat)}

theorem Ran.next (h : Ran d done d') (copied : ∀ b u, image[b]? = some u → d.fpgaBuff b = u) {z : Insn × Nat}
    (inBounds : z.1.operation.InBounds) (fetches : Fetches image (done.map fun x => x.1.operation) z.1.operation) :
    ∃ d'', Ran d (done ++ [z]) d'' := by
  obtain ⟨d'', ran, mem, buff, uop⟩ := runInsn_found (d := d') inBounds fetches (fun b old => by rw [h.loaded b old, h.fpgaBuff])
    (fun b u here => by rw [h.fpgaBuff, copied b u here])
  refine ⟨d'', ?_, ?_, buff.trans h.fpgaBuff, fun b mem' => ?_⟩
  · have front := h.ran
    rw [UopMemory.runInsns] at front ⊢
    rw [List.foldlM_append, front]
    change (d'.runInsn z.1).bind some = _
    rw [ran, Option.bind_some]
  · rw [mem, h.mem, DeviceMemory.runInsns, DeviceMemory.runInsns, List.foldl_append]
    rfl
  · rw [List.map_append, List.mem_append] at mem'
    rw [uop, h.fpgaBuff]
    split
    · rfl
    · rename_i other
      exact h.loaded b (mem'.resolve_right fun last => other (List.mem_singleton.mp last).symm)

theorem Fetches.mono {l' : List Operation} {o : Operation} (fetches : Fetches image l o)
    (sub : ∀ b e kernel, o = .alu b e kernel → Operation.load (UopRing.blockLoad b 1) ∈ l →
      Operation.load (UopRing.blockLoad b 1) ∈ l') : Fetches image l' o := by
  cases o with
  | load m => exact fetches
  | alu b e kernel => exact ⟨fetches.1, fetches.2.1, sub b e kernel rfl fetches.2.2⟩
  | store | finish => trivial

variable {tokens : DepQueue → Nat} {s : List Insn} {st : State Insn CoreType DepQueue}

/-- However the stages run, each ALU instruction finds its micro-op. -/
theorem ran_of_reach (finds : Finds (s.map Insn.operation) image) (inBounds : ∀ insn ∈ s, insn.operation.InBounds)
    (copied : ∀ b u, image[b]? = some u → d.fpgaBuff b = u)
    (reach : Relation.ReflTransGen (Step tlpp) (startWith tlpp tokens s) st) : ∃ d', Ran d st.done d' := by
  induction reach with
  | refl => exact ⟨d, rfl, rfl, rfl, fun b mem => by simp [startWith] at mem⟩
  | @tail st st' reach step ih =>
      obtain ⟨d', ran⟩ := ih
      have inv := inv_of_reach (reach.tail step)
      obtain ⟨core, z, rest, next, ready⟩ := step
      change Inv tlpp tokens s ⟨_, _, st.done ++ [z]⟩ at inv
      have last : z ∈ st.done ++ [z] := List.mem_append_right _ (List.mem_singleton_self z)
      have at_z := List.mem_zipIdx_iff_getElem?.mp (inv.mem_done last)
      have cut := cut_at at_z
      have prefixed : s.map Insn.operation = (s.zipIdx.take z.2).map (fun x => x.1.operation) ++ z.1.operation ::
          (s.zipIdx.drop (z.2 + 1)).map (fun x => x.1.operation) := by
        rw [← List.map_cons (f := fun x : Insn × Nat => x.1.operation) (a := z), ← List.map_append, ← cut, ← List.zipIdx_map_fst 0 s,
          List.map_map, List.zipIdx_map_fst]
        rfl
      refine ran.next copied (inBounds _ (List.mem_of_getElem? at_z)) ((finds _ _ _ prefixed).mono fun b e kernel alu before => ?_)
      obtain ⟨x, mem, load⟩ := List.mem_map.mp before
      have pair : [x, z].Sublist s.zipIdx := by
        rw [cut]
        exact (List.singleton_sublist.mpr mem).append (List.singleton_sublist.mpr List.mem_cons_self)
      have core : tlpp.stage x.1 = tlpp.stage z.1 := by
        change getCoreType x.1 = getCoreType z.1
        rw [getCoreType, getCoreType, load, alu]
        rfl
      have done := inv.same_stage pair core last
      have other : x ≠ z := fun same => by
        rw [same, alu] at load
        cases load
      exact List.mem_map.mpr ⟨x, (List.mem_append.mp done).resolve_right fun here => other (List.mem_singleton.mp here), load⟩

end Execution

section Refinement

variable {tokens : DepQueue → Nat} {d : UopMemory} {result : DeviceResult} {streams : List (List Insn × List VTAUop)}
variable {plain : List (List Insn)} {image : List VTAUop} {s : List Insn}

theorem readBarrier_copied (d : UopMemory) (image : List VTAUop) (b : Nat) (u : VTAUop) (here : image[b]? = some u) :
    (d.readBarrier image).fpgaBuff b = u := by
  change (image[b]?).getD _ = u
  rw [here, Option.getD_some]

theorem linked_all (inBounds : ∀ insn ∈ s, insn.operation.InBounds) :
    ∀ insn ∈ s.map Insn.linked, insn.operation.InBounds := by
  intro insn mem
  obtain ⟨insn', mem', rfl⟩ := List.mem_map.mp mem
  exact linked_inBounds.mpr (inBounds insn' mem')

/-- What the instructions did is what they do with the kernels at hand. -/
theorem ran_linked (finds : Finds ((s.map Insn.linked).map Insn.operation) image) (inBounds : ∀ insn ∈ s, insn.operation.InBounds)
    {st : State Insn CoreType DepQueue} (reach : Relation.ReflTransGen (Step tlpp) (startWith tlpp tokens s) st) :
    ∃ d', (d.readBarrier image).runInsns (st.map Insn.linked).done = some d' ∧ d'.mem = d.mem.runInsns st.done := by
  have reach' := reach_map linked_relabels reach
  rw [← startWith_map linked_relabels] at reach'
  obtain ⟨d', ran⟩ := ran_of_reach finds (linked_all inBounds) (readBarrier_copied d image) reach'
  exact ⟨d', ran.ran, ran.mem.trans (runInsns_linked d.mem st.done)⟩

theorem map_cons_split {s' : List Insn} {rest : List (List Insn × List VTAUop)}
    (links : ((s', image) :: rest).map Prod.fst = plain.map (List.map Insn.linked)) :
    ∃ s ss, plain = s :: ss ∧ s' = s.map Insn.linked ∧ rest.map Prod.fst = ss.map (List.map Insn.linked) := by
  obtain ⟨s, ss, rfl, head, tail⟩ := List.map_eq_cons_iff.mp links.symm
  exact ⟨s, ss, rfl, head.symm, tail.symm⟩

/-- The device that finds its micro-ops does what the one with the kernels at hand may do. -/
theorem uopRuns_refine (run : UopDeviceRuns tokens streams d result)
    (links : streams.map Prod.fst = plain.map (List.map Insn.linked))
    (finds : ∀ x ∈ streams, Finds (x.1.map Insn.operation) x.2)
    (inBounds : ∀ insn ∈ plain.flatten, insn.operation.InBounds) : DeviceRuns tokens plain d.mem result := by
  induction run generalizing plain with
  | none tokens d =>
      obtain rfl := List.map_eq_nil_iff.mp links.symm
      exact .none tokens d.mem
  | @next tokens s image rest d d' st result reach complete ran runs ih =>
      obtain ⟨s, ss, rfl, rfl, links'⟩ := map_cons_split links
      rw [List.flatten_cons] at inBounds
      have inBounds_s (insn : Insn) (mem : insn ∈ s) := inBounds insn (List.mem_append_left _ mem)
      rw [startWith_map linked_relabels] at reach
      obtain ⟨st₀, reach₀, rfl⟩ := reach_of_map linked_relabels reach
      obtain ⟨d'', ran', mem⟩ := ran_linked (d := d) (finds _ List.mem_cons_self) inBounds_s reach₀
      obtain rfl := Option.some.inj (ran'.symm.trans ran)
      refine .next reach₀ (fun core => List.map_eq_nil_iff.mp (complete core))
        (fun x done => inBounds_s _ (mem_of_done reach₀ done)) ?_
      rw [← mem]
      exact ih links' (fun x later => finds x (List.mem_cons_of_mem _ later)) fun insn later =>
        inBounds insn (List.mem_append_right _ later)
  | @aborts tokens s image rest d st reach fails =>
      obtain ⟨s, ss, rfl, rfl, -⟩ := map_cons_split links
      rw [List.flatten_cons] at inBounds
      rw [startWith_map linked_relabels] at reach
      obtain ⟨st₀, reach₀, rfl⟩ := reach_of_map linked_relabels reach
      obtain ⟨d', ran, -⟩ := ran_linked (d := d) (finds _ List.mem_cons_self)
        (fun insn mem => inBounds insn (List.mem_append_left _ mem)) reach₀
      cases ran.symm.trans fails
  | @stuck tokens s image rest d st core reach stop waits =>
      obtain ⟨s, ss, rfl, rfl, -⟩ := map_cons_split links
      rw [startWith_map linked_relabels] at reach
      obtain ⟨st₀, reach₀, rfl⟩ := reach_of_map linked_relabels reach
      exact .stuck reach₀ (fun st' step => stop _ (step.map linked_relabels)) fun empty => waits (List.map_eq_nil_iff.mpr empty)
  | @forever tokens s image rest d run first steps => exact (not_forever first steps).elim

/-- And it does all of that. -/
theorem uopRuns_of_runs {mem : DeviceMemory} (run : DeviceRuns tokens plain mem result) (same : d.mem = mem)
    (links : streams.map Prod.fst = plain.map (List.map Insn.linked))
    (finds : ∀ x ∈ streams, Finds (x.1.map Insn.operation) x.2)
    (inBounds : ∀ insn ∈ plain.flatten, insn.operation.InBounds) : UopDeviceRuns tokens streams d result := by
  induction run generalizing streams d with
  | none tokens mem =>
      obtain rfl := List.map_eq_nil_iff.mp links
      exact same ▸ .none tokens d
  | @next tokens s ss mem st result reach complete _ runs ih =>
      obtain ⟨⟨s', image⟩, rest, rfl, rfl, links'⟩ := List.map_eq_cons_iff.mp links
      rw [List.flatten_cons] at inBounds
      have inBounds_s (insn : Insn) (mem : insn ∈ s) := inBounds insn (List.mem_append_left _ mem)
      obtain ⟨d', ran, mem'⟩ := ran_linked (d := d) (finds _ List.mem_cons_self) inBounds_s reach
      have reach' := reach_map linked_relabels reach
      rw [← startWith_map linked_relabels] at reach'
      refine .next reach' (fun core => List.map_eq_nil_iff.mpr (complete core)) ran ?_
      exact ih (by rw [mem', same]) links' (fun x later => finds x (List.mem_cons_of_mem _ later)) fun insn later =>
        inBounds insn (List.mem_append_right _ later)
  | @aborts tokens s ss mem st x reach ran out =>
      rw [List.flatten_cons] at inBounds
      exact absurd (inBounds _ (List.mem_append_left _ (mem_of_done reach ran))) out
  | @stuck tokens s ss mem st core reach stop waits =>
      obtain ⟨⟨s', image⟩, rest, rfl, rfl, -⟩ := List.map_eq_cons_iff.mp links
      have reach' := reach_map linked_relabels reach
      rw [← startWith_map linked_relabels] at reach'
      refine .stuck reach' (fun st' step => ?_) fun empty => waits (List.map_eq_nil_iff.mp empty)
      obtain ⟨st₀, step₀, -⟩ := step.of_map linked_relabels
      exact stop st₀ step₀
  | @forever tokens s ss mem run first steps => exact (not_forever first steps).elim

/-- A run to the end exists where one exists for the kernels at hand. -/
theorem uopRuns_done {left : DepQueue → Nat} (links : streams.map Prod.fst = plain.map (List.map Insn.linked))
    (finds : ∀ x ∈ streams, Finds (x.1.map Insn.operation) x.2)
    (inBounds : ∀ insn ∈ plain.flatten, insn.operation.InBounds) (conveys : Conveys tlpp tokens plain.flatten left) :
    ∃ mem', UopDeviceRuns tokens streams d (.done mem') := by
  induction streams generalizing plain tokens d with
  | nil => exact ⟨d.mem, .none tokens d⟩
  | cons x rest ih =>
      obtain ⟨s', image⟩ := x
      obtain ⟨s, ss, rfl, rfl, links'⟩ := map_cons_split links
      rw [List.flatten_cons] at conveys inBounds
      have inBounds_s (insn : Insn) (mem : insn ∈ s) := inBounds insn (List.mem_append_left _ mem)
      obtain ⟨mid, here, later⟩ := conveys_append conveys
      obtain ⟨st, reach, finished⟩ := here.exists_finished
      obtain ⟨d', ran, -⟩ := ran_linked (d := d) (finds _ List.mem_cons_self) inBounds_s reach
      obtain ⟨mem', runs⟩ := ih (d := d') links' (fun x mem => finds x (List.mem_cons_of_mem _ mem))
        (fun insn mem => inBounds insn (List.mem_append_right _ mem)) later
      have reach' := reach_map linked_relabels reach
      rw [← startWith_map linked_relabels] at reach'
      refine ⟨mem', .next reach' (fun core => List.map_eq_nil_iff.mpr (finished.nothingWaits core)) ran ?_⟩
      change UopDeviceRuns st.tokens _ _ _
      rwa [funext finished.tokens]

end Refinement

end AlkaliFw
