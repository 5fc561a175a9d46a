import AlkaliFw.DeviceResults
import AlkaliFw.TiledAddition
import AlkaliFw.VtaRuntime

/-! `VTA_DEBUG_FORCE_SERIAL`: `RewriteForceSerial` replaces the tokens that the callers asked for by tokens between
neighbours. -/

namespace AlkaliFw
open InOrderStages

/-- `GetPipelineStageAll`; `FINISH` is never in the buffer that is rewritten. -/
def getPipelineStageAll (insn : Insn) : PipelineStage :=
  if getPipelineStage insn ≠ .kNoneStage then getPipelineStage insn
  else match insn.operation with
    | .load m => getMemPipelineStage m.memoryType
    | _ => .kNoneStage

namespace InsnQueue

/-- One round of the loop: what an instruction gives, and what the next one takes. -/
def serialPair (prev now : Insn) : Insn × Insn :=
  match getPipelineStageAll prev, getPipelineStageAll now with
  | .kLoadStage, .kComputeStage | .kComputeStage, .kStoreStage =>
    ({ prev with pushPrevDep := false, pushNextDep := true }, { now with popPrevDep := true, popNextDep := false })
  | .kComputeStage, .kLoadStage | .kStoreStage, .kComputeStage =>
    ({ prev with pushPrevDep := true, pushNextDep := false }, { now with popPrevDep := false, popNextDep := true })
  | _, _ => ({ prev with pushPrevDep := false, pushNextDep := false }, { now with popPrevDep := false, popNextDep := false })

def serialFrom (prev : Insn) : List Insn → List Insn
  | [] => [prev]
  | now :: rest => (serialPair prev now).1 :: serialFrom (serialPair prev now).2 rest

/-- The loop of `RewriteForceSerial`, on the instructions in their order. -/
def serialInsns : List Insn → List Insn
  | [] => []
  | insn :: rest => serialFrom insn rest

/-- A store that comes last is waited for; the loop looks for it from the second instruction on. -/
def serialStore (q : InsnQueue) : InsnQueue :=
  let other := { q with pendingPopNext := q.pendingPopNext.set .kComputeStage false }
  match q.dramBuffer with
  | last :: before :: older =>
    if getPipelineStageAll last = .kStoreStage then
      let q := { q with dramBuffer := { last with pushPrevDep := true } :: before :: older }
      let q := if q.pendingPopNext.kComputeStage then q else q.depPop .kStoreStage .kComputeStage
      q.commitPendingPop .kComputeStage
    else other
  | _ => other

/-- The no-ops through which `FINISH` waits for the load stage. -/
def serialClose (q : InsnQueue) : InsnQueue :=
  let q := q.depPush .kComputeStage .kLoadStage
  let q := q.depPop .kLoadStage .kComputeStage
  let q := if q.pendingPopNext.kLoadStage then q else q.depPop .kComputeStage .kLoadStage
  let q := q.commitPendingPop .kLoadStage
  let q := q.depPush .kLoadStage .kComputeStage
  q.commitPendingPop .kComputeStage

def rewriteForceSerial (q : InsnQueue) : InsnQueue :=
  ({ q with dramBuffer := (serialInsns q.dramBuffer.reverse).reverse } : InsnQueue).serialStore.serialClose

/-- The stream that `Synchronize` gives to the device. -/
def serialStream (q : InsnQueue) : List Insn := (q.rewriteForceSerial.create .kComputeStage .finish).dramBuffer.reverse

end InsnQueue

/-- `Synchronize` with `VTA_DEBUG_FORCE_SERIAL`. -/
def CommandQueue.synchronizeSerial (q : CommandQueue) : CommandQueue :=
  let iq := q.insnQueue.rewriteForceSerial.create .kComputeStage .finish
  { uopQueue := {}
    insnQueue := { iq with dramBuffer := [] }
    runs := q.runs ++ [q.insnQueue.serialStream]
    checked := q.checked && !iq.pendingPop && decide (iq.dramBuffer.length * 16 ≤ vtaMaxXfer) }

/-- What the runtime puts into its buffer: loads are into the memories of inputs and weights, and of the compute stage. -/
def Operation.Issued : Operation → Prop
  | .load m => m.memoryType ≠ .out
  | .finish => False
  | _ => True

/-- A load of the load stage beside a store, for which there is no queue of tokens. -/
def Unlinked (prev now : Insn) : Prop :=
  getPipelineStageAll prev = .kLoadStage ∧ getPipelineStageAll now = .kStoreStage ∨
    getPipelineStageAll prev = .kStoreStage ∧ getPipelineStageAll now = .kLoadStage

section Pairs

variable {insn insn' prev now : Insn} {rest : List Insn}

theorem stageAll_congr (same : insn.operation = insn'.operation) : getPipelineStageAll insn = getPipelineStageAll insn' := by
  have stage : getPipelineStage insn = getPipelineStage insn' := by simp only [getPipelineStage, same]
  rw [getPipelineStageAll, getPipelineStageAll, stage, same]

theorem core_congr (same : insn.operation = insn'.operation) : getCoreType insn = getCoreType insn' := by
  simp only [getCoreType, same]

def PipelineStage.core : PipelineStage → CoreType
  | .kLoadStage => .coreLoad
  | .kStoreStage => .coreStore
  | _ => .coreGemm

theorem stageAll_load {m : MemInsn} (load : insn.operation = .load m) :
    getPipelineStageAll insn = getMemPipelineStage m.memoryType := by
  simp only [getPipelineStageAll, getPipelineStage, load]
  by_cases none : m.xSize = 0
  · rw [if_pos none, if_neg (by simp)]
  · rw [if_neg none]
    cases m.memoryType <;> rfl

/-- The stages of the runtime are those of the device. -/
theorem core_of_issued (issued : insn.operation.Issued) :
    getPipelineStageAll insn ≠ .kNoneStage ∧ getCoreType insn = (getPipelineStageAll insn).core := by
  cases operation : insn.operation with
  | load m =>
      rw [operation] at issued
      have stage := stageAll_load operation
      simp only [getCoreType, operation, stage]
      cases memory : m.memoryType with
      | out => exact absurd memory issued
      | _ => exact ⟨by decide, rfl⟩
  | store m => simp [getPipelineStageAll, getPipelineStage, getCoreType, operation, PipelineStage.core]
  | alu => simp [getPipelineStageAll, getPipelineStage, getCoreType, operation, PipelineStage.core]
  | finish =>
      rw [operation] at issued
      exact issued.elim

theorem store_of_core (issued : insn.operation.Issued) (core : getCoreType insn = .coreStore) :
    getPipelineStageAll insn = .kStoreStage := by
  rw [(core_of_issued issued).2] at core
  cases stage : getPipelineStageAll insn with
  | kStoreStage => rfl
  | _ =>
    rw [stage] at core
    cases core

/-- What the tokens of an instruction rest on. -/
structure Like (insn insn' : Insn) : Prop where
  operation : insn.operation = insn'.operation
  popPrev : insn.popPrevDep = insn'.popPrevDep
  popNext : insn.popNextDep = insn'.popNextDep

theorem Like.stage (like : Like insn insn') : tlpp.stage insn = tlpp.stage insn' := core_congr like.operation

theorem Like.pops (like : Like insn insn') (k : DepQueue) : tlpp.pops insn k = tlpp.pops insn' k := by
  change depPops insn k = depPops insn' k
  simp only [depPops, core_congr like.operation, like.popPrev, like.popNext]

open InsnQueue

theorem serialPair_operations (prev now : Insn) :
    (serialPair prev now).1.operation = prev.operation ∧ (serialPair prev now).2.operation = now.operation := by
  rw [serialPair]
  split <;> exact ⟨rfl, rfl⟩

theorem serialPair_like (prev now : Insn) : Like (serialPair prev now).1 prev := by
  rw [serialPair]
  split <;> exact ⟨rfl, rfl, rfl⟩

/-- An instruction with these tokens, in the core that its operation has. -/
theorem issued_core (issued : prev.operation.Issued) (insn : Insn) (same : insn.operation = prev.operation) :
    getCoreType insn = (getPipelineStageAll prev).core := (core_congr same).trans (core_of_issued issued).2

/-- What the first of two gives is what the second takes. -/
theorem serialPair_relays (issued : prev.operation.Issued) (issued' : now.operation.Issued) (k : DepQueue) :
    tlpp.pushes (serialPair prev now).1 k = tlpp.pops (serialPair prev now).2 k := by
  have core := issued_core issued
  have core' := issued_core issued'
  have known := (core_of_issued issued).1
  have known' := (core_of_issued issued').1
  change depPushes _ k = depPops _ k
  cases stage : getPipelineStageAll prev with
  | kNoneStage => exact absurd stage known
  | _ =>
    cases stage' : getPipelineStageAll now with
    | kNoneStage => exact absurd stage' known'
    | _ =>
      rw [stage] at core
      rw [stage'] at core'
      simp only [serialPair, stage, stage', depPushes, depPops, core, core']
      cases k <;> rfl

theorem serialPair_near (issued : prev.operation.Issued) (issued' : now.operation.Issued) (linked : ¬Unlinked prev now) :
    Neighbours tlpp (serialPair prev now).1 (serialPair prev now).2 := by
  have core := issued_core issued
  have core' := issued_core issued'
  have known := (core_of_issued issued).1
  have known' := (core_of_issued issued').1
  change getCoreType _ = getCoreType _ ∨ ∃ k : DepQueue, getCoreType _ = k.consumer ∧ getCoreType _ = k.producer ∧
    0 < depPops _ k
  rw [Unlinked] at linked
  cases stage : getPipelineStageAll prev with
  | kNoneStage => exact absurd stage known
  | _ =>
    cases stage' : getPipelineStageAll now with
    | kNoneStage => exact absurd stage' known'
    | _ =>
      rw [stage] at core linked
      rw [stage'] at core' linked
      simp only [serialPair, stage, stage', depPops, core, core']
      first
        | exact Or.inl trivial
        | exact Or.inl rfl
        | exact Or.inr ⟨.l2g, rfl, rfl, by decide⟩
        | exact Or.inr ⟨.g2l, rfl, rfl, by decide⟩
        | exact Or.inr ⟨.g2s, rfl, rfl, by decide⟩
        | exact Or.inr ⟨.s2g, rfl, rfl, by decide⟩
        | exact absurd (by decide) linked

/-- A load beside a store waits for nothing, and neither does a store beside a load. -/
theorem serialPair_unlinked (issued : prev.operation.Issued) (issued' : now.operation.Issued) (unlinked : Unlinked prev now) :
    tlpp.stage (serialPair prev now).1 ≠ tlpp.stage (serialPair prev now).2 ∧
      ∀ k, tlpp.pops (serialPair prev now).2 k = 0 := by
  have core := issued_core issued
  have core' := issued_core issued'
  change getCoreType _ ≠ getCoreType _ ∧ ∀ k, depPops _ k = 0
  obtain ⟨stage, stage'⟩ | ⟨stage, stage'⟩ := unlinked
  all_goals
    rw [stage] at core
    rw [stage'] at core'
    simp only [serialPair, stage, stage', depPops, core, core']
    refine ⟨by decide, fun k => ?_⟩
    cases k <;> rfl

end Pairs

section Loop

open InsnQueue

variable {prev : Insn} {rest l : List Insn} {Q : Operation → Operation → Prop} {R : Insn → Insn → Prop}

theorem serialFrom_cons (prev : Insn) (rest : List Insn) : ∃ insn more, serialFrom prev rest = insn :: more ∧ Like insn prev := by
  cases rest with
  | nil => exact ⟨prev, [], rfl, rfl, rfl, rfl⟩
  | cons now rest => exact ⟨_, _, rfl, serialPair_like prev now⟩

theorem serialFrom_operations (prev : Insn) (rest : List Insn) :
    (serialFrom prev rest).map Insn.operation = prev.operation :: rest.map Insn.operation := by
  induction rest generalizing prev with
  | nil => rfl
  | cons now rest ih =>
      obtain ⟨first, second⟩ := serialPair_operations prev now
      rw [serialFrom, List.map_cons, ih, first, second, List.map_cons]

theorem serialInsns_operations (l : List Insn) : (serialInsns l).map Insn.operation = l.map Insn.operation := by
  cases l with
  | nil => rfl
  | cons insn rest => exact serialFrom_operations insn rest

/-- What the rounds make of neighbours holds of all neighbours. -/
theorem serialFrom_chain (like : ∀ x y y', Like y y' → R x y' → R x y)
    (pairs : ∀ prev now, Q prev.operation now.operation → R (serialPair prev now).1 (serialPair prev now).2)
    (chain : (prev.operation :: rest.map Insn.operation).IsChain Q) : (serialFrom prev rest).IsChain R := by
  induction rest generalizing prev with
  | nil => exact List.isChain_singleton _
  | cons now rest ih =>
      obtain ⟨here, more⟩ := List.isChain_cons_cons.mp chain
      rw [← (serialPair_operations prev now).2] at more
      have later := ih more
      obtain ⟨insn, tail, eq, same⟩ := serialFrom_cons (serialPair prev now).2 rest
      rw [serialFrom]
      rw [eq] at later ⊢
      exact List.isChain_cons_cons.mpr ⟨like _ _ _ same (pairs prev now here), later⟩

theorem serialInsns_chain (like : ∀ x y y', Like y y' → R x y' → R x y)
    (pairs : ∀ prev now, Q prev.operation now.operation → R (serialPair prev now).1 (serialPair prev now).2)
    (chain : (l.map Insn.operation).IsChain Q) : (serialInsns l).IsChain R := by
  cases l with
  | nil => exact List.isChain_nil
  | cons insn rest => exact serialFrom_chain like pairs chain

/-- What the loop makes of neighbours. -/
structure Paired (x y : Insn) : Prop where
  relays : ∀ k, tlpp.pushes x k = tlpp.pops y k
  near : ¬Unlinked x y → Neighbours tlpp x y
  apart : Unlinked x y → tlpp.stage x ≠ tlpp.stage y ∧ ∀ k, tlpp.pops y k = 0

theorem unlinked_congr {x x' y y' : Insn} (same : x.operation = x'.operation) (same' : y.operation = y'.operation) :
    Unlinked x y ↔ Unlinked x' y' := by rw [Unlinked, Unlinked, stageAll_congr same, stageAll_congr same']

theorem Paired.like {x y y' : Insn} (like : Like y y') (paired : Paired x y') : Paired x y where
  relays k := (paired.relays k).trans (like.pops k).symm
  near linked := by
    have near := paired.near fun unlinked => linked ((unlinked_congr rfl like.operation).mpr unlinked)
    simpa only [Neighbours, like.stage, like.pops] using near
  apart unlinked := by
    have apart := paired.apart ((unlinked_congr rfl like.operation).mp unlinked)
    simpa only [like.stage, like.pops] using apart

theorem paired_pair {prev now : Insn} (issued : prev.operation.Issued) (issued' : now.operation.Issued) :
    Paired (serialPair prev now).1 (serialPair prev now).2 := by
  have same := serialPair_operations prev now
  exact
    { relays := serialPair_relays issued issued'
      near := fun linked => serialPair_near issued issued' fun unlinked =>
        linked ((unlinked_congr same.1 same.2).mpr unlinked)
      apart := fun unlinked => serialPair_unlinked issued issued' ((unlinked_congr same.1 same.2).mp unlinked) }

theorem serialInsns_paired (issued : ∀ insn ∈ l, insn.operation.Issued) : (serialInsns l).IsChain Paired := by
  refine serialInsns_chain (Q := fun o o' => o.Issued ∧ o'.Issued) (fun x y y' like paired => paired.like like)
    (fun prev now both => paired_pair both.1 both.2) ?_
  refine List.isChain_iff_getElem.mpr fun i less => ?_
  rw [List.length_map] at less
  rw [List.getElem_map, List.getElem_map]
  exact ⟨issued _ (List.getElem_mem _), issued _ (List.getElem_mem _)⟩

theorem serialInsns_first (insn : Insn) (head : (serialInsns l).head? = some insn) : ∃ first, l.head? = some first ∧ Like insn first := by
  cases l with
  | nil => cases head
  | cons first rest =>
      obtain ⟨insn', more, eq, like⟩ := serialFrom_cons first rest
      rw [serialInsns, eq] at head
      obtain rfl := Option.some.inj head
      exact ⟨first, rfl, like⟩

end Loop

/-- The no-ops of the load stage with the one that waits for them, and `FINISH`. -/
def closing : List Insn :=
  [noopInsn .kLoadStage false false false true, noopInsn .kLoadStage false true false false,
    noopInsn .kComputeStage false false true false, { operation := .finish }]

section Ends

open InsnQueue

variable {l older : List Insn} {last before : Insn} {b c : Bool}

theorem serialClose_buffer (l : List Insn) (b : Bool) :
    ((⟨l, {}, { kLoadStage := b }⟩ : InsnQueue).serialClose.create .kComputeStage .finish).dramBuffer =
      closing.reverse ++ ((⟨l, {}, { kLoadStage := b }⟩ : InsnQueue).depPush .kComputeStage .kLoadStage).dramBuffer := by
  obtain ⟨prev, next⟩ := depPush_pending ⟨l, {}, { kLoadStage := b }⟩ .kComputeStage .kLoadStage
  rw [serialClose]
  generalize (⟨l, {}, { kLoadStage := b }⟩ : InsnQueue).depPush .kComputeStage .kLoadStage = q at prev next
  obtain ⟨l', pp, pn⟩ := q
  obtain rfl : pp = {} := prev
  obtain rfl : pn = { kLoadStage := b } := next
  cases b <;> rfl

theorem serialStore_store (store : getPipelineStageAll last = .kStoreStage) :
    (⟨last :: before :: older, {}, { kLoadStage := b, kComputeStage := c }⟩ : InsnQueue).serialStore =
      ⟨noopInsn .kComputeStage false false false true :: { last with pushPrevDep := true } :: before :: older, {},
        { kLoadStage := b }⟩ := by
  rw [serialStore]
  dsimp only
  rw [if_pos store]
  cases c <;> rfl

theorem serialStore_other (other : ∀ last before older, l = last :: before :: older → getPipelineStageAll last ≠ .kStoreStage) :
    (⟨l, {}, { kLoadStage := b, kComputeStage := c }⟩ : InsnQueue).serialStore = ⟨l, {}, { kLoadStage := b }⟩ := by
  cases l with
  | nil => rfl
  | cons last l =>
      cases l with
      | nil => rfl
      | cons before older =>
          rw [serialStore]
          dsimp only
          rw [if_neg (other last before older rfl)]
          rfl

theorem depPush_noop (popNext : Bool) (l : List Insn) :
    ((⟨noopInsn .kComputeStage false false false popNext :: l, {}, { kLoadStage := b }⟩ : InsnQueue).depPush .kComputeStage
      .kLoadStage).dramBuffer =
        noopInsn .kComputeStage true false false false :: noopInsn .kComputeStage false false false popNext :: l := rfl

/-- The token for the load stage comes from the newest instruction or from a no-op. -/
theorem depPush_cases (l : List Insn) (b : Bool) :
    (∃ last older, l = last :: older ∧ getPipelineStage last = .kComputeStage ∧
      ((⟨l, {}, { kLoadStage := b }⟩ : InsnQueue).depPush .kComputeStage .kLoadStage).dramBuffer =
        { last with pushPrevDep := true } :: older) ∨
      ((⟨l, {}, { kLoadStage := b }⟩ : InsnQueue).depPush .kComputeStage .kLoadStage).dramBuffer =
        noopInsn .kComputeStage true false false false :: l := by
  cases l with
  | nil => exact Or.inr rfl
  | cons last older =>
      by_cases compute : getPipelineStage last = .kComputeStage
      · cases pushes : last.pushPrevDep with
        | false =>
            refine Or.inl ⟨last, older, rfl, compute, ?_⟩
            have quiet : (⟨last :: older, {}, { kLoadStage := b }⟩ : InsnQueue).commitPendingPop .kComputeStage =
              ⟨last :: older, {}, { kLoadStage := b }⟩ := rfl
            rw [depPush, quiet]
            dsimp only
            rw [if_pos compute, if_neg fun both => absurd both.1 (by decide), if_pos ⟨by decide, pushes⟩]
        | true =>
            refine Or.inr ?_
            have quiet : (⟨last :: older, {}, { kLoadStage := b }⟩ : InsnQueue).commitPendingPop .kComputeStage =
              ⟨last :: older, {}, { kLoadStage := b }⟩ := rfl
            rw [depPush, quiet]
            dsimp only
            rw [if_pos compute, if_neg fun both => absurd both.1 (by decide), if_neg (by simp [pushes])]
            rfl
      · refine Or.inr ?_
        have quiet : (⟨last :: older, {}, { kLoadStage := b }⟩ : InsnQueue).commitPendingPop .kComputeStage =
          ⟨last :: older, {}, { kLoadStage := b }⟩ := rfl
        rw [depPush, quiet]
        dsimp only
        rw [if_neg compute]
        rfl

end Ends

/-- A queue that may be synchronized: no pop waits but those that are replaced, and the first instruction takes nothing. -/
structure InsnQueue.Rewritable (q : InsnQueue) : Prop where
  issued : ∀ insn ∈ q.dramBuffer, insn.operation.Issued
  first : ∀ insn, q.dramBuffer.getLast? = some insn → insn.popPrevDep = false ∧ insn.popNextDep = false
  prev : q.pendingPopPrev = {}
  next : q.pendingPopNext.kStoreStage = false

/-- The stream in its parts. -/
structure Parts (q : InsnQueue) (body noops : List Insn) : Prop where
  stream : q.serialStream = body ++ (noops ++ closing)
  operations : body.map Insn.operation = q.dramBuffer.reverse.map Insn.operation
  relays : Relays tlpp body
  paired : body.IsChain Paired
  idle : ∀ insn ∈ noops, insn.operation.Idle
  gives : ∃ given, Conveys tlpp (fun _ => 0) (body ++ noops) given ∧ 1 ≤ given .g2l
  /-- A store at the end is waited for. -/
  store : ∀ last, 1 < body.length → body.getLast? = some last → getCoreType last = .coreStore →
    ∃ noop rest, noops = noop :: rest ∧ getCoreType noop = .coreGemm ∧ 0 < tlpp.pops noop .s2g

section Shape

open InsnQueue

variable {q : InsnQueue} {init : List Insn} {last last' : Insn}

theorem head_concat {insn : Insn} (head : insn ∈ (init ++ [last']).head?) (like : Like last' last) :
    ∃ insn', insn' ∈ (init ++ [last]).head? ∧ Like insn insn' := by
  cases init with
  | nil =>
      obtain rfl := Option.some.inj head
      exact ⟨last, rfl, like⟩
  | cons x init => exact ⟨insn, head, rfl, rfl, rfl⟩

theorem chain_concat {R : Insn → Insn → Prop} (congr : ∀ x y y', Like y y' → R x y' → R x y) (like : Like last' last)
    (chain : (init ++ [last]).IsChain R) : (init ++ [last']).IsChain R := by
  obtain ⟨front, -, link⟩ := List.isChain_append.mp chain
  refine List.isChain_append.mpr ⟨front, List.isChain_singleton _, fun x x_last y y_head => ?_⟩
  obtain rfl := Option.some.inj y_head
  exact congr x _ _ like (link x x_last last rfl)

theorem relays_serialInsns (h : q.Rewritable) : Relays tlpp (serialInsns q.dramBuffer.reverse) where
  first x head k := by
    obtain ⟨first, here, like⟩ := serialInsns_first x head
    rw [List.head?_reverse] at here
    obtain ⟨prev, next⟩ := h.first first here
    rw [like.pops k]
    change depPops first k = 0
    simp only [depPops, prev, next]
    cases getCoreType first <;> cases k <;> rfl
  chain := (serialInsns_paired fun insn mem => h.issued insn (List.mem_reverse.mp mem)).imp fun _ _ paired => paired.relays

theorem Relays.concat (relays : Relays tlpp (init ++ [last])) (like : Like last' last) : Relays tlpp (init ++ [last']) where
  first x head k := by
    obtain ⟨x', head', same⟩ := head_concat head like
    rw [same.pops k, relays.first x' head' k]
  chain := chain_concat (fun x y y' like link k => (link k).trans (like.pops k).symm) like relays.chain

/-- The tokens of a body with its last instruction. -/
theorem tally_concat (relays : Relays tlpp (init ++ [last])) (k : DepQueue) :
    tally 0 ((init ++ [last]).map (effect tlpp k)) = some (tlpp.pushes last k) := by
  cases init with
  | nil => exact Relays.tally relays k
  | cons x init =>
      rw [List.cons_append] at relays ⊢
      rw [relays.tally, List.getLastD_concat]

theorem issued_serialInsns (h : q.Rewritable) {insn : Insn} (mem : insn ∈ serialInsns q.dramBuffer.reverse) :
    insn.operation.Issued := by
  have operation := List.mem_map_of_mem (f := Insn.operation) mem
  rw [serialInsns_operations, List.mem_map] at operation
  obtain ⟨insn', mem', same⟩ := operation
  rw [← same]
  exact h.issued insn' (List.mem_reverse.mp mem')

theorem serialStream_eq (h : q.Rewritable) :
    ∃ b c, q.serialStream = (((⟨(serialInsns q.dramBuffer.reverse).reverse, {}, { kLoadStage := b, kComputeStage := c }⟩ :
      InsnQueue).serialStore.serialClose).create .kComputeStage .finish).dramBuffer.reverse := by
  obtain ⟨buffer, pp, ⟨b, c, d⟩⟩ := q
  obtain rfl : pp = {} := h.prev
  obtain rfl : d = false := h.next
  exact ⟨b, c, rfl⟩

/-- Parts whose last instruction gives a token that the loop did not know of. -/
theorem parts_concat (h : q.Rewritable) {noops : List Insn} (eq : serialInsns q.dramBuffer.reverse = init ++ [last])
    (like : Like last' last) (stream : q.serialStream = init ++ [last'] ++ (noops ++ closing))
    (idle : ∀ insn ∈ noops, insn.operation.Idle)
    (gives : ∃ given : DepQueue → Nat, 1 ≤ given .g2l ∧
      ∀ k, tally (tlpp.pushes last' k) (noops.map (effect tlpp k)) = some (given k))
    (store : getCoreType last' = .coreStore → init ≠ [] →
      ∃ noop rest, noops = noop :: rest ∧ getCoreType noop = .coreGemm ∧ 0 < tlpp.pops noop .s2g) :
    Parts q (init ++ [last']) noops := by
  have relays := relays_serialInsns h
  have paired := serialInsns_paired fun insn mem => h.issued insn (List.mem_reverse.mp mem)
  have operations := serialInsns_operations q.dramBuffer.reverse
  rw [eq] at relays paired operations
  have relays' := Relays.concat relays like
  refine
    { stream := stream
      operations := ?_
      relays := relays'
      paired := chain_concat (fun x y y' like paired => paired.like like) like paired
      idle := idle
      gives := ?_
      store := fun insn long last_eq core => ?_ }
  · rw [← operations, List.map_append, List.map_append]
    exact congrArg (fun o => init.map Insn.operation ++ [o]) like.operation
  · obtain ⟨given, some, result⟩ := gives
    refine ⟨given, fun k => ?_, some⟩
    rw [List.map_append, tally_append, tally_concat relays' k, Option.bind_some, result]
  · rw [List.getLast?_concat] at last_eq
    obtain rfl := Option.some.inj last_eq
    refine store core fun none => ?_
    rw [none, List.nil_append, List.length_singleton] at long
    omega

theorem exists_parts (h : q.Rewritable) : ∃ body noops, Parts q body noops := by
  obtain ⟨b, c, stream⟩ := serialStream_eq h
  have issued {insn : Insn} (mem : insn ∈ serialInsns q.dramBuffer.reverse) := issued_serialInsns h mem
  by_cases store : ∃ last before older, (serialInsns q.dramBuffer.reverse).reverse = last :: before :: older ∧
      getPipelineStageAll last = .kStoreStage
  · obtain ⟨last, before, older, eq, store⟩ := store
    rw [eq, serialStore_store store, serialClose_buffer, depPush_noop] at stream
    have whole : serialInsns q.dramBuffer.reverse = (before :: older).reverse ++ [last] := by
      rw [← List.reverse_reverse (serialInsns q.dramBuffer.reverse), eq, List.reverse_cons]
    have mem : last ∈ serialInsns q.dramBuffer.reverse := whole ▸ List.mem_append_right _ (List.mem_singleton_self last)
    have core : getCoreType { last with pushPrevDep := true } = .coreStore :=
      (core_of_issued (issued mem)).2.trans (congrArg PipelineStage.core store)
    refine ⟨(before :: older).reverse ++ [{ last with pushPrevDep := true }],
      [noopInsn .kComputeStage false false false true, noopInsn .kComputeStage true false false false],
      parts_concat h whole ⟨rfl, rfl, rfl⟩ ?_ ?_ ?_ ?_⟩
    · rw [stream]
      simp only [List.reverse_append, List.reverse_cons, List.reverse_reverse, List.append_assoc, List.cons_append,
        List.nil_append]
    · simp [noopInsn_idle]
    · refine ⟨fun k => if k = .g2l then 1 else 0, by decide, fun k => ?_⟩
      change tally (depPushes _ k) _ = _
      simp only [depPushes, core]
      cases k <;> rfl
    · exact fun _ _ => ⟨_, _, rfl, rfl, by decide⟩
  · have other (last before : Insn) (older : List Insn)
        (eq : (serialInsns q.dramBuffer.reverse).reverse = last :: before :: older) :
        getPipelineStageAll last ≠ .kStoreStage := fun stage => store ⟨last, before, older, eq, stage⟩
    rw [serialStore_other other, serialClose_buffer] at stream
    obtain ⟨last, older, eq, compute, flagged⟩ | noop := depPush_cases (serialInsns q.dramBuffer.reverse).reverse b
    · have whole : serialInsns q.dramBuffer.reverse = older.reverse ++ [last] := by
        rw [← List.reverse_reverse (serialInsns q.dramBuffer.reverse), eq, List.reverse_cons]
      have core : getCoreType { last with pushPrevDep := true } = .coreGemm := InsnQueue.core_of_compute compute
      refine ⟨older.reverse ++ [{ last with pushPrevDep := true }], [], parts_concat h whole ⟨rfl, rfl, rfl⟩ ?_ (by simp) ?_ fun store => ?_⟩
      · rw [stream, flagged, List.reverse_append, List.reverse_reverse, List.reverse_cons, List.nil_append]
      · refine ⟨depPushes { last with pushPrevDep := true }, ?_, fun k => rfl⟩
        simp [depPushes, core]
      · cases core.symm.trans store
    · rw [noop] at stream
      have idle : ∀ insn ∈ [noopInsn .kComputeStage true false false false], insn.operation.Idle := by
        simp [noopInsn_idle]
      obtain none | ⟨init, last, whole⟩ := List.eq_nil_or_concat' (serialInsns q.dramBuffer.reverse)
      · have operations := serialInsns_operations q.dramBuffer.reverse
        have relays := relays_serialInsns h
        rw [none] at stream operations relays
        refine ⟨[], [noopInsn .kComputeStage true false false false],
          { stream := stream
            operations := operations
            relays := relays
            paired := List.isChain_nil
            idle := idle
            gives := ⟨fun k => if k = .g2l then 1 else 0, fun k => ?_, by decide⟩
            store := fun last long => absurd long (by simp) }⟩
        cases k <;> rfl
      · refine ⟨init ++ [last], _, parts_concat h whole ⟨rfl, rfl, rfl⟩ ?_ idle ?_ fun store some => ?_⟩
        · rw [stream, whole]
          simp only [List.reverse_append, List.reverse_cons, List.reverse_reverse, List.append_assoc, List.cons_append,
            List.nil_append]
        · refine ⟨fun k => depPushes last k + if k = .g2l then 1 else 0, by simp, fun k => ?_⟩
          cases k <;> rfl
        · obtain ⟨init', before, rfl⟩ := (List.eq_nil_or_concat' init).resolve_left some
          have mem : last ∈ serialInsns q.dramBuffer.reverse := whole ▸ List.mem_append_right _ (List.mem_singleton_self last)
          have stage := other last before init'.reverse (by rw [whole]; simp)
          exact absurd (store_of_core (issued mem) store) stage

end Shape

/-- No load of the load stage stands beside a store. -/
def Linked (l : List Insn) : Prop := l.IsChain fun x y => ¬Unlinked x y

/-- Under every schedule the instructions of the buffer run in their order. -/
def InsnQueue.RunsInOrder (q : InsnQueue) : Prop :=
  ∀ st, InOrderStages.Reachable tlpp q.serialStream st → ∀ x ∈ q.serialStream.zipIdx, ∀ y ∈ st.done,
    x.2 ≤ y.2 → y.2 < q.dramBuffer.length → x ∈ st.done

section Runs

variable {q : InsnQueue} {body noops : List Insn} {st : State Insn CoreType DepQueue}

theorem closing_tally {given : DepQueue → Nat} (some : 1 ≤ given .g2l) (k : DepQueue) :
    tally (given k) (closing.map (effect tlpp k)) = Option.some (if k = .g2l then given k - 1 else given k) := by
  cases k with
  | g2l =>
      change (if 1 ≤ given .g2l then Option.some (given .g2l - 1 + 0) else none) = _
      rw [if_pos some]
      rfl
  | l2g | g2s | s2g => rfl

theorem Parts.conveys (parts : Parts q body noops) : ∃ left, Conveys tlpp (fun _ => 0) q.serialStream left := by
  obtain ⟨given, conveys, some⟩ := parts.gives
  refine ⟨fun k => if k = .g2l then given k - 1 else given k, fun k => ?_⟩
  rw [parts.stream, ← List.append_assoc, List.map_append, tally_append, conveys k, Option.bind_some, closing_tally some]

theorem Parts.length (parts : Parts q body noops) : body.length = q.dramBuffer.length := by
  have length := congrArg List.length parts.operations
  rwa [List.length_map, List.length_map, List.length_reverse] at length

theorem Parts.linked (parts : Parts q body noops) : Linked q.dramBuffer.reverse ↔ Linked body := by
  have map (l : List Insn) : Linked l ↔ (l.map Insn.operation).IsChain fun o o' => ¬Unlinked { operation := o } { operation := o' } := by
    rw [List.isChain_map]
    rfl
  rw [map, map, parts.operations]

theorem Parts.near (parts : Parts q body noops) (linked : Linked body) : body.IsChain (Neighbours tlpp) :=
  List.isChain_iff_getElem.mpr fun i less =>
    (List.isChain_iff_getElem.mp parts.paired i less).near (List.isChain_iff_getElem.mp linked i less)

theorem Parts.runsInOrder (parts : Parts q body noops) (linked : Linked body) : q.RunsInOrder := by
  intro st reach x x_mem y y_done before inside
  have inv := reach.inv
  have at_x := List.mem_zipIdx_iff_getElem?.mp x_mem
  have at_y := List.mem_zipIdx_iff_getElem?.mp (inv.mem_done y_done)
  rw [← parts.length] at inside
  rw [parts.stream] at at_x at_y inv
  rw [List.getElem?_append_left (by omega)] at at_x
  rw [List.getElem?_append_left inside] at at_y
  obtain ⟨d, eq⟩ := Nat.exists_eq_add_of_le before
  obtain ⟨b, j⟩ := y
  obtain rfl : j = x.2 + d := eq
  exact parts.relays.in_order (parts.near linked) inv at_x at_y y_done

/-- A load that stands beside a store may run after it, or the store after the load. -/
theorem Parts.overtakes (parts : Parts q body noops) {i : Nat} (less : i + 1 < body.length)
    (unlinked : Unlinked body[i] body[i + 1]) : ¬q.RunsInOrder := by
  intro order
  obtain ⟨left, conveys⟩ := parts.conveys
  obtain ⟨other, quiet⟩ := (List.isChain_iff_getElem.mp parts.paired i less).apart unlinked
  have at_i : q.serialStream[i]? = some body[i] := by
    rw [parts.stream, List.getElem?_append_left (by omega), List.getElem?_eq_getElem]
  have at_next : q.serialStream[i + 1]? = some body[i + 1] := by
    rw [parts.stream, List.getElem?_append_left less, List.getElem?_eq_getElem]
  have bound := (List.getElem?_eq_some_iff.mp at_next).1
  obtain ⟨st, reach, done⟩ := conveys.reach_take (n := i) (by omega)
  have waits := (inv_of_reach reach).queue_of_take done (tlpp.stage body[i + 1])
  have rest : q.serialStream.zipIdx.drop i = (body[i], i) :: (body[i + 1], i + 1) :: q.serialStream.zipIdx.drop (i + 2) := by
    rw [List.drop_eq_getElem_cons (by rw [List.length_zipIdx]; omega), List.drop_eq_getElem_cons (by rwa [List.length_zipIdx])]
    simp only [List.getElem_zipIdx, Nat.zero_add]
    rw [(List.getElem?_eq_some_iff.mp at_i).2, (List.getElem?_eq_some_iff.mp at_next).2]
  rw [rest, ofStage_cons_ne (body[i], i) _ other, @ofStage_cons_self _ _ _ _ tlpp (body[i + 1], i + 1)] at waits
  have step := @Step.run _ _ _ _ tlpp st _ _ _ waits fun k => (quiet k).le.trans (Nat.zero_le _)
  have ran := order _ (reach.tail step) (body[i], i) (List.mem_zipIdx_iff_getElem?.mpr at_i) (body[i + 1], i + 1)
    (List.mem_append_right _ (List.mem_singleton_self _)) (Nat.le_succ i) (parts.length ▸ less)
  change _ ∈ st.done ++ [_] at ran
  rw [done, List.mem_append, List.mem_singleton] at ran
  obtain early | same := ran
  · obtain ⟨j, at_j⟩ := List.mem_iff_getElem?.mp early
    have small := (List.getElem?_eq_some_iff.mp at_j).1
    rw [List.length_take] at small
    rw [List.getElem?_take_of_lt (by omega), List.getElem?_zipIdx, Option.map_eq_some_iff] at at_j
    obtain ⟨a, -, eq⟩ := at_j
    have number := congrArg Prod.snd eq
    change 0 + j = i at number
    omega
  · have number := congrArg Prod.snd same
    change i = i + 1 at number
    omega

/-- All instructions of the buffer run before `FINISH`. -/
theorem Parts.finishLast (h : q.Rewritable) (parts : Parts q body noops) (linked : Linked body)
    (several : ∀ insn, q.dramBuffer = [insn] → getPipelineStageAll insn ≠ .kStoreStage)
    (reach : InOrderStages.Reachable tlpp q.serialStream st) {insn : Insn} (finish : insn.operation = .finish)
    (done : (insn, q.serialStream.length - 1) ∈ st.done) {x : Insn × Nat} (x_mem : x ∈ q.serialStream.zipIdx)
    (inside : x.2 < q.dramBuffer.length) : x ∈ st.done := by
  have inv := reach.inv
  have at_x := List.mem_zipIdx_iff_getElem?.mp x_mem
  have at_finish := List.mem_zipIdx_iff_getElem?.mp (inv.mem_done done)
  rw [← parts.length] at inside
  have length : q.serialStream.length = body.length + (noops.length + 4) := by
    rw [parts.stream, List.length_append, List.length_append]
    rfl
  rw [length] at done at_finish
  rw [parts.stream] at at_x at_finish inv
  rw [List.getElem?_append_left inside] at at_x
  obtain ⟨d, eq⟩ := Nat.exists_eq_add_of_le (Nat.le_sub_one_of_lt inside)
  obtain ⟨last, at_last⟩ : ∃ last, body[x.2 + d]? = some last := ⟨_, List.getElem?_eq_getElem (by omega)⟩
  have last_whole : (body ++ (noops ++ closing))[x.2 + d]? = some last := by
    rw [List.getElem?_append_left (by omega), at_last]
  have tail {i : Nat} {c : Insn} (at_i : (noops ++ closing)[i]? = some c) :
      (body ++ (noops ++ closing))[body.length + i]? = some c := by
    rw [List.getElem?_append_right (Nat.le_add_right _ _), Nat.add_sub_cancel_left, at_i]
  have gemm : tlpp.stage insn = .coreGemm := by
    change getCoreType insn = _
    simp only [getCoreType, finish]
  refine parts.relays.in_order (parts.near linked) inv at_x at_last ?_
  -- The last instruction waits for `FINISH` in the same stage, or for a no-op there that takes its token.
  have waits {i : Nat} {c : Insn} (at_i : (noops ++ closing)[i]? = some c) (few : i < noops.length + 3)
      (core : tlpp.stage c = .coreGemm) (k : DepQueue) (taker : k.consumer = .coreGemm)
      (giver : tlpp.stage last = k.producer) (takes : 0 < tlpp.pops c k) : (last, x.2 + d) ∈ st.done := by
    have before : body.length + i < body.length + (noops.length + 4) - 1 := by omega
    have c_done := inv.same_stage (pair_zipIdx (tail at_i) at_finish before) (core.trans gemm.symm) done
    have keeps := parts.relays.last_keeps (i := x.2 + d) (by omega) (tail at_i) (Nat.le_add_right _ _) (core.trans taker.symm) giver takes
    exact inv.ordered (pair_zipIdx last_whole (tail at_i) (by omega)) keeps c_done
  cases core : getCoreType last with
  | coreGemm =>
      have before : x.2 + d < body.length + (noops.length + 4) - 1 := by omega
      exact inv.same_stage (pair_zipIdx last_whole at_finish before) (core.trans gemm.symm) done
  | coreLoad =>
      have at_c : (noops ++ closing)[noops.length + 2]? = some (noopInsn .kComputeStage false false true false) := by
        rw [List.getElem?_append_right (Nat.le_add_right _ _), Nat.add_sub_cancel_left]
        rfl
      exact waits at_c (by omega) rfl .l2g rfl core (by decide)
  | coreStore =>
      have last_eq : body.getLast? = some last := by rw [List.getLast?_eq_getElem?, eq, at_last]
      have long : 1 < body.length := by
        by_contra short
        have one : body.length = 1 := by omega
        obtain ⟨only, buffer⟩ := List.length_eq_one_iff.mp (parts.length.symm.trans one)
        have operations := parts.operations
        obtain ⟨b, rfl⟩ := List.length_eq_one_iff.mp one
        rw [buffer, List.reverse_singleton, List.map_singleton, List.map_singleton, List.singleton_inj] at operations
        obtain rfl := Option.some.inj last_eq
        exact several only buffer (store_of_core (h.issued only (by simp [buffer])) ((core_congr operations).symm.trans core))
      obtain ⟨noop, rest, rfl, gemm', takes⟩ := parts.store _ long last_eq core
      exact @waits 0 noop rfl (by omega) gemm' .s2g rfl core takes

end Runs

/-- Under every schedule all instructions run; those of the buffer run in their order exactly when no load stands beside a
store, and then before `FINISH`, unless a store is alone in the buffer. -/
theorem serialStream_inOrder (q : InsnQueue) (h : q.Rewritable) :
    (∀ st, InOrderStages.Reachable tlpp q.serialStream st → (∀ st', ¬Step tlpp st st') → ∀ x ∈ q.serialStream.zipIdx, x ∈ st.done) ∧
      (q.RunsInOrder ↔ Linked q.dramBuffer.reverse) ∧
      (Linked q.dramBuffer.reverse → (∀ insn, q.dramBuffer = [insn] → getPipelineStageAll insn ≠ .kStoreStage) →
        ∀ st, InOrderStages.Reachable tlpp q.serialStream st → ∀ insn : Insn, insn.operation = .finish →
          (insn, q.serialStream.length - 1) ∈ st.done →
            ∀ x ∈ q.serialStream.zipIdx, x.2 < q.dramBuffer.length → x ∈ st.done) := by
  obtain ⟨body, noops, parts⟩ := exists_parts h
  refine ⟨fun st reach stuck => ?_, ⟨fun order => ?_, fun linked => ?_⟩, fun linked several st reach insn finish done x mem inside => ?_⟩
  · obtain ⟨left, conveys⟩ := parts.conveys
    exact (conveys.finished_of_stuck reach stuck).ran
  · rw [parts.linked]
    refine List.isChain_iff_getElem.mpr fun i less unlinked => ?_
    exact parts.overtakes less unlinked order
  · exact parts.runsInOrder (parts.linked.mp linked)
  · exact parts.finishLast h (parts.linked.mp linked) several reach finish done mem inside

/-- A load of the load stage, a kernel on what it brought, and a store, with no dependencies asked for. -/
def threeStages : InsnQueue where
  dramBuffer :=
    [{ operation := .store { memoryType := .out, xSize := 1, ySize := 1 } },
      { operation := .alu 0 1 ⟨1, 0, 0, 0, 0, .add, true, 1⟩ },
      { operation := .load { memoryType := .inp, xSize := 1, ySize := 1 } }]

theorem threeStages_rewritable : threeStages.Rewritable where
  issued := by simp [threeStages, Operation.Issued]
  first := by simp [threeStages]
  prev := rfl
  next := rfl

theorem threeStages_linked : Linked threeStages.dramBuffer.reverse := by
  simp [Linked, threeStages, Unlinked, getPipelineStageAll, getPipelineStage, getMemPipelineStage]

theorem threeStages_inOrder :
    (∀ st, InOrderStages.Reachable tlpp threeStages.serialStream st → (∀ st', ¬Step tlpp st st') →
      ∀ x ∈ threeStages.serialStream.zipIdx, x ∈ st.done) ∧
      (threeStages.RunsInOrder ↔ Linked threeStages.dramBuffer.reverse) ∧
      (Linked threeStages.dramBuffer.reverse →
        (∀ insn, threeStages.dramBuffer = [insn] → getPipelineStageAll insn ≠ .kStoreStage) →
        ∀ st, InOrderStages.Reachable tlpp threeStages.serialStream st → ∀ insn : Insn, insn.operation = .finish →
          (insn, threeStages.serialStream.length - 1) ∈ st.done →
            ∀ x ∈ threeStages.serialStream.zipIdx, x.2 < threeStages.dramBuffer.length → x ∈ st.done) :=
  serialStream_inOrder threeStages threeStages_rewritable

section Results

variable {q : InsnQueue} {body noops : List Insn} {mem : DeviceMemory}

theorem runInsn_idle {insn : Insn} (idle : insn.operation.Idle) (mem : DeviceMemory) : mem.runInsn insn = mem := by
  cases operation : insn.operation with
  | load m =>
      rw [operation] at idle
      simp only [DeviceMemory.runInsn, operation]
      exact if_pos idle
  | store m =>
      rw [operation] at idle
      simp only [DeviceMemory.runInsn, operation]
      exact if_pos idle
  | alu =>
      rw [operation] at idle
      cases idle
  | finish => simp only [DeviceMemory.runInsn, operation]

theorem foldl_idle {l : List Insn} (idle : ∀ insn ∈ l, insn.operation.Idle) (mem : DeviceMemory) :
    l.foldl DeviceMemory.runInsn mem = mem := by
  induction l with
  | nil => rfl
  | cons insn l ih =>
      rw [List.foldl_cons, runInsn_idle (idle insn List.mem_cons_self)]
      exact ih fun other later => idle other (List.mem_cons_of_mem insn later)

/-- What instructions do rests on their operations. -/
theorem foldl_operations {l l' : List Insn} (same : l.map Insn.operation = l'.map Insn.operation) (mem : DeviceMemory) :
    l.foldl DeviceMemory.runInsn mem = l'.foldl DeviceMemory.runInsn mem := by
  have map (l : List Insn) : l.foldl DeviceMemory.runInsn mem =
      (l.map Insn.operation).foldl (fun mem o => mem.runInsn { operation := o }) mem := by
    rw [List.foldl_map]
    rfl
  rw [map, map, same]

theorem pair_order {l : List Insn} {x y : Insn × Nat} (pair : [x, y].Sublist l.zipIdx) : x.2 < y.2 := by
  have numbers := pair.map Prod.snd
  rw [List.zipIdx_map_snd] at numbers
  have sorted := (List.pairwise_lt_range' (s := 0) (n := l.length)).sublist numbers
  simpa using sorted

theorem Parts.idle_tail (parts : Parts q body noops) {insn : Insn} (mem : insn ∈ noops ++ closing) : insn.operation.Idle := by
  obtain noop | last := List.mem_append.mp mem
  · exact parts.idle insn noop
  · simp only [closing, List.mem_cons, List.not_mem_nil, or_false] at last
    obtain rfl | rfl | rfl | rfl := last
    · exact noopInsn_idle ..
    · exact noopInsn_idle ..
    · exact noopInsn_idle ..
    · trivial

/-- A schedule does what the instructions of the buffer do one after another. -/
theorem Parts.effect (parts : Parts q body noops) (linked : Linked body) {st : State Insn CoreType DepQueue}
    (reach : InOrderStages.Reachable tlpp q.serialStream st) (complete : ∀ core, st.queue core = []) (mem : DeviceMemory) :
    mem.runInsns st.done = q.dramBuffer.reverse.foldl DeviceMemory.runInsn mem := by
  have program : q.serialStream.foldl DeviceMemory.runInsn mem = q.dramBuffer.reverse.foldl DeviceMemory.runInsn mem := by
    rw [parts.stream, List.foldl_append, foldl_idle (fun insn => parts.idle_tail), foldl_operations parts.operations]
  rw [← program, DeviceMemory.runInsns, effect_of_order reach complete (fun x y pair => ?_), ← List.foldl_map,
    List.zipIdx_map_fst]
  have before := pair_order pair
  have x_mem := pair.mem List.mem_cons_self
  by_cases inside : y.2 < q.dramBuffer.length
  · exact Or.inl fun st' reach' done =>
      parts.runsInOrder linked st' reach' x x_mem y done before.le inside
  · have at_y := List.mem_zipIdx_iff_getElem?.mp (pair.mem (List.mem_cons_of_mem x List.mem_cons_self))
    rw [parts.stream, List.getElem?_append_right (by rw [parts.length]; omega)] at at_y
    have idle := parts.idle_tail (List.mem_of_getElem? at_y)
    exact Or.inr fun mem => by rw [runInsn_idle idle, runInsn_idle idle]

end Results

/-- What comes of a stream, under any schedule, is what its instructions do one after another. -/
theorem serialRuns_iff {q : InsnQueue} {mem : DeviceMemory} {result : DeviceResult} (h : q.Rewritable)
    (linked : Linked q.dramBuffer.reverse) (inBounds : ∀ insn ∈ q.dramBuffer, insn.operation.InBounds) :
    DeviceRuns (fun _ => 0) [q.serialStream] mem result ↔
      result = .done (q.dramBuffer.reverse.foldl DeviceMemory.runInsn mem) := by
  obtain ⟨body, noops, parts⟩ := exists_parts h
  rw [parts.linked] at linked
  obtain ⟨left, conveys⟩ := parts.conveys
  have bounds : ∀ insn ∈ [q.serialStream].flatten, insn.operation.InBounds := by
    intro insn mem
    rw [List.flatten_singleton, parts.stream, List.mem_append] at mem
    obtain buffer | tail := mem
    · have operation := List.mem_map_of_mem (f := Insn.operation) buffer
      rw [parts.operations, List.mem_map] at operation
      obtain ⟨insn', mem', same⟩ := operation
      rw [← same]
      exact inBounds insn' (List.mem_reverse.mp mem')
    · exact (parts.idle_tail tail).inBounds
  rw [← List.flatten_singleton (l := q.serialStream)] at conveys
  have only (result : DeviceResult) (run : DeviceRuns (fun _ => 0) [q.serialStream] mem result) :
      result = .done (q.dramBuffer.reverse.foldl DeviceMemory.runInsn mem) := by
    have ends := runs_not_hangs run conveys
    have goes := runs_not_aborted run bounds
    cases run with
    | aborts => exact absurd rfl goes
    | stuck => exact absurd rfl ends
    | forever => exact absurd rfl ends
    | next reach complete _ rest =>
        cases rest with
        | none => rw [parts.effect linked reach complete]
  refine ⟨only result, fun eq => ?_⟩
  obtain ⟨mem', run⟩ := exists_done conveys bounds mem
  rw [eq, ← only _ run]
  exact run

/-- The queue of `aluAdd` before `VTASynchronize`. -/
def aluAddPending (outputquant : QuantizationData) (chunks : List AluChunk) : CommandQueue :=
  let q : CommandQueue := {}
  let q := q.depPush .kComputeStage .kLoadStage
  let q := q.depPush .kStoreStage .kComputeStage
  let q := chunks.foldl (fun q c => c.commands outputquant q) q
  let q := q.depPop .kComputeStage .kLoadStage
  q.depPop .kStoreStage .kComputeStage

section Addition

variable {oq : QuantizationData} {u : UopQueue} {cs : List AluChunk}

theorem synchronize_pending : aluAddCommands oq cs = (aluAddPending oq cs).synchronize := rfl

theorem pending_buffer (none : (aluAddPending oq cs).runs = []) :
    (aluAddPending oq cs).insnQueue =
      ⟨(prologue ++ chunkStreams oq {} cs).reverse, {}, { kLoadStage := true, kComputeStage := true }⟩ := by
  obtain ⟨v, emitted⟩ := @foldl_quiet oq {} true cs prologue rfl none
  have folded : (aluAddPending oq cs).insnQueue = (((cs.foldl (fun q c => c.commands oq q) (idle {} prologue true)).depPop
    .kComputeStage .kLoadStage).depPop .kStoreStage .kComputeStage).insnQueue := rfl
  rw [folded, emitted]
  rfl

theorem load_compute {insn : Insn} {m : MemInsn} (load : insn.operation = .load m)
    (compute : getMemPipelineStage m.memoryType = .kComputeStage) : getPipelineStageAll insn = .kComputeStage :=
  (stageAll_load load).trans compute

theorem stream_stages (c : AluChunk) :
    (c.stream oq u).map getPipelineStageAll =
      [.kComputeStage, .kComputeStage, .kLoadStage, .kLoadStage, .kComputeStage, .kComputeStage, .kComputeStage, .kComputeStage,
        .kComputeStage, .kComputeStage, .kComputeStage, .kComputeStage, .kComputeStage, .kComputeStage, .kComputeStage,
        .kComputeStage, .kStoreStage, .kComputeStage] := by
  simp only [AluChunk.stream, List.map_cons, List.map_nil, List.cons.injEq, and_true]
  exact ⟨load_compute rfl rfl, load_compute rfl rfl, rfl, rfl, load_compute rfl rfl, rfl, load_compute rfl rfl, rfl,
    load_compute rfl rfl, rfl, load_compute rfl rfl, rfl, load_compute rfl rfl, rfl, load_compute rfl rfl, rfl, rfl, rfl⟩

theorem linked_of_stages {l : List Insn} (linked : (l.map getPipelineStageAll).IsChain fun s s' =>
    ¬(s = .kLoadStage ∧ s' = .kStoreStage ∨ s = .kStoreStage ∧ s' = .kLoadStage)) : Linked l :=
  (List.isChain_map _).mp linked

/-- Between two parts of which the first ends in the compute stage, nothing is unlinked. -/
theorem Linked.append {l l' : List Insn} {last : Insn} (linked : Linked (l ++ [last])) (linked' : Linked l')
    (compute : getPipelineStageAll last = .kComputeStage) : Linked (l ++ [last] ++ l') := by
  refine List.isChain_append.mpr ⟨linked, linked', fun x x_last y _ => ?_⟩
  rw [List.getLast?_concat] at x_last
  obtain rfl := Option.some.inj x_last
  simp [Unlinked, compute]

theorem chunks_linked (cs : List AluChunk) : Linked (chunkStreams oq u cs) := by
  induction cs generalizing u with
  | nil => exact List.isChain_nil
  | cons c cs ih =>
      have here : Linked (c.stream oq u) := by
        refine linked_of_stages ?_
        rw [stream_stages]
        decide
      have split : c.stream oq u = (c.stream oq u).dropLast ++ [noopInsn .kComputeStage true false false false] := rfl
      rw [chunkStreams, split]
      rw [split] at here
      exact Linked.append here ih rfl

theorem pending_linked : Linked (prologue ++ chunkStreams oq u cs) := by
  cases cs with
  | nil =>
      rw [chunkStreams, List.append_nil]
      exact linked_of_stages (by decide)
  | cons c cs =>
      have link (y : Insn) (head : y ∈ (chunkStreams oq u (c :: cs)).head?) : getPipelineStageAll y = .kComputeStage := by
        obtain rfl := Option.some.inj head
        exact @load_compute _ c.load1 rfl rfl
      refine List.isChain_append.mpr ⟨linked_of_stages (by decide), @chunks_linked oq u (c :: cs), fun x x_last y y_head => ?_⟩
      simp [Unlinked, link y y_head]

theorem issued_of_chunks (cs : List AluChunk) {insn : Insn} (mem : insn ∈ chunkStreams oq u cs) : insn.operation.Issued := by
  obtain ⟨i, at_i⟩ := List.getElem?_of_mem mem
  obtain ⟨c, v, -, at_r⟩ := getElem?_chunkStreams cs at_i
  have bound : i % 18 < 18 := Nat.mod_lt _ (by decide)
  generalize i % 18 = r at at_r bound
  interval_cases r <;> obtain rfl := Option.some.inj at_r
  case «0» | «1» | «2» | «3» | «4» | «6» | «8» | «10» | «12» | «14» | «17» =>
    exact fun out => MemoryType.noConfusion out
  all_goals trivial

theorem pending_rewritable (none : (aluAddPending oq cs).runs = []) : (aluAddPending oq cs).insnQueue.Rewritable := by
  rw [pending_buffer none]
  refine ⟨fun insn mem => ?_, fun insn last => ?_, rfl, rfl⟩
  · obtain first | chunk := List.mem_append.mp (List.mem_reverse.mp mem)
    · simp only [prologue, List.mem_cons, List.not_mem_nil, or_false] at first
      obtain rfl | rfl := first
      · exact fun out => MemoryType.noConfusion out
      · trivial
    · exact issued_of_chunks cs chunk
  · rw [List.getLast?_reverse] at last
    obtain rfl := Option.some.inj last
    exact ⟨rfl, rfl⟩

end Addition

end AlkaliFw
