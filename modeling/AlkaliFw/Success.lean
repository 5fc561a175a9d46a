import AlkaliFw.Board
import AlkaliFw.Ledger

/-! What a completion entry says of the data. No submission of the firmware looks at its
result: a chunk that gets no descriptor is passed over, a command with PSDT other than 0 or
without a buffer for its PRP list is completed, and all entries say success. -/

namespace AlkaliFw
open Resumption

/-- An event other than: a submission finds no descriptor, a transfer finds no list buffer, a
command is completed whose transfer was refused for its PSDT. -/
def Obs.Accepted : Obs → Prop
  | .noDescriptor _ | .noPrpBuffer _ => False
  | .queued _ d p => (d.callback = some (.cqCb, d.owner) → p.xferCb ≠ none → p.sqBuf.psdt = 0)
  | _ => True

instance (o : Obs) : Decidable o.Accepted := by
  unfold Obs.Accepted
  split <;> infer_instance

instance (P : Platform) (S : Sys) (e : Event) : Decidable (SlotKept P S e) := by
  unfold SlotKept
  infer_instance

/-- No submission fails in the step, and the slot of a call with data stays its own. -/
def Accepting (P : Platform) (S : Sys) (e : Event) : Prop := SlotKept P S e ∧ ∀ o ∈ S.news P e, o.Accepted

instance (P : Platform) (S : Sys) (e : Event) : Decidable (Accepting P S e) := by
  unfold Accepting
  infer_instance

def Desc.carriesData (c : Slot) (d : Desc) : Bool :=
  decide (d.owner = c) && match d.localAddr with
    | .ram _ => true
    | _ => false

/-- The data of a command: whatever was submitted has been moved, in order, and the pieces of
the transfer that it asked for cover it without a gap. -/
structure DataMoved (c : Slot) (s : Fw) : Prop where
  finished : ∀ ch, (s.trace.filterMap (Obs.queued? ch)).filter (·.carriesData c) =
    (s.trace.filterMap (Obs.finished? ch)).filter (·.carriesData c)
  whole : ∀ ch, Whole ch (past c s.trace)
  asked : Covers (s.cmds c).dir.chan (past c s.trace) (s.cmds c).xferBase (s.cmds c).xferSize (s.cmds c).xferSize

/-- An entry with status 0, for a command that transfers data, has not been written to the host
or its callback has not run. -/
structure Succeeds (c : Slot) (s : Fw) : Prop where
  data : (s.cmds c).xferCb ≠ none
  status : (s.cmds c).cqBuf.sc = 0 ∧ (s.cmds c).cqBuf.sct = 0
  entry : ∃ d ∈ (s.ch .tx).fifo, d.owner = c ∧ d.callback = some (.cqCb, c)

section

variable {P : Platform} {c : Slot} {S : Sys}

theorem mem_past {o : Obs} {tr : List Obs} (h : o ∈ past c tr) : o ∈ tr := by
  induction tr with
  | nil => cases h
  | cons x tr ih =>
    rw [past] at h
    split at h
    · split at h
      · rw [List.mem_singleton.mp h]
        exact List.mem_cons_self
      · rcases List.mem_cons.mp h with rfl | later
        · exact List.mem_cons_self
        · exact List.mem_cons_of_mem _ (ih later)
    · exact List.mem_cons_of_mem _ (ih h)

/-- A property of events that every step has, the whole history has. -/
theorem Run.events {good : Obs → Prop} {ok : Sys → Event → Prop} {host ram : Nat → UInt8}
    (run : Run P ok (Sys.boot host ram) S) (each : ∀ S e, ok S e → ∀ o ∈ S.news P e, good o) : ∀ o ∈ S.fw.trace, good o := by
  induction run with
  | refl => exact fun _ h => nomatch h
  | step e before met next ih =>
    rw [Sys.trace_eq next before.sound]
    intro o ho
    rcases List.mem_append.mp ho with new | old
    · exact each _ e met o new
    · exact ih o old

/-- A command whose callback is still to come stands, and is not in the hands of a call. -/
theorem Sys.Ledger.waiting {ch : Chan} {d : Desc} {f : Cb} (h : S.Ledger P) (mem : d ∈ (S.fw.ch ch).fifo) (owner : d.owner = c)
    (cb : d.callback = some (f, c)) : Standing P c (S.fw.view c) ∧ d ∈ (S.fw.view c).queue ch := by
  have queue : d ∈ (S.fw.view c).queue ch := List.mem_filter.mpr ⟨mem, decide_eq_true owner⟩
  rcases h.standing c with standing | ⟨call, here, cmd, p, e, k, w⟩
  · exact ⟨standing, queue⟩
  · have plain := (w.plain ch d queue).1
    rw [cb] at plain
    cases plain

/-- What is queued and not finished is still in the FIFO. -/
theorem Tracked.finished {ch : Chan} {s : Fw} (h : Tracked .steady ch s) (good : Desc → Bool)
    (none : ∀ d ∈ (s.ch ch).fifo, good d = false) :
    (s.trace.filterMap (Obs.queued? ch)).filter good = (s.trace.filterMap (Obs.finished? ch)).filter good := by
  obtain ⟨left, phase, moved⟩ := h.phase
  have sub : ∀ d ∈ left, d ∈ (s.ch ch).fifo := by
    generalize s.ch ch = x at phase
    cases phase with
    | idle => exact fun _ h => h
    | busy d rest => exact fun _ h => h
    | done d rest => exact fun _ h => List.mem_cons_of_mem _ h
  have empty : left.reverse.filter good = [] := by
    refine List.filter_eq_nil_iff.mpr fun d hd => ?_
    rw [none d (sub d (List.mem_reverse.mp hd))]
    exact Bool.false_ne_true
  rw [moved, List.filter_append, empty, List.nil_append]

/-- Behind the entry of the command no data is left. -/
theorem Entered.finished {d : Desc} {empty : Prop} (e : Entered P c d (S.fw.cmds c) (past c S.fw.trace) empty)
    (tracked : ∀ ch, Tracked .steady ch S.fw) (tx : (S.fw.view c).queue .tx = [d]) (rx : (S.fw.view c).queue .rx = []) (ch : Chan) :
    (S.fw.trace.filterMap (Obs.queued? ch)).filter (·.carriesData c) =
      (S.fw.trace.filterMap (Obs.finished? ch)).filter (·.carriesData c) := by
  refine (tracked ch).finished _ fun x hx => ?_
  by_cases own : x.owner = c
  · have here : x ∈ (S.fw.view c).queue ch := List.mem_filter.mpr ⟨hx, decide_eq_true own⟩
    cases ch with
    | rx =>
      rw [rx] at here
      cases here
    | tx =>
      rw [tx] at here
      obtain rfl := List.mem_singleton.mp here
      rw [Desc.carriesData, e.loc, Bool.and_false]
  · rw [Desc.carriesData, decide_eq_false own, Bool.false_and]

theorem served_of_accepted (accepted : ∀ o ∈ S.fw.trace, o.Accepted) : Served c (past c S.fw.trace) :=
  ⟨fun bad => accepted _ (mem_past bad), fun bad => accepted _ (mem_past bad)⟩

/-- Success means that the data has moved, in every run in which every submission is accepted. -/
theorem success_dataMoved (P : Platform) (host ram : Nat → UInt8) (S : Sys) (run : Run P (Accepting P) (Sys.boot host ram) S)
    (c : Slot) (success : Succeeds c S.fw) : DataMoved c S.fw := by
  have ledger := run.ledger fun _ _ met => met.1
  have accepted := run.events fun _ _ met => met.2
  obtain ⟨d, mem, owner, cb⟩ := success.entry
  obtain ⟨standing, queue⟩ := ledger.waiting mem owner cb
  have entered := standing.entered queue cb
  have served : Served c (past c S.fw.trace) := served_of_accepted accepted
  obtain ⟨q, posted, -, sqBuf, xferCb, -⟩ := entered.record
  have psdt : (S.fw.cmds c).sqBuf.psdt = 0 := by
    have event := accepted _ (mem_past posted)
    rw [Obs.Accepted, owner] at event
    have zero := event cb (xferCb ▸ success.data)
    rwa [sqBuf] at zero
  obtain ⟨⟨tx, rx⟩, moved⟩ := entered.settled.moved served fun _ => psdt
  obtain ⟨whole, asked⟩ := moved served
  exact ⟨entered.finished run.engine.tracked tx rx, whole, asked success.data⟩

end

/-- A slab of two descriptors. -/
def narrow : Platform := { board (2 ^ 12) with nvmeDmaSlabEntries := 2, nvmeDmaSlabEntries_le := by decide }

/-- Host memory with a vendor command that returns 8 bytes, 4 in each of two pages, and nothing else. -/
def twoPages : Nat → UInt8 := fun a =>
  if a = 0x10000 then 0xC2 else if a = 0x10018 then 0xFC else if a = 0x10019 then 0x0F else if a = 0x1001A then 3
  else if a = 0x10021 then 0x10 else if a = 0x10022 then 3 else if a = 0x10028 then 2 else 0

/-- The first chunk finds no descriptor while two fetches are under way, the second one does. -/
theorem hole_succeeds : ¬∀ (P : Platform) (host ram : Nat → UInt8) (S : Sys), Run P (fun _ _ => True) (Sys.boot host ram) S →
    ∀ c, Succeeds c S.fw → DataMoved c S.fw := by
  intro claim
  have runs : ((Sys.boot twoPages fun _ => 0).exec narrow
      (setUp ++ [.hostWrite (doorbellTail 0 / 4) 1, .tcIrq, .dmaDone .rx, .dmaIrq, .hostWrite (doorbellTail 0 / 4) 3, .tcIrq,
          .reply 0 true] ++ List.replicate 12 .poll ++ [.dmaDone .rx, .dmaIrq] ++ List.replicate 10 .poll ++
        [.dmaDone .rx, .dmaIrq, .dmaDone .tx, .dmaIrq])).map (fun S =>
      decide ((S.fw.cmds 0).xferCb ≠ none ∧ ((S.fw.cmds 0).cqBuf.sc = 0 ∧ (S.fw.cmds 0).cqBuf.sct = 0) ∧
        (∃ d ∈ (S.fw.ch .tx).fifo, d.owner = 0 ∧ d.callback = some (.cqCb, 0)) ∧
        (parts (S.fw.cmds 0).dir.chan (past 0 S.fw.trace)).map (·.off) = [4])) = some true := by decide +kernel
  obtain ⟨S, exec, all⟩ := Option.map_eq_some_iff.mp runs
  obtain ⟨data, status, entry, offs⟩ := of_decide_eq_true all
  have laid := (claim narrow _ _ S ((Run.refl _).exec exec) 0 ⟨data, status, entry⟩).asked.laid
  cases h : parts (S.fw.cmds 0).dir.chan (past 0 S.fw.trace) with
  | nil =>
    rw [h] at offs
    cases offs
  | cons x xs =>
    rw [h] at offs laid
    have four : x.off = 4 := (List.cons.inj offs).1
    exact absurd (four.symm.trans laid.1) (by decide)

/-- An identify command, from its doorbell to its completion entry. -/
theorem identify_dataMoved : ∃ S, Run (board (2 ^ 12)) (Accepting (board (2 ^ 12))) (Sys.boot (fun a => if a = 0x10000 then 6 else 0) fun _ => 0) S ∧
    Succeeds 0 S.fw ∧ DataMoved 0 S.fw := by
  have runs : ((Sys.boot (fun a => if a = 0x10000 then 6 else 0) fun _ => 0).execOk (board (2 ^ 12))
      (fun S e => decide (Accepting (board (2 ^ 12)) S e))
      (setUp ++ [.hostWrite (doorbellTail 0 / 4) 1, .tcIrq, .dmaDone .rx, .dmaIrq, .dmaDone .tx, .dmaIrq])).map (fun S =>
      decide ((S.fw.cmds 0).xferCb ≠ none ∧ ((S.fw.cmds 0).cqBuf.sc = 0 ∧ (S.fw.cmds 0).cqBuf.sct = 0) ∧
        ∃ d ∈ (S.fw.ch .tx).fifo, d.owner = 0 ∧ d.callback = some (.cqCb, 0))) = some true := by decide +kernel
  obtain ⟨S, exec, all⟩ := Option.map_eq_some_iff.mp runs
  obtain ⟨data, status, entry⟩ := of_decide_eq_true all
  have run : Run (board (2 ^ 12)) (Accepting (board (2 ^ 12))) _ S := (Run.refl _).execOk (fun S e h => of_decide_eq_true h) exec
  exact ⟨S, run, ⟨data, status, entry⟩, success_dataMoved _ _ _ S run 0 ⟨data, status, entry⟩⟩

end AlkaliFw
