import AlkaliFw.CommandStreams
import AlkaliFw.SimulatedValue

/-! What comes of streams that together find their tokens: the device neither hangs, nor aborts unless an
operation is out of bounds. -/

namespace AlkaliFw
open InOrderStages

section Streams

variable {first left : DepQueue → Nat} {s rest : List Insn}

/-- The tokens between two parts of a program. -/
theorem conveys_append (conveys : Conveys tlpp first (s ++ rest) left) :
    ∃ mid, Conveys tlpp first s mid ∧ Conveys tlpp mid rest left := by
  have each (k : DepQueue) : ∃ t, tally (first k) (s.map (effect tlpp k)) = some t ∧
      tally t (rest.map (effect tlpp k)) = some (left k) := by
    have result := conveys k
    rwa [List.map_append, tally_append, Option.bind_eq_some_iff] at result
  choose mid before after using each
  exact ⟨mid, before, after⟩

variable {st : State Insn CoreType DepQueue}

/-- What is left when all of a stream ran. -/
theorem tokens_of_complete {mid : DepQueue → Nat} (conveys : Conveys tlpp first s mid)
    (reach : Relation.ReflTransGen (Step tlpp) (startWith tlpp first s) st) (complete : ∀ core, st.queue core = []) :
    st.tokens = mid := by
  have inv := inv_of_reach reach
  exact funext (inv.finished conveys (inv.ran_of_empty complete)).tokens

theorem mem_of_done (reach : Relation.ReflTransGen (Step tlpp) (startWith tlpp first s) st) {x : Insn × Nat}
    (ran : x ∈ st.done) : x.1 ∈ s :=
  List.mem_of_getElem? (List.mem_zipIdx_iff_getElem?.mp ((inv_of_reach reach).mem_done ran))

end Streams

section Results

variable {tokens left : DepQueue → Nat} {streams : List (List Insn)} {mem mem' : DeviceMemory} {result : DeviceResult}

theorem runs_not_hangs (run : DeviceRuns tokens streams mem result) (conveys : Conveys tlpp tokens streams.flatten left) :
    result ≠ .hangs := by
  induction run with
  | none => exact fun same => nomatch same
  | @next tokens s rest mem st result reach complete inBounds runs ih =>
      rw [List.flatten_cons] at conveys
      obtain ⟨mid, here, later⟩ := conveys_append conveys
      refine ih ?_
      rwa [tokens_of_complete here reach complete]
  | aborts => exact fun same => nomatch same
  | @stuck tokens s rest mem st core reach stop waits =>
      rw [List.flatten_cons] at conveys
      obtain ⟨mid, here, -⟩ := conveys_append conveys
      exact absurd ((here.finished_of_stuck reach stop).nothingWaits core) waits
  | forever run first steps => exact (not_forever first steps).elim

theorem runs_not_aborted (run : DeviceRuns tokens streams mem result)
    (inBounds : ∀ insn ∈ streams.flatten, insn.operation.InBounds) : result ≠ .aborted := by
  induction run with
  | none => exact fun same => nomatch same
  | next reach complete inBounds' runs ih =>
      rw [List.flatten_cons] at inBounds
      exact ih fun insn later => inBounds insn (List.mem_append_right _ later)
  | aborts reach ran out =>
      rw [List.flatten_cons] at inBounds
      exact absurd (inBounds _ (List.mem_append_left _ (mem_of_done reach ran))) out
  | stuck => exact fun same => nomatch same
  | forever => exact fun same => nomatch same

/-- A device that comes to the end ran everything, within the bounds. -/
theorem runs_inBounds (run : DeviceRuns tokens streams mem (.done mem')) :
    ∀ insn ∈ streams.flatten, insn.operation.InBounds := by
  generalize eq : DeviceResult.done mem' = result at run
  induction run with
  | none => simp
  | next reach complete inBounds runs ih =>
      intro insn present
      rw [List.flatten_cons] at present
      obtain here | later := List.mem_append.mp present
      · obtain ⟨i, at_i⟩ := List.getElem?_of_mem here
        exact inBounds (insn, i) ((inv_of_reach reach).ran_of_empty complete _ (List.mem_zipIdx_iff_getElem?.mpr at_i))
      · exact ih eq insn later
  | aborts => cases eq
  | stuck => cases eq
  | forever => cases eq

theorem exists_done (conveys : Conveys tlpp tokens streams.flatten left)
    (inBounds : ∀ insn ∈ streams.flatten, insn.operation.InBounds) (mem : DeviceMemory) :
    ∃ mem', DeviceRuns tokens streams mem (.done mem') := by
  induction streams generalizing tokens mem with
  | nil => exact ⟨mem, .none tokens mem⟩
  | cons s rest ih =>
      rw [List.flatten_cons] at conveys inBounds
      obtain ⟨mid, here, later⟩ := conveys_append conveys
      obtain ⟨st, reach, finished⟩ := here.exists_finished
      obtain ⟨mem', runs⟩ := ih later (fun insn present => inBounds insn (List.mem_append_right _ present))
        (mem.runInsns st.done)
      refine ⟨mem', .next reach finished.nothingWaits (fun x ran => ?_) ?_⟩
      · exact inBounds _ (List.mem_append_left _ (mem_of_done reach ran))
      · rwa [funext finished.tokens]

end Results

/-- The results are of eight bits. -/
def DeviceMemory.OutputFits (mem : DeviceMemory) (n : Nat) : Prop := ∀ p < n, IsInt8 (mem.dram .vtaoutput p)

section Output

variable {mem : DeviceMemory} {n : Nat}

theorem toInt8_fits (x : Int) : IsInt8 (toInt8 x) := by
  rw [toInt8]
  constructor <;> omega

theorem storeUnit_fits (fits : mem.OutputFits n) (m : MemInsn) (y x : Nat) : (mem.storeUnit m y x).OutputFits n := by
  intro p small
  change IsInt8 (if _ then _ else _)
  split
  · exact toInt8_fits _
  · exact fits p small

theorem foldl_fits {β : Type} {step : DeviceMemory → β → DeviceMemory} {mem : DeviceMemory} (fits : mem.OutputFits n)
    (each : ∀ mem b, DeviceMemory.OutputFits mem n → (step mem b).OutputFits n) (l : List β) :
    (l.foldl step mem).OutputFits n := by
  induction l generalizing mem with
  | nil => exact fits
  | cons b l ih =>
      rw [List.foldl_cons]
      exact ih (each mem b fits)

/-- The output is written by stores only. -/
theorem runInsn_fits (fits : mem.OutputFits n) (insn : Insn) : (mem.runInsn insn).OutputFits n := by
  cases operation : insn.operation with
  | load m =>
      simp only [DeviceMemory.runInsn, operation, DeviceMemory.runLoad]
      split
      · exact fits
      · split <;> exact fits
  | store m =>
      simp only [DeviceMemory.runInsn, operation, DeviceMemory.runStore]
      split
      · exact fits
      · exact foldl_fits fits (fun mem y fits => foldl_fits fits (fun mem x fits => storeUnit_fits fits m y x) _) _
  | alu uopBgn uopEnd kernel =>
      simp only [DeviceMemory.runInsn, operation, DeviceMemory.runALU]
      refine foldl_fits fits (fun mem x fits => ?_) _
      exact fits
  | finish =>
      simp only [DeviceMemory.runInsn, operation]
      exact fits

theorem done_fits {tokens : DepQueue → Nat} {streams : List (List Insn)} {mem' : DeviceMemory} (fits : mem.OutputFits n)
    (run : DeviceRuns tokens streams mem (.done mem')) : mem'.OutputFits n := by
  generalize eq : DeviceResult.done mem' = result at run
  induction run with
  | none =>
      cases eq
      exact fits
  | next reach complete inBounds runs ih => exact ih (foldl_fits fits (fun mem x fits => runInsn_fits fits x.1) _) eq
  | aborts => cases eq
  | stuck => cases eq
  | forever => cases eq

end Output

end AlkaliFw
