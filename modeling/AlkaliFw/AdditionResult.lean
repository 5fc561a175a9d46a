import AlkaliFw.Delegate
import AlkaliFw.AddPipeline
import AlkaliFw.UopDevice

/-! What `aluAdd` writes, on the runtime with its micro-op cache and the device with its micro-op memory. -/

namespace AlkaliFw
open InOrderStages

namespace VTAALUOp

variable (op : VTAALUOp) (tensors : Tensors) (contents : Contents)

/-- What may come of `aluAdd` on `VtaRuntime` and `UopMemory`; of loops that do not end, nothing does. -/
inductive AluAddUops : ComputeResult → Prop
  | refuses {status : TfLiteStatus} (inputs : op.aluAddInputs tensors contents = .error status) :
      AluAddUops (.returned status none)
  | checkFails {inp1 inp2 : List Int} {fuel : Nat} {cs : List AluChunk}
      (inputs : op.aluAddInputs tensors contents = .ok (inp1, inp2))
      (chunks : chunksFrom (op.numElements tensors) fuel 0 = some cs)
      (check : ((aluAddCalls op.quant.outputquant cs).foldl VtaRuntime.call {}).checked = false) : AluAddUops .aborted
  | runs {inp1 inp2 : List Int} {fuel : Nat} {cs : List AluChunk} {d : UopMemory} {result : DeviceResult}
      (inputs : op.aluAddInputs tensors contents = .ok (inp1, inp2))
      (chunks : chunksFrom (op.numElements tensors) fuel 0 = some cs)
      (check : ((aluAddCalls op.quant.outputquant cs).foldl VtaRuntime.call {}).checked = true)
      (copied : Copied (op.numElements tensors) inp1 inp2 d.mem)
      (run : UopDeviceRuns (fun _ => 0) ((aluAddCalls op.quant.outputquant cs).foldl VtaRuntime.call {}).runs d result) :
      AluAddUops (op.finish tensors result)

end VTAALUOp

section Streams

variable {oq : QuantizationData} {cs : List AluChunk}

/-- With room for all chunks nothing is given to the device before the end. -/
theorem foldl_room {u : UopQueue} {l : List Insn} {checked : Bool} (flushed : u.Flushed)
    (room : l.length + 18 * cs.length + 5 ≤ 2 ^ 21) :
    (cs.foldl (fun q c => c.commands oq q) (resting u l [] checked)).runs = [] := by
  induction cs generalizing u l with
  | nil => rfl
  | cons c cs ih =>
      rw [List.length_cons] at room
      rw [List.foldl_cons, commands_room flushed (by omega)]
      refine ih rfl ?_
      rw [List.length_append, List.length_reverse, length_stream]
      omega

theorem aluAddCommands_one (some : cs ≠ []) (few : cs.length ≤ 100000) :
    (aluAddCommands oq cs).runs = [prologue ++ chunkStreams oq {} cs ++ epilogue] := by
  let start := resting {} [noopInsn .kStoreStage true false false false, noopInsn .kComputeStage true false false false] [] true
  have none : (cs.foldl (fun q c => c.commands oq q) start).runs = [] :=
    foldl_room UopQueue.empty_flushed (show 2 + _ + 5 ≤ _ by omega)
  obtain ⟨s, synced⟩ : ∃ s, (aluAddCommands oq cs).runs = (cs.foldl (fun q c => c.commands oq q) start).runs ++ [s] := ⟨_, rfl⟩
  rw [none, List.nil_append] at synced
  rw [synced, aluAddCommands_stream some synced]

end Streams

section Quantizations

variable {in1 in2 out : TensorParams}

/-- The parameters that the constructor computes shift to the right, while twice the larger input scale is below `2 ^ 21`
output scales. -/
theorem shifts_of_multiplier (zeroOut : IsInt8 out.zeroPoint) (positive : 0 < realOutMultiplier in1 in2 out)
    (bounded : realOutMultiplier in1 in2 out < 2 ^ 14) : (aluQuantization in1 in2 out).outputquant.Shifts := by
  have finite : realOutMultiplier in1 in2 out < 2 ^ 32766 := bounded.trans (pow_lt_pow_right₀ one_lt_two (by decide))
  obtain ⟨zo_low, zo_high⟩ := zeroOut
  have quantized : (aluQuantization in1 in2 out).outputquant = scaleQuantization out.zeroPoint (realOutMultiplier in1 in2 out) := rfl
  obtain ⟨nonneg, small⟩ := multiplier_bounds positive finite
  rw [quantized]
  refine ⟨⟨?_, small⟩, ⟨?_, ?_⟩, ?_⟩
  · change -2 ^ 15 ≤ (computeQuantizationParameters _).1
    omega
  · change -2 ^ 15 ≤ out.zeroPoint
    omega
  · change out.zeroPoint < 2 ^ 15
    omega
  · change -16 ≤ (computeQuantizationParameters _).2 ∧ (computeQuantizationParameters _).2 ≤ 15
    obtain ⟨none, -⟩ | ⟨m, k, eq, few, -⟩ := parameters_spec positive bounded
    · rw [none]
      decide
    · rw [eq]
      dsimp only
      omega

theorem realOutMultiplier_pos (scale1 : 0 < in1.scale) (scaleOut : 0 < out.scale) : 0 < realOutMultiplier in1 in2 out := by
  have larger : 0 < max in1.scale in2.scale := lt_max_of_lt_left scale1
  rw [realOutMultiplier]
  positivity

end Quantizations

/-- An addition of bytes for which the memories have room, with the quantization that the constructor computes. -/
structure Adds (op : VTAALUOp) (tensors : Tensors) (in1 in2 out : TensorParams) : Prop where
  can : CanCompute op tensors
  tiles : TilesFit (op.numElements tensors)
  room : 6 * chunkCount (op.numElements tensors) ≤ vtaUopBuffDepth
  quant : op.quant = aluQuantization in1 in2 out
  scale1 : 0 < in1.scale
  scale2 : 0 < in2.scale
  scaleOut : 0 < out.scale
  zero1 : IsInt8 in1.zeroPoint
  zero2 : IsInt8 in2.zeroPoint
  zeroOut : IsInt8 out.zeroPoint
  bounded : realOutMultiplier in1 in2 out < 2 ^ 14

section Results

variable {op : VTAALUOp} {tensors : Tensors} {contents : Contents} {in1 in2 out : TensorParams} {a b : List Int}

/-- What the operation is to write. -/
def VTAALUOp.sums (op : VTAALUOp) (a b : List Int) : List Int :=
  List.zipWith (fun x y => requantizeResults (simulateRealValue x op.quant.input1quant +
    simulateRealValue y op.quant.input2quant) op.quant.outputquant) a b

theorem inputs_of_adds (h : Adds op tensors in1 in2 out) (data1 : contents op.input1 = some a)
    (data2 : contents op.input2 = some b) (some1 : a ≠ []) (some2 : b ≠ []) :
    op.aluAddInputs tensors contents = .ok (a.map fun x => simulateRealValue x op.quant.input1quant,
      b.map fun x => simulateRealValue x op.quant.input2quant) := by
  have can := h.can
  have passed : ¬((tensors op.input1).numElements ≠ (tensors op.input2).numElements ∨
      (tensors op.input1).numElements ≠ (tensors op.output).numElements ∨
      (tensors op.input1).type ≠ (tensors op.input2).type) := by
    simp only [not_or, ne_eq, not_not]
    exact ⟨can.inputs, can.outputs, can.input1.trans can.input2.symm⟩
  have bytes : ¬(tensors op.input1).type = .kTfLiteInt32 := by
    rw [can.input1]
    decide
  rw [VTAALUOp.aluAddInputs, if_neg passed, if_neg bytes, if_pos can.input1, data1, data2]
  simp [vectorData, some1, some2]

/-- The streams that are given to the device, and what they rest on. -/
theorem streams_of_adds (h : Adds op tensors in1 in2 out) :
    ∃ cs r, (∃ fuel, chunksFrom (op.numElements tensors) fuel 0 = some cs) ∧
      (∀ fuel cs', chunksFrom (op.numElements tensors) fuel 0 = some cs' → cs' = cs) ∧
      r = (aluAddCalls op.quant.outputquant cs).foldl VtaRuntime.call {} ∧ r.checked = true ∧
      r.runs.map Prod.fst = [addStream op.quant.outputquant {} (op.numElements tensors)].map (List.map Insn.linked) ∧
      (∀ x ∈ r.runs, Finds (x.1.map Insn.operation) x.2) ∧
      (∀ insn ∈ addStream op.quant.outputquant {} (op.numElements tensors), insn.operation.InBounds) ∧
      Conveys tlpp (fun _ => 0) (addStream op.quant.outputquant {} (op.numElements tensors)) fun _ => 0 := by
  have int : (op.numElements tensors : Int) < 2 ^ 31 := by exact_mod_cast h.can.int
  have positive : 1 ≤ (op.numElements tensors : Int) := by exact_mod_cast h.can.some
  let cs := (List.range (chunkCount (op.numElements tensors))).map (chunkAt (op.numElements tensors))
  have length : cs.length = chunkCount (op.numElements tensors) := by simp [cs]
  have few : 6 * cs.length ≤ 8192 := length ▸ h.room
  have some : cs ≠ [] := by
    have more : 0 < chunkCount (op.numElements tensors) := lt_chunkCount.mpr (by omega)
    exact List.ne_nil_of_length_pos (length ▸ more)
  obtain ⟨fuel, chunks⟩ := chunks_of_small positive int
  obtain ⟨mirrors, finds⟩ := @calls_find (aluAddCalls op.quant.outputquant cs) aluAdd_plain (by rw [aluAdd_pushes]; exact few)
  rw [aluAdd_calls] at mirrors
  have one := @aluAddCommands_one op.quant.outputquant cs some (by omega)
  have inBounds := operations_inBounds int h.can.fits op.quant.outputquant
  have conveys := (@aluAddCommands_balanced op.quant.outputquant cs).conveys
  rw [one, List.flatten_singleton] at inBounds conveys
  refine ⟨cs, _, ⟨fuel, chunks⟩, fun fuel' cs' chunks' => chunksFrom_unique chunks' chunks, rfl,
    mirrors.checked.trans (aluAddCommands_checked _ (by omega)), ?_, finds, inBounds, conveys⟩
  rw [mirrors.runs, one]
  rfl

theorem sum_of_adds (h : Adds op tensors in1 in2 out) {d : UopMemory} {p : Nat} (byte1 : ∀ x ∈ a, IsInt8 x) (byte2 : ∀ x ∈ b, IsInt8 x)
    (less1 : p < a.length) (less2 : p < b.length)
    (copied : VTAALUOp.Copied (op.numElements tensors) (a.map fun x => simulateRealValue x op.quant.input1quant)
      (b.map fun x => simulateRealValue x op.quant.input2quant) d.mem) :
    d.mem.sum op.quant.outputquant p = requantizeResults (simulateRealValue a[p] op.quant.input1quant +
      simulateRealValue b[p] op.quant.input2quant) op.quant.outputquant := by
  have first : d.mem.dram .vtainput1 p = simulateRealValue a[p] op.quant.input1quant :=
    copied.input1 p _ (by rw [List.getElem?_map, List.getElem?_eq_getElem less1]; rfl)
  have second : d.mem.dram .vtainput2 p = simulateRealValue b[p] op.quant.input2quant :=
    copied.input2 p _ (by rw [List.getElem?_map, List.getElem?_eq_getElem less2]; rfl)
  have quantized : Quantized in1 in2 out a[p] b[p] :=
    ⟨h.scale1, h.scale2, h.scaleOut, h.zero1, h.zero2, h.zeroOut, byte1 _ (List.getElem_mem less1), byte2 _ (List.getElem_mem less2)⟩
  have bounds := sumOf_bounds quantized
  rw [sumOf, ← h.quant] at bounds
  rw [DeviceMemory.sum, first, second, toInt32_of (by omega) (by omega)]

/-- The element-wise sums come out of every schedule of the three stages. -/
theorem addition_result (op : VTAALUOp) (tensors : Tensors) (contents : Contents) (in1 in2 out : TensorParams) (a b : List Int)
    (h : Adds op tensors in1 in2 out) (data1 : contents op.input1 = some a) (data2 : contents op.input2 = some b)
    (valid1 : (tensors op.input1).Valid (some a)) (valid2 : (tensors op.input2).Valid (some b)) :
    (∃ result, op.AluAddUops tensors contents result) ∧
      ∀ result, op.AluAddUops tensors contents result → result = .returned .kTfLiteOk (some (op.sums a b)) := by
  obtain ⟨length1, bytes1⟩ := valid1
  obtain ⟨length2, bytes2⟩ := valid2
  rw [h.can.input1] at bytes1
  rw [h.can.input2] at bytes2
  have positive := h.can.some
  have size1 : a.length = op.numElements tensors := length1
  have size2 : b.length = op.numElements tensors := length2.trans h.can.inputs.symm
  have inputs := inputs_of_adds h data1 data2 (List.ne_nil_of_length_pos (by omega)) (List.ne_nil_of_length_pos (by omega))
  obtain ⟨cs, r, ⟨fuel, chunks⟩, unique, rfl, checked, links, finds, inBounds, conveys⟩ := streams_of_adds h
  rw [← List.flatten_singleton (l := addStream op.quant.outputquant {} (op.numElements tensors))] at inBounds conveys
  constructor
  · obtain ⟨mem', run⟩ := uopRuns_done (d := ⟨copiedMemory _ _, fun _ => {}, fun _ => {}⟩) links finds inBounds conveys
    exact ⟨_, .runs inputs chunks checked (copied _ _ _) run⟩
  · intro result adds
    cases adds with
    | refuses refused => cases inputs.symm.trans refused
    | checkFails _ chunks' check =>
        obtain rfl := unique _ _ chunks'
        cases checked.symm.trans check
    | @runs inp1 inp2 fuel' cs' d device inputs' chunks' _ copied run =>
        obtain rfl := unique _ _ chunks'
        obtain ⟨rfl, rfl⟩ := Prod.mk.inj (Except.ok.inj (inputs.symm.trans inputs'))
        have plain := uopRuns_refine run links finds inBounds
        have ends := runs_not_hangs plain conveys
        have goes := runs_not_aborted plain inBounds
        cases plain with
        | aborts => exact absurd rfl goes
        | stuck => exact absurd rfl ends
        | forever => exact absurd rfl ends
        | next reach complete _ rest =>
            cases rest with
            | none =>
                have int : (op.numElements tensors : Int) < 2 ^ 31 := by exact_mod_cast h.can.int
                have apart := chunks_apart_of_last int h.tiles.2
                have shifts := shifts_of_multiplier h.zeroOut (realOutMultiplier_pos h.scale1 h.scaleOut) h.bounded
                rw [← h.quant] at shifts
                rw [VTAALUOp.finish, VTAALUOp.writeOutput, if_pos h.can.output]
                refine congrArg (fun l => ComputeResult.returned .kTfLiteOk (some l)) (List.ext_getElem ?_ fun p less less' => ?_)
                · rw [List.length_map, List.length_range, VTAALUOp.sums, List.length_zipWith, size1, size2, min_self]
                · rw [List.length_map, List.length_range] at less
                  have result := schedule_result int apart shifts reach complete d.mem p (by exact_mod_cast less)
                  rw [List.getElem_map, List.getElem_range, result, sum_of_adds h bytes1 bytes2 (by omega) (by omega) copied]
                  simp only [VTAALUOp.sums, List.getElem_zipWith]

end Results

/-- Two tensors of two bytes, with scales that differ. -/
def twoBytes : VTAALUOp := ⟨.kTfLiteBuiltinAdd, [0, 1], [2], aluQuantization ⟨1, 3⟩ ⟨1 / 3, 4⟩ ⟨2, -5⟩⟩

theorem twoBytes_adds : Adds twoBytes (fun _ => ⟨.kTfLiteInt8, [2]⟩) ⟨1, 3⟩ ⟨1 / 3, 4⟩ ⟨2, -5⟩ where
  can := ⟨rfl, rfl, Or.inl rfl, rfl, rfl, by decide, by decide, fun even => absurd even (by decide)⟩
  tiles := ⟨by decide, Or.inl (by decide)⟩
  room := by decide
  quant := rfl
  scale1 := by norm_num
  scale2 := by norm_num
  scaleOut := by norm_num
  zero1 := by norm_num [IsInt8]
  zero2 := by norm_num [IsInt8]
  zeroOut := by norm_num [IsInt8]
  bounded := by norm_num [realOutMultiplier, leftShift]

theorem twoBytes_result :
    let contents : Contents := fun i => if i = 0 then some [100, -3] else some [-90, 7]
    (∃ result, twoBytes.AluAddUops (fun _ => ⟨.kTfLiteInt8, [2]⟩) contents result) ∧
      ∀ result, twoBytes.AluAddUops (fun _ => ⟨.kTfLiteInt8, [2]⟩) contents result →
        result = .returned .kTfLiteOk (some (twoBytes.sums [100, -3] [-90, 7])) :=
  addition_result twoBytes (fun _ => ⟨.kTfLiteInt8, [2]⟩) _ ⟨1, 3⟩ ⟨1 / 3, 4⟩ ⟨2, -5⟩ [100, -3] [-90, 7] twoBytes_adds rfl rfl
    ⟨rfl, by norm_num [TfLiteType.Holds, IsInt8]⟩ ⟨rfl, by norm_num [TfLiteType.Holds, IsInt8]⟩

end AlkaliFw
