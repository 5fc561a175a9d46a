import AlkaliFw.DeviceResults

/-! Which nodes `vta-delegate.cpp` takes over, and `VTAALUOp::compute` in `vta-delegate-ops.cpp`, which evaluates them. -/

namespace AlkaliFw

inductive TfLiteType where
  | kTfLiteInt32 | kTfLiteUInt8 | kTfLiteInt8
  | other (code : Nat)
  deriving DecidableEq, Repr

inductive BuiltinCode where
  | kTfLiteBuiltinAdd | kTfLiteBuiltinConv2d
  | other (code : Nat)
  deriving DecidableEq, Repr

inductive TfLiteStatus where
  | kTfLiteOk | kTfLiteDelegateError | kTfLiteUnresolvedOps
  deriving DecidableEq, Repr

structure TfLiteTensor where
  type : TfLiteType
  dims : List Nat
  deriving DecidableEq, Repr

def TfLiteTensor.numElements (t : TfLiteTensor) : Nat := t.dims.prod

structure TfLiteNode where
  inputs : List Nat
  outputs : List Nat
  deriving DecidableEq, Repr

/-- `context->tensors`. -/
abbrev Tensors := Nat → TfLiteTensor

def isNodeSupportedByDelegate (builtinCode : BuiltinCode) (node : TfLiteNode) (tensors : Tensors) : Bool :=
  match builtinCode with
  | .kTfLiteBuiltinAdd =>
    node.inputs.all fun i =>
      ¬((tensors i).type ≠ .kTfLiteInt8 ∧ (tensors i).type ≠ .kTfLiteUInt8 ∧ (tensors i).type ≠ .kTfLiteInt32)
  | _ => false

structure VTAALUOp where
  tfliteop : BuiltinCode
  inputs : List Nat
  outputs : List Nat
  quant : AluQuantization

/-- What `GetTensorData` gives; there may be none. -/
abbrev Contents := Nat → Option (List Int)

/-- The pointer to the elements of a vector; an empty one has none. -/
def vectorData (l : List Int) : Option (List Int) := if l = [] then none else some l

/-- What comes of an operation: a status with what was written to the output, a failed check, or no end. -/
inductive ComputeResult where
  | returned (status : TfLiteStatus) (written : Option (List Int))
  | aborted
  | hangs

namespace VTAALUOp

section

variable (op : VTAALUOp) (tensors : Tensors) (contents : Contents)

def input1 : Nat := op.inputs.getD 0 0

def input2 : Nat := op.inputs.getD 1 0

def output : Nat := op.outputs.getD 0 0

def numElements : Nat := (tensors op.input1).numElements

/-- The checks of `aluAdd`, and the inputs for the device. -/
def aluAddInputs : Except TfLiteStatus (List Int × List Int) :=
  if (tensors op.input1).numElements ≠ (tensors op.input2).numElements ∨
      (tensors op.input1).numElements ≠ (tensors op.output).numElements ∨
      (tensors op.input1).type ≠ (tensors op.input2).type then .error .kTfLiteDelegateError
  else
    let pointers :=
      if (tensors op.input1).type = .kTfLiteInt32 then some (contents op.input1, contents op.input2)
      else if (tensors op.input1).type = .kTfLiteInt8 then
        some (vectorData (((contents op.input1).getD []).map fun x => simulateRealValue x op.quant.input1quant),
          vectorData (((contents op.input2).getD []).map fun x => simulateRealValue x op.quant.input2quant))
      else none
    match pointers with
    | some (some inp1, some inp2) => .ok (inp1, inp2)
    | _ => .error .kTfLiteDelegateError

/-- The buffers after the copies to the device. -/
structure Copied (n : Nat) (inp1 inp2 : List Int) (mem : DeviceMemory) : Prop where
  input1 : ∀ (p : Nat) x, inp1[p]? = some x → mem.dram .vtainput1 p = x
  input2 : ∀ (p : Nat) x, inp2[p]? = some x → mem.dram .vtainput2 p = x
  output : ∀ p < n, mem.dram .vtaoutput p = 0

/-- The conversion of `outdata`; other types are left alone. -/
def writeOutput (type : TfLiteType) (outdata : List Int) : Option (List Int) :=
  if type = .kTfLiteInt8 ∨ type = .kTfLiteInt32 then some outdata else none

/-- After `VTASynchronize`. -/
def finish : DeviceResult → ComputeResult
  | .done mem =>
    .returned .kTfLiteOk
      (writeOutput (tensors op.output).type ((List.range (op.numElements tensors)).map (mem.dram .vtaoutput)))
  | .aborted => .aborted
  | .hangs => .hangs

/-- What may come of `aluAdd`; of loops that do not end, nothing does. -/
inductive AluAdd : ComputeResult → Prop
  | refuses {status : TfLiteStatus} (inputs : op.aluAddInputs tensors contents = .error status) :
      AluAdd (.returned status none)
  | checkFails {inp1 inp2 : List Int} {fuel : Nat} {q : CommandQueue}
      (inputs : op.aluAddInputs tensors contents = .ok (inp1, inp2))
      (queue : aluAddQueue (op.numElements tensors) op.quant.outputquant fuel = some q) (check : q.checked = false) :
      AluAdd .aborted
  | runs {inp1 inp2 : List Int} {fuel : Nat} {q : CommandQueue} {mem : DeviceMemory} {result : DeviceResult}
      (inputs : op.aluAddInputs tensors contents = .ok (inp1, inp2))
      (queue : aluAddQueue (op.numElements tensors) op.quant.outputquant fuel = some q) (check : q.checked = true)
      (copied : Copied (op.numElements tensors) inp1 inp2 mem) (run : DeviceRuns (fun _ => 0) q.runs mem result) :
      AluAdd (op.finish tensors result)

def Compute (result : ComputeResult) : Prop :=
  match op.tfliteop with
  | .kTfLiteBuiltinAdd => op.AluAdd tensors contents result
  | _ => result = .returned .kTfLiteUnresolvedOps none

end

end VTAALUOp

/-- The values of a type. -/
def TfLiteType.Holds : TfLiteType → Int → Prop
  | kTfLiteInt8, x => IsInt8 x
  | kTfLiteUInt8, x => 0 ≤ x ∧ x < 2 ^ 8
  | kTfLiteInt32, x => -2 ^ 31 ≤ x ∧ x < 2 ^ 31
  | other _, _ => True

/-- Only a tensor without elements may have no data. -/
def TfLiteTensor.Valid (t : TfLiteTensor) : Option (List Int) → Prop
  | none => t.numElements = 0
  | some l => l.length = t.numElements ∧ ∀ x ∈ l, t.type.Holds x

section Claim

variable (op : VTAALUOp) (tensors : Tensors)

/-- The operation ends with all elements of the output written, for 32-bit integers with their sums. -/
def Evaluates : Prop :=
  ∀ contents : Contents, (∀ i ∈ op.inputs, (tensors i).Valid (contents i)) →
    (∃ result, op.Compute tensors contents result) ∧
    ∀ result, op.Compute tensors contents result → ∃ l, result = .returned .kTfLiteOk (some l) ∧
      l.length = (tensors op.output).numElements ∧
      ((tensors op.input1).type = .kTfLiteInt32 →
        some l = (contents op.input1).bind fun a =>
          (contents op.input2).map fun b => List.zipWith (fun x y => toInt32 (x + y)) a b)

/-- What an addition has to be: of bytes, of the same number of elements on both sides, which an `int` holds, and
with a last chunk that fits with its padding. -/
structure CanCompute : Prop where
  input1 : (tensors op.input1).type = .kTfLiteInt8
  input2 : (tensors op.input2).type = .kTfLiteInt8
  output : (tensors op.output).type = .kTfLiteInt8 ∨ (tensors op.output).type = .kTfLiteInt32
  inputs : (tensors op.input1).numElements = (tensors op.input2).numElements
  outputs : (tensors op.input1).numElements = (tensors op.output).numElements
  some : 1 ≤ op.numElements tensors
  int : op.numElements tensors < 2 ^ 31
  fits : LastFits (op.numElements tensors)

end Claim

section Inputs

variable {op : VTAALUOp} {tensors : Tensors} {contents : Contents} {inp1 inp2 : List Int}

theorem vectorData_some {l l' : List Int} (held : vectorData l = some l') : l' = l ∧ l ≠ [] := by
  rw [vectorData] at held
  split at held
  · cases held
  · rename_i some
    cases held
    exact ⟨rfl, some⟩

/-- What the checks of `aluAdd` let through. -/
structure Admitted (op : VTAALUOp) (tensors : Tensors) (contents : Contents) : Prop where
  inputs : (tensors op.input1).numElements = (tensors op.input2).numElements
  outputs : (tensors op.input1).numElements = (tensors op.output).numElements
  types : (tensors op.input1).type = (tensors op.input2).type
  type : (tensors op.input1).type = .kTfLiteInt32 ∨ (tensors op.input1).type = .kTfLiteInt8
  data : ∃ a, contents op.input1 = some a
  some : (tensors op.input1).type = .kTfLiteInt8 → contents op.input1 ≠ some []

theorem admitted_of_ok (ok : op.aluAddInputs tensors contents = .ok (inp1, inp2)) : Admitted op tensors contents := by
  rw [VTAALUOp.aluAddInputs] at ok
  split at ok
  · cases ok
  · rename_i passed
    simp only [not_or, ne_eq, not_not] at passed
    obtain ⟨inputs, outputs, types⟩ := passed
    dsimp only at ok
    split at ok
    · rename_i a b pointers
      split at pointers
      · rename_i int32
        simp only [Option.some.injEq, Prod.mk.injEq] at pointers
        exact ⟨inputs, outputs, types, Or.inl int32, ⟨a, pointers.1⟩, fun int8 => absurd (int32.symm.trans int8) (by decide)⟩
      · split at pointers
        · rename_i int8
          simp only [Option.some.injEq, Prod.mk.injEq] at pointers
          have nonempty := (vectorData_some pointers.1).2
          cases data : contents op.input1 with
          | none => simp [data] at nonempty
          | some l =>
              refine ⟨inputs, outputs, types, Or.inr int8, ⟨l, data⟩, fun _ empty => nonempty ?_⟩
              rw [empty]
              rfl
        · cases pointers
    · cases ok

/-- Valid data of a tensor with elements. -/
theorem data_of_valid {t : TfLiteTensor} {data : Option (List Int)} (valid : t.Valid data) (some : 1 ≤ t.numElements) :
    ∃ l, data = Option.some l ∧ l ≠ [] := by
  cases data with
  | none =>
      rw [TfLiteTensor.Valid] at valid
      omega
  | some l =>
      refine ⟨l, rfl, fun empty => ?_⟩
      have length := valid.1
      rw [empty, List.length_nil] at length
      omega

theorem ok_of_canCompute (can : CanCompute op tensors) (valid1 : (tensors op.input1).Valid (contents op.input1))
    (valid2 : (tensors op.input2).Valid (contents op.input2)) :
    ∃ inp1 inp2, op.aluAddInputs tensors contents = .ok (inp1, inp2) := by
  have some := can.some
  rw [VTAALUOp.numElements] at some
  obtain ⟨a, data1, some1⟩ := data_of_valid valid1 some
  obtain ⟨b, data2, some2⟩ := data_of_valid valid2 (can.inputs ▸ some)
  have passed : ¬((tensors op.input1).numElements ≠ (tensors op.input2).numElements ∨
      (tensors op.input1).numElements ≠ (tensors op.output).numElements ∨
      (tensors op.input1).type ≠ (tensors op.input2).type) := by
    simp only [not_or, ne_eq, not_not]
    exact ⟨can.inputs, can.outputs, can.input1.trans can.input2.symm⟩
  have bytes : ¬(tensors op.input1).type = .kTfLiteInt32 := by
    rw [can.input1]
    decide
  rw [VTAALUOp.aluAddInputs, if_neg passed, if_neg bytes, if_pos can.input1, data1, data2]
  simp [vectorData, some1, some2]

end Inputs

section Runs

variable {op : VTAALUOp} {tensors : Tensors} {contents : Contents} {inp1 inp2 : List Int}

theorem chunkCount_le {n : Int} (int : n < 2 ^ 31) : chunkCount n ≤ 262144 := by
  rw [chunkCount]
  omega

/-- The queue of a number of elements that an `int` holds. -/
theorem queue_of_int {n : Nat} (oq : QuantizationData) (some : 1 ≤ n) (int : n < 2 ^ 31) :
    let q := aluAddCommands oq ((List.range (chunkCount n)).map (chunkAt n))
    (∃ fuel, aluAddQueue n oq fuel = Option.some q) ∧ (∀ fuel q', aluAddQueue n oq fuel = Option.some q' → q' = q) ∧
      q.checked = true := by
  obtain ⟨fuel, chunks⟩ := chunks_of_small (n := n) (by omega) (by omega)
  refine ⟨⟨fuel, by rw [aluAddQueue, chunks]; rfl⟩, fun fuel' q' queue => ?_, ?_⟩
  · rw [aluAddQueue, Option.map_eq_some_iff] at queue
    obtain ⟨cs, chunks', rfl⟩ := queue
    rw [chunksFrom_unique chunks' chunks]
  · refine aluAddCommands_checked oq ?_
    rw [List.length_map, List.length_range]
    exact chunkCount_le (by omega)

/-- Memory after the copies. -/
def copiedMemory (inp1 inp2 : List Int) : DeviceMemory where
  acc _ := 0
  dram
    | .vtainput1, p => inp1.getD p 0
    | .vtainput2, p => inp2.getD p 0
    | _, _ => 0

theorem copied (n : Nat) (inp1 inp2 : List Int) : VTAALUOp.Copied n inp1 inp2 (copiedMemory inp1 inp2) where
  input1 p x at_p := by simp [copiedMemory, at_p]
  input2 p x at_p := by simp [copiedMemory, at_p]
  output _ _ := rfl

theorem Copied.fits {n : Nat} {mem : DeviceMemory} (copied : VTAALUOp.Copied n inp1 inp2 mem) : mem.OutputFits n := by
  intro p small
  rw [copied.output p small]
  constructor <;> decide

/-- A run that evaluates the operation comes to the end of the streams. -/
theorem run_of_evaluates (add : op.tfliteop = .kTfLiteBuiltinAdd) (evaluates : Evaluates op tensors)
    (valid : ∀ i ∈ op.inputs, (tensors i).Valid (contents i)) :
    ∃ inp1 inp2 fuel q mem mem' l, op.aluAddInputs tensors contents = .ok (inp1, inp2) ∧
      aluAddQueue (op.numElements tensors) op.quant.outputquant fuel = some q ∧
      VTAALUOp.Copied (op.numElements tensors) inp1 inp2 mem ∧ DeviceRuns (fun _ => 0) q.runs mem (.done mem') ∧
      op.finish tensors (.done mem') = .returned .kTfLiteOk (some l) ∧
      ((tensors op.input1).type = .kTfLiteInt32 → some l = (contents op.input1).bind fun a =>
        (contents op.input2).map fun b => List.zipWith (fun x y => toInt32 (x + y)) a b) := by
  obtain ⟨⟨result, computes⟩, all⟩ := evaluates contents valid
  obtain ⟨l, same, -, sums⟩ := all result computes
  have alu : op.AluAdd tensors contents result := by
    rw [VTAALUOp.Compute, add] at computes
    exact computes
  cases alu with
  | refuses => cases same
  | checkFails => cases same
  | @runs inp1 inp2 fuel q mem device inputs queue check copied run =>
      cases device with
      | done mem' => exact ⟨inp1, inp2, fuel, q, mem, mem', l, inputs, queue, copied, run, same, sums⟩
      | aborted => cases same
      | hangs => cases same

theorem valid_replicate (t : TfLiteTensor) {x : Int} (holds : t.type.Holds x) :
    t.Valid (some (List.replicate t.numElements x)) :=
  ⟨List.length_replicate, fun y mem => by rwa [List.eq_of_mem_replicate mem]⟩

theorem zero_holds (type : TfLiteType) : type.Holds 0 := by
  cases type <;> simp [TfLiteType.Holds, IsInt8]

theorem finish_written {mem' : DeviceMemory} {l : List Int}
    (written : op.finish tensors (.done mem') = .returned .kTfLiteOk (some l)) :
    ((tensors op.output).type = .kTfLiteInt8 ∨ (tensors op.output).type = .kTfLiteInt32) ∧
      l = (List.range (op.numElements tensors)).map (mem'.dram .vtaoutput) := by
  simp only [VTAALUOp.finish, ComputeResult.returned.injEq, true_and, VTAALUOp.writeOutput] at written
  split at written
  · rename_i type
    exact ⟨type, (Option.some.inj written).symm⟩
  · cases written

/-- The sums of 32-bit integers do not fit into the results of the device. -/
theorem not_int32_of_evaluates (add : op.tfliteop = .kTfLiteBuiltinAdd) (evaluates : Evaluates op tensors)
    (some : 1 ≤ op.numElements tensors) (int32 : (tensors op.input1).type = .kTfLiteInt32)
    (types : (tensors op.input1).type = (tensors op.input2).type)
    (sizes : (tensors op.input1).numElements = (tensors op.input2).numElements) : False := by
  let large (k : Nat) : Int := if (tensors k).type = .kTfLiteInt32 then 1000 else 0
  have holds (k : Nat) : (tensors k).type.Holds (large k) := by
    by_cases here : (tensors k).type = .kTfLiteInt32
    · simp only [large, here, if_true, TfLiteType.Holds]
      omega
    · simp only [large, here, if_false]
      exact zero_holds _
  obtain ⟨inp1, inp2, fuel, q, mem, mem', l, -, -, copied, device, written, sums⟩ :=
    @run_of_evaluates op tensors (fun k => Option.some (List.replicate (tensors k).numElements (large k))) add evaluates
      fun k _ => valid_replicate _ (holds k)
  have fits := done_fits (Copied.fits copied) device
  have first : l[0]? = Option.some (mem'.dram .vtaoutput 0) := by
    rw [(finish_written written).2, List.getElem?_map, List.getElem?_range some]
    rfl
  have sum : l[0]? = Option.some 2000 := by
    have list := Option.some.inj (sums int32)
    have size : 0 < (tensors op.input1).numElements := some
    simp only [large, ← types, int32, if_true, ← sizes] at list
    rw [list]
    simp [size, toInt32]
  have small := (fits 0 some).2
  rw [first, Option.some.injEq] at sum
  omega

/-- An empty tensor without data is refused. -/
theorem some_of_evaluates (add : op.tfliteop = .kTfLiteBuiltinAdd) (evaluates : Evaluates op tensors) :
    1 ≤ op.numElements tensors := by
  by_contra none
  let contents (k : Nat) : Option (List Int) :=
    if (tensors k).numElements = 0 then .none else some (List.replicate (tensors k).numElements 0)
  have valid (k : Nat) : (tensors k).Valid (contents k) := by
    by_cases here : (tensors k).numElements = 0
    · simp only [contents, here, if_true]
      exact here
    · simp only [contents, here, if_false]
      exact valid_replicate _ (zero_holds _)
  obtain ⟨inp1, inp2, fuel, q, mem, mem', l, inputs, -⟩ :=
    @run_of_evaluates op tensors contents add evaluates fun k _ => valid k
  obtain ⟨a, data⟩ := (admitted_of_ok inputs).data
  have empty : (tensors op.input1).numElements = 0 := by
    rw [VTAALUOp.numElements] at none
    omega
  simp only [contents, empty, if_true] at data
  cases data

theorem canCompute_of_evaluates (add : op.tfliteop = .kTfLiteBuiltinAdd) (evaluates : Evaluates op tensors) :
    CanCompute op tensors := by
  obtain ⟨inp1, inp2, fuel, q, mem, mem', l, inputs, queue, copied, device, written, -⟩ :=
    @run_of_evaluates op tensors (fun k => some (List.replicate (tensors k).numElements 0)) add evaluates
      fun k _ => valid_replicate _ (zero_holds _)
  have admitted := admitted_of_ok inputs
  have some := some_of_evaluates add evaluates
  have bytes : (tensors op.input1).type = .kTfLiteInt8 :=
    admitted.type.resolve_left fun int32 =>
      not_int32_of_evaluates add evaluates some int32 admitted.types admitted.inputs
  have int : op.numElements tensors < 2 ^ 31 := by
    by_contra large
    rw [aluAddQueue, chunksFrom_large (by omega) fuel (by omega)] at queue
    cases queue
  refine ⟨bytes, admitted.types ▸ bytes, (finish_written written).1, admitted.inputs, admitted.outputs, some, int, ?_⟩
  by_contra large
  obtain ⟨-, unique, -⟩ := queue_of_int op.quant.outputquant some int
  obtain rfl := unique fuel q queue
  obtain ⟨insn, ran, out⟩ := operation_outOfBounds (by omega) (by omega) large op.quant.outputquant
  exact out (runs_inBounds device insn ran)

theorem evaluates_of_canCompute (add : op.tfliteop = .kTfLiteBuiltinAdd) (mem1 : op.input1 ∈ op.inputs)
    (mem2 : op.input2 ∈ op.inputs) (can : CanCompute op tensors) : Evaluates op tensors := by
  intro contents valid
  obtain ⟨inp1, inp2, inputs⟩ := ok_of_canCompute can (valid _ mem1) (valid _ mem2)
  obtain ⟨⟨fuel, queue⟩, unique, checked⟩ := queue_of_int op.quant.outputquant can.some can.int
  have int : (op.numElements tensors : Int) < 2 ^ 31 := by
    have := can.int
    omega
  have conveys := (@aluAddCommands_balanced op.quant.outputquant
    ((List.range (chunkCount (op.numElements tensors))).map (chunkAt (op.numElements tensors)))).conveys
  have inBounds := operations_inBounds int can.fits op.quant.outputquant
  constructor
  · obtain ⟨mem', run⟩ := exists_done conveys inBounds (copiedMemory inp1 inp2)
    refine ⟨op.finish tensors (.done mem'), ?_⟩
    rw [VTAALUOp.Compute, add]
    exact .runs inputs queue checked (copied _ inp1 inp2) run
  · intro result computes
    rw [VTAALUOp.Compute, add] at computes
    cases computes with
    | refuses refused => cases inputs.symm.trans refused
    | checkFails _ queue' check =>
        obtain rfl := unique _ _ queue'
        cases checked.symm.trans check
    | @runs _ _ _ q mem device _ queue' check copied run =>
        obtain rfl := unique _ _ queue'
        have ends := runs_not_hangs run conveys
        have goes := runs_not_aborted run inBounds
        cases device with
        | aborted => exact absurd rfl goes
        | hangs => exact absurd rfl ends
        | done mem' =>
            refine ⟨(List.range (op.numElements tensors)).map (mem'.dram .vtaoutput), ?_, ?_, fun int32 => ?_⟩
            · rw [VTAALUOp.finish, VTAALUOp.writeOutput, if_pos can.output]
            · rw [List.length_map, List.length_range]
              exact can.outputs
            · cases can.input1.symm.trans int32

theorem supported_of_canCompute {node : TfLiteNode} {i j : Nat} (inputs : node.inputs = [i, j])
    (type1 : (tensors i).type = .kTfLiteInt8) (type2 : (tensors j).type = .kTfLiteInt8) :
    isNodeSupportedByDelegate .kTfLiteBuiltinAdd node tensors = true := by
  simp [isNodeSupportedByDelegate, inputs, type1, type2]

end Runs

/-- The operation that `Init` makes of a node; the constructor fills in the quantization. -/
def TfLiteNode.aluOp (node : TfLiteNode) (builtinCode : BuiltinCode) (quant : AluQuantization) : VTAALUOp :=
  ⟨builtinCode, node.inputs, node.outputs, quant⟩

/-- Which of the accepted additions are evaluated. -/
theorem supported_evaluates_iff (tensors : Tensors) (i j o : Nat) (quant : AluQuantization) :
    (isNodeSupportedByDelegate .kTfLiteBuiltinAdd ⟨[i, j], [o]⟩ tensors = true ∧
      Evaluates (TfLiteNode.aluOp ⟨[i, j], [o]⟩ .kTfLiteBuiltinAdd quant) tensors) ↔
      CanCompute (TfLiteNode.aluOp ⟨[i, j], [o]⟩ .kTfLiteBuiltinAdd quant) tensors := by
  constructor
  · rintro ⟨-, evaluates⟩
    exact canCompute_of_evaluates rfl evaluates
  · intro can
    refine ⟨supported_of_canCompute rfl can.input1 can.input2, ?_⟩
    exact evaluates_of_canCompute rfl List.mem_cons_self (List.mem_cons_of_mem _ List.mem_cons_self) can

/-- Two tensors of one unsigned byte are accepted, and their addition is refused when it is evaluated. -/
theorem unsigned_accepted_but_refused : ¬∀ (tensors : Tensors) (i j o : Nat) (quant : AluQuantization),
    isNodeSupportedByDelegate .kTfLiteBuiltinAdd ⟨[i, j], [o]⟩ tensors = true →
      Evaluates (TfLiteNode.aluOp ⟨[i, j], [o]⟩ .kTfLiteBuiltinAdd quant) tensors := by
  intro claim
  have evaluates := claim (fun _ => ⟨.kTfLiteUInt8, [1]⟩) 0 1 2 ⟨{}, {}, {}⟩ (by decide)
  obtain ⟨-, all⟩ := evaluates (fun _ => some [0]) fun _ _ => by simp [TfLiteTensor.Valid, TfLiteTensor.numElements, TfLiteType.Holds]
  obtain ⟨l, same, -⟩ := all (.returned .kTfLiteDelegateError none) (.refuses rfl)
  cases same

end AlkaliFw
