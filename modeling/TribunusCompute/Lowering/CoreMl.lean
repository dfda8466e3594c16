import TribunusCompute.Library.LittleEndian
import TribunusCompute.Lowering.Mil
import TribunusCompute.Lowering.Scheduled

/-!
# Lowering a region to MIL

Tensors of a region are bound to names of MIL values while its operations are lowered one after
another: an emitter stages an operation of the program, and the stage is committed whole.
Constants are pooled by their contents.
-/
namespace TribunusCompute.Lowering

open Outcome MilSpec

/-! ### Parameters -/

inductive Opcode
  | constant
  | identity
  | add
  | multiply
  | matmul
  | reshape
  | transpose
  | softmax
  | silu
  deriving DecidableEq, Repr

/-- The attributes of an operation; the data of a constant by its bits. -/
inductive OpAttrs
  | constant (data : List UInt32) (shape : List UInt32)
  | identity
  | add
  | multiply
  | matmul (transposeX transposeY : Bool)
  | reshape (targetShape : List Int64)
  | transpose (permutation : List UInt32)
  | softmax (axis : Int64)
  | silu
  deriving DecidableEq

structure ScheduledOp where
  opId : OperationId
  opcode : Opcode
  inputs : List TensorId
  outputs : List TensorId
  attrs : OpAttrs
  deriving DecidableEq

inductive PrecisionPolicy
  | f32
  | fp16
  deriving DecidableEq, Repr

structure NamedDim where
  name : String
  size : UInt32
  deriving DecidableEq

/-- How a tensor shape is constrained. -/
inductive ShapePolicy
  | fixed (shape : List UInt32)
  | bounded (default min max : List UInt32)
  | enumerated (default : List UInt32) (alternatives : List (List UInt32))
  | symbolic (namedDims : List NamedDim)
  deriving DecidableEq

/-- Why a policy is refused; only fixed shapes are accepted. -/
def ShapePolicy.violation : ShapePolicy → Option String
  | .fixed _ => none
  | .bounded .. => some "bounded shapes not supported in this gate"
  | .enumerated .. => some "enumerated shapes not supported in this gate"
  | .symbolic _ => some "symbolic shapes not supported in this gate"

inductive StorageEncoding
  | f32LittleEndian
  | fp16LittleEndian
  | u8
  | i32
  deriving DecidableEq, Repr

inductive CoreMlTarget
  | macOS13
  | macOS14
  | macOS15
  deriving DecidableEq, Repr

def CoreMlTarget.opsetIdentifier : CoreMlTarget → String
  | .macOS13 => "CoreML6"
  | .macOS14 => "CoreML7"
  | .macOS15 => "CoreML8"

inductive LoweringDiagnostic
  | shapePolicyUnsupported (opId : OperationId) (policy : String)
  | constraintViolation (opId : OperationId) (constraint detail : String)
  | warning (opId : OperationId) (message : String)
  deriving DecidableEq

namespace LoweringDiagnostic

def isFatal : LoweringDiagnostic → Bool
  | .warning .. => false
  | _ => true

def message : LoweringDiagnostic → String
  | .shapePolicyUnsupported opId policy =>
    s!"op OperationId({opId.id}): shape policy '{policy}' not supported"
  | .constraintViolation opId constraint detail =>
    s!"op OperationId({opId.id}): constraint '{constraint}' violated: {detail}"
  | .warning opId message => s!"op OperationId({opId.id}): {message}"

end LoweringDiagnostic

structure MilValueRef where
  ssaName : String
  valueType : ValueType
  producingOp : String
  outputIndex : ℕ
  deriving DecidableEq

def MilValueRef.new (ssaName : String) (valueType : ValueType) (producingOp : String) :
    MilValueRef :=
  ⟨ssaName, valueType, producingOp, 0⟩

structure TensorMeta where
  dtype : DataType
  shapePolicy : ShapePolicy
  isInput : Bool
  isOutput : Bool
  isConstant : Bool
  deriving DecidableEq

structure OpInventoryEntry where
  scheduledOpId : OperationId
  milOpType : String
  inputBindings : List (String × MilValueRef)
  outputBindings : List (String × MilValueRef)
  outputTypes : List ValueType
  opset : String
  legal : Bool

structure ConstantKey where
  dtype : DataType
  shape : List UInt32
  encoding : StorageEncoding
  payloadSha256 : String
  deriving DecidableEq

def ConstantKey.ofData (sha256 : List UInt8 → String) (data shape : List UInt32) :
    ConstantKey where
  dtype := .float32
  shape
  encoding := .f32LittleEndian
  payloadSha256 := sha256 (data.flatMap fun v => LittleEndian.encode 4 v.toNat)

structure StagedEmission where
  milOperation : Option Operation
  proposedOutputs : List (TensorId × MilValueRef)
  newConstants : List (ConstantKey × MilValueRef)
  inventory : OpInventoryEntry

/-! ### The context -/

structure CoreMlLoweringCtx where
  builder : MilBuilder
  valueBindings : AList fun _ : TensorId => MilValueRef
  constantPool : AList fun _ : ConstantKey => MilValueRef
  tensorMeta : AList fun _ : TensorId => TensorMeta
  target : CoreMlTarget
  precision : PrecisionPolicy
  diagnostics : List LoweringDiagnostic
  ssaCounter : ℕ
  regionIdentity : String

structure MilLoweringReceipt where
  programDigest : String
  opCount : ℕ
  constantCount : ℕ
  warnings : List LoweringDiagnostic
  opset : String

namespace CoreMlLoweringCtx

def new (funcName regionIdentity : String) (target : CoreMlTarget)
    (precision : PrecisionPolicy) : CoreMlLoweringCtx where
  builder := (MilBuilder.new funcName).setOpset target.opsetIdentifier
  valueBindings := ∅
  constantPool := ∅
  tensorMeta := ∅
  target
  precision
  diagnostics := []
  ssaCounter := 0
  regionIdentity

/-- An error of the region with one fatal diagnostic, as it is displayed. -/
def constraintViolation {α : Type} (ctx : CoreMlLoweringCtx) (opId : OperationId)
    (constraint detail : String) : Outcome α :=
  let diagnostic := LoweringDiagnostic.constraintViolation opId constraint detail
  report s!"CoreMlLoweringError [{ctx.regionIdentity}]\n  fatal: {diagnostic.message}"

def registerInput (ctx : CoreMlLoweringCtx) (id : TensorId) (name : String)
    (shape : List UInt32) (dtype : DataType) : CoreMlLoweringCtx :=
  let shapeI64 := shape.map fun s => s.toUInt64.toInt64
  let type := valueTypeTensor (tensorType dtype shapeI64)
  { ctx with
    tensorMeta := ctx.tensorMeta.insert id ⟨dtype, .fixed shape, true, false, false⟩
    builder := ctx.builder.input name dtype shapeI64
    valueBindings := ctx.valueBindings.insert id (.new name type "input") }

def freshSsaName (ctx : CoreMlLoweringCtx) (opId : OperationId) (outputIndex : ℕ) :
    String × CoreMlLoweringCtx :=
  (s!"op_{opId.id}_{outputIndex}", { ctx with ssaCounter := ctx.ssaCounter + 1 })

def requireInput (ctx : CoreMlLoweringCtx) (opId : OperationId) (idx : ℕ)
    (inputs : List TensorId) : Outcome MilValueRef :=
  match inputs[idx]? with
  | none => ctx.constraintViolation opId "input_count"
      s!"expected input[{idx}], found {inputs.length} inputs"
  | some inputId =>
    match ctx.valueBindings.lookup inputId with
    | none => ctx.constraintViolation opId "input_bound"
        s!"input tensor TensorId({inputId.id}) not bound to any MIL value"
    | some ref => .ok ref

/-- A stage is committed whole: its outputs must not be bound yet. -/
def commit (ctx : CoreMlLoweringCtx) (staged : StagedEmission) : Outcome CoreMlLoweringCtx := do
  staged.proposedOutputs.forM fun proposed =>
    if proposed.1 ∈ ctx.valueBindings then
      ctx.constraintViolation ⟨proposed.1.id⟩ "output_already_bound"
        s!"tensor TensorId({proposed.1.id}) already has a MIL value binding"
    else .ok ()
  return { ctx with
    valueBindings := staged.proposedOutputs.foldl
      (fun bindings proposed => bindings.insert proposed.1 proposed.2) ctx.valueBindings
    constantPool := staged.newConstants.foldl
      (fun pool constant => pool.insert constant.1 constant.2) ctx.constantPool
    builder := staged.milOperation.elim ctx.builder ctx.builder.operation }

/-- The outputs of the block are the values that the region's outputs are bound to. -/
def finalize (ctx : CoreMlLoweringCtx) (region : ScheduledRegion) :
    Outcome (MilBuilder × MilLoweringReceipt) := do
  let builder ← region.outputs.foldlM (fun builder outputId =>
    match ctx.valueBindings.lookup outputId with
    | some ref => .ok (MilBuilder.output builder ref.ssaName)
    | none => ctx.constraintViolation ⟨outputId.id⟩ "output_unbound"
        s!"region output tensor TensorId({outputId.id}) has no MIL binding") ctx.builder
  return (builder, {
    programDigest := s!"mil_v1_{region.outputs.length}"
    opCount := ctx.ssaCounter
    constantCount := ctx.constantPool.entries.length
    warnings := ctx.diagnostics.filter fun diagnostic => !diagnostic.isFatal
    opset := ctx.target.opsetIdentifier })

end CoreMlLoweringCtx

/-! ### Emitters -/

def ScheduledOp.firstOutput (op : ScheduledOp) : Outcome TensorId :=
  match op.outputs with
  | outputId :: _ => .ok outputId
  | [] => panics

namespace OpBuilder

/-- What an emitter stages, and the context with the name it took. -/
abbrev Emission := Outcome (StagedEmission × CoreMlLoweringCtx)

def wrongAttrs {α : Type} (ctx : CoreMlLoweringCtx) (op : ScheduledOp) (expected : String) :
    Outcome α :=
  ctx.constraintViolation op.opId "op_attrs" s!"expected {expected}"

/-- The inputs of an operation: values under the names of its parameters, and immediates. -/
def stageInputs (operands : List (String × MilValueRef)) (constants : List (String × Argument)) :
    AList fun _ : String => Argument :=
  let named := operands.map fun operand => (operand.1, namedArg operand.2.ssaName)
  (named ++ constants).foldl (fun inputs input => inputs.insert input.1 input.2) ∅

def stage (ctx : CoreMlLoweringCtx) (op : ScheduledOp) (milType ssa : String)
    (operands : List (String × MilValueRef)) (constants : List (String × Argument))
    (type : ValueType) : Emission := do
  let milOp := makeOperation milType ssa (stageInputs operands constants) [(ssa, type)] ∅
  let valueRef := MilValueRef.new ssa type milType
  let outputId ← op.firstOutput
  return ({
    milOperation := some milOp
    proposedOutputs := [(outputId, valueRef)]
    newConstants := []
    inventory := {
      scheduledOpId := op.opId
      milOpType := milType
      inputBindings := operands
      outputBindings := [(ssa, valueRef)]
      outputTypes := [type]
      opset := ctx.target.opsetIdentifier
      legal := true } }, ctx)

def emitUnary (ctx : CoreMlLoweringCtx) (op : ScheduledOp) (milType : String)
    (constants : List (String × Argument)) (type : MilValueRef → ValueType) : Emission := do
  let fresh := ctx.freshSsaName op.opId 0
  let inputRef ← ctx.requireInput op.opId 0 op.inputs
  stage fresh.2 op milType fresh.1 [("x", inputRef)] constants (type inputRef)

def emitPair (ctx : CoreMlLoweringCtx) (op : ScheduledOp) (milType : String)
    (constants : List (String × Argument)) (type : MilValueRef → ValueType) : Emission := do
  let fresh := ctx.freshSsaName op.opId 0
  let aRef ← ctx.requireInput op.opId 0 op.inputs
  let bRef ← ctx.requireInput op.opId 1 op.inputs
  stage fresh.2 op milType fresh.1 [("x", aRef), ("y", bRef)] constants (type aRef)

/-- A constant is emitted once; where its contents are pooled, the pooled value is bound. -/
def emitConstant (sha256 : List UInt8 → String) (ctx : CoreMlLoweringCtx) (op : ScheduledOp) :
    Emission :=
  match op.attrs with
  | .constant data shape => do
    let key := ConstantKey.ofData sha256 data shape
    match ctx.constantPool.lookup key with
    | some existing => do
      let outputId ← op.firstOutput
      return ({
        milOperation := none
        proposedOutputs := [(outputId, existing)]
        newConstants := []
        inventory := {
          scheduledOpId := op.opId
          milOpType := "const"
          inputBindings := []
          outputBindings := [(key.payloadSha256, existing)]
          outputTypes := [existing.valueType]
          opset := ctx.target.opsetIdentifier
          legal := true } },
        { ctx with valueBindings := ctx.valueBindings.insert outputId existing })
    | none => do
      let fresh := ctx.freshSsaName op.opId 0
      let ssa := fresh.1
      let type := valueTypeTensor
        (tensorType .float32 (shape.map fun s => s.toUInt64.toInt64))
      let attrs := ((∅ : AList fun _ : String => Value).insert "name" (stringAttr ssa)).insert
        "val" ⟨type, .floats data⟩
      let milOp := makeOperation "const" ssa ∅ [(ssa, type)] attrs
      let valueRef : MilValueRef := ⟨ssa, type, "const", 0⟩
      let outputId ← op.firstOutput
      return ({
        milOperation := some milOp
        proposedOutputs := [(outputId, valueRef)]
        newConstants := [(key, valueRef)]
        inventory := {
          scheduledOpId := op.opId
          milOpType := "const"
          inputBindings := []
          outputBindings := [(ssa, valueRef)]
          outputTypes := [type]
          opset := ctx.target.opsetIdentifier
          legal := true } }, fresh.2)
  | _ => wrongAttrs ctx op "Constant"

def emitIdentity (ctx : CoreMlLoweringCtx) (op : ScheduledOp) : Emission :=
  emitUnary ctx op "identity" [] MilValueRef.valueType

def emitBinary (ctx : CoreMlLoweringCtx) (op : ScheduledOp) (milType : String) : Emission :=
  emitPair ctx op milType [] MilValueRef.valueType

def emitAdd (ctx : CoreMlLoweringCtx) (op : ScheduledOp) : Emission := emitBinary ctx op "add"

def emitMul (ctx : CoreMlLoweringCtx) (op : ScheduledOp) : Emission := emitBinary ctx op "mul"

def emitMatmul (ctx : CoreMlLoweringCtx) (op : ScheduledOp) : Emission :=
  match op.attrs with
  | .matmul transposeX transposeY =>
    -- the type is the same for all operands
    emitPair ctx op "matmul"
      [("transpose_x", boolArg transposeX), ("transpose_y", boolArg transposeY)]
      fun _ => valueTypeTensor (tensorType .float32 [1, 1])
  | _ => wrongAttrs ctx op "Matmul"

def emitReshape (ctx : CoreMlLoweringCtx) (op : ScheduledOp) : Emission :=
  match op.attrs with
  | .reshape targetShape =>
    emitUnary ctx op "reshape" [("shape", intArrayArg targetShape)]
      fun _ => valueTypeTensor (tensorType .float32 targetShape)
  | _ => wrongAttrs ctx op "Reshape"

def emitTranspose (ctx : CoreMlLoweringCtx) (op : ScheduledOp) : Emission :=
  match op.attrs with
  | .transpose permutation =>
    -- the type is that of the operand, its axes not permuted
    emitUnary ctx op "transpose"
      [("perm", intArrayArg (permutation.map fun p => p.toUInt64.toInt64))] MilValueRef.valueType
  | _ => wrongAttrs ctx op "Transpose"

def emitSoftmax (ctx : CoreMlLoweringCtx) (op : ScheduledOp) : Emission :=
  match op.attrs with
  | .softmax axis => emitUnary ctx op "softmax" [("axis", intArg axis)] MilValueRef.valueType
  | _ => wrongAttrs ctx op "Softmax"

def emitSilu (ctx : CoreMlLoweringCtx) (op : ScheduledOp) : Emission :=
  emitUnary ctx op "silu" [] MilValueRef.valueType

/-- The emitter registered for an opcode: the gate registers all of them. -/
def emit (sha256 : List UInt8 → String) : Opcode → CoreMlLoweringCtx → ScheduledOp → Emission
  | .constant => emitConstant sha256
  | .identity => emitIdentity
  | .add => emitAdd
  | .multiply => emitMul
  | .matmul => emitMatmul
  | .reshape => emitReshape
  | .transpose => emitTranspose
  | .softmax => emitSoftmax
  | .silu => emitSilu

end OpBuilder

/-! ### Preflight -/

/-- The shapes of known tensors that are not fixed. -/
def preflightFixedShape (ctx : CoreMlLoweringCtx) (op : ScheduledOp) : List LoweringDiagnostic :=
  (op.inputs ++ op.outputs).filterMap fun id =>
    (ctx.tensorMeta.lookup id).bind fun tensor =>
      tensor.shapePolicy.violation.map (.shapePolicyUnsupported op.opId)

/-- The tensors of a list that are not registered. -/
def preflightKnown (ctx : CoreMlLoweringCtx) (op : ScheduledOp) (constraint what : String)
    (ids : List TensorId) : List LoweringDiagnostic :=
  ids.zipIdx.filterMap fun entry =>
    if entry.1 ∈ ctx.tensorMeta then none
    else some (.constraintViolation op.opId constraint
      s!"{what}[{entry.2}] tensor TensorId({entry.1.id}) not registered in tensor_meta")

def defaultPreflight (ctx : CoreMlLoweringCtx) (op : ScheduledOp) : List LoweringDiagnostic :=
  preflightKnown ctx op "input_known" "input" op.inputs ++
    preflightKnown ctx op "output_known" "output" op.outputs ++ preflightFixedShape ctx op

/-! ### The lowering -/

structure CoreMlLowering where
  target : CoreMlTarget
  precision : PrecisionPolicy

def CoreMlLowering.new (target : CoreMlTarget) : CoreMlLowering := ⟨target, .f32⟩

structure CoreMlMilArtifact where
  program : Program
  valueBindings : AList fun _ : TensorId => MilValueRef
  operationInventory : List OpInventoryEntry

/-- An error is passed on with what was going on. -/
def labelled {α : Type} (label : String) : Outcome α → Outcome α
  | .error (.reported reason) => report (label ++ reason)
  | outcome => outcome

def placedShape (region : ScheduledRegion) (id : TensorId) (fallback : List UInt32) :
    List UInt32 :=
  ((region.physicalTensors.find? fun tensor => tensor.semanticId = id).map
    PhysicalTensor.shape).getD fallback

def registerInputs (region : ScheduledRegion) (ctx : CoreMlLoweringCtx) : CoreMlLoweringCtx :=
  region.inputs.zipIdx.foldl (fun ctx entry =>
    if entry.1 ∈ ctx.tensorMeta then ctx
    else ctx.registerInput entry.1 s!"input_{entry.2}" (placedShape region entry.1 [1, 4])
      .float32) ctx

def registerTensor (region : ScheduledRegion) (fallback : List UInt32) (isConstant : Bool)
    (ctx : CoreMlLoweringCtx) (id : TensorId) : CoreMlLoweringCtx :=
  if id ∈ ctx.tensorMeta then ctx
  else { ctx with
    tensorMeta := ctx.tensorMeta.insert id
      ⟨.float32, .fixed (placedShape region id fallback), false, false, isConstant⟩ }

def registerIntermediates (region : ScheduledRegion) (ops : List ScheduledOp)
    (ctx : CoreMlLoweringCtx) : CoreMlLoweringCtx :=
  ops.foldl (fun ctx op =>
    let known := op.inputs.foldl (registerTensor region [1, 4] false) ctx
    op.outputs.foldl (registerTensor region [4, 1] (op.opcode = .constant)) known) ctx

def registerOutputs (region : ScheduledRegion) (ctx : CoreMlLoweringCtx) : CoreMlLoweringCtx :=
  region.outputs.foldl (fun ctx id => { ctx with
    tensorMeta := ctx.tensorMeta.insert id
      ⟨.float32, .fixed (placedShape region id [1, 1]), false, true, false⟩ }) ctx

/-- The context the operations of a region are lowered in. -/
def registered (lowering : CoreMlLowering) (region : ScheduledRegion) (ops : List ScheduledOp) :
    CoreMlLoweringCtx :=
  registerOutputs region (registerIntermediates region ops (registerInputs region
    (.new "main" s!"region_{region.regionId.id}" lowering.target lowering.precision)))

/-- Stop at the first fatal diagnostic, and keep the others. -/
def checkDiagnostics (op : ScheduledOp) (ctx : CoreMlLoweringCtx)
    (diagnostics : List LoweringDiagnostic) : Outcome CoreMlLoweringCtx :=
  diagnostics.foldlM (fun ctx diagnostic =>
    if diagnostic.isFatal then
      report s!"preflight failed for op OperationId({op.opId.id}): {diagnostic.message}"
    else .ok { ctx with diagnostics := ctx.diagnostics ++ [diagnostic] }) ctx

/-- One turn of the loop over the operations. -/
def lowerOp (sha256 : List UInt8 → String) (ctx : CoreMlLoweringCtx) (op : ScheduledOp) :
    Outcome CoreMlLoweringCtx := do
  let ctx ← checkDiagnostics op ctx (defaultPreflight ctx op)
  let emission ← labelled s!"emit failed for op OperationId({op.opId.id}): "
    (OpBuilder.emit sha256 op.opcode ctx op)
  labelled s!"commit failed for op OperationId({op.opId.id}): "
    (emission.2.commit emission.1)

namespace CoreMlLowering

def lowerToMil (sha256 : List UInt8 → String) (lowering : CoreMlLowering)
    (region : ScheduledRegion) (ops : List ScheduledOp) :
    Outcome (CoreMlMilArtifact × MilLoweringReceipt) := do
  let ctx ← ops.foldlM (lowerOp sha256) (registered lowering region ops)
  let finalBindings := ctx.valueBindings
  let finalized ← labelled "finalize failed: " (ctx.finalize region)
  let program ← labelled "MilBuilder::build: " finalized.1.build
  return ({ program, valueBindings := finalBindings, operationInventory := [] }, finalized.2)

end CoreMlLowering

end TribunusCompute.Lowering
