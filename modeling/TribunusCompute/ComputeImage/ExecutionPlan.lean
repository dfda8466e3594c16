import Mathlib.Data.List.AList
import TribunusCompute.ComputeImage.Config

/-!
# Execution plans

The plan a compiled image carries: for the prologue, each layer and the epilogue, the tensor
ids to execute from. An id of zero means that there is no such tensor.
-/
namespace TribunusCompute.ComputeImage

abbrev HashMap (V : Type) := AList fun _ : String => V

/-- The nearest single, by its bits. -/
def toF32 (x : F64) : UInt32 := (Float.ofBits x).toFloat32.toBits

/-- The backend of each operation group: 0 MLX, 1 Accelerate, 2 Core ML, 3 Orion. -/
structure OperationRoute where
  rmsNorm : ℕ
  silu : ℕ
  matmul : ℕ
  attention : ℕ
  softmax : ℕ
  rope : ℕ
  add : ℕ
  multiply : ℕ
  transpose : ℕ
  reshape : ℕ
  deriving DecidableEq, Repr

def OperationRoute.hasAneBackend (route : OperationRoute) : Bool :=
  [route.rmsNorm, route.silu, route.matmul, route.attention, route.softmax, route.rope,
    route.add, route.multiply, route.transpose, route.reshape].contains 3

inductive FusedOperation
  | fusedNormQProj | fusedNormKProj | fusedNormVProj | fusedFfnActivation | fusedResidualNorm
  | fusedFlashAttention | fusedMoERoute
  | custom (name : String)
  deriving DecidableEq, Repr

structure AneFusedIsland where
  islandId : String
  modelcRelpath : String
  layerIndices : List ℕ
  computeUnits : String
  functionName : String
  deriving DecidableEq, Repr

structure ProloguePlan where
  segmentId : String
  embeddingTensorId : ℕ
  embeddingName : String
  embeddingShape : List ℕ
  embeddingDtype : String
  deriving DecidableEq, Repr

structure LayerPlan where
  layerIndex : ℕ
  attentionKind : String
  segmentId : String
  hiddenSize : ℕ
  nHeads : ℕ
  nKvHeads : ℕ
  headDim : ℕ
  globalHeadDim : Option ℕ
  nGlobalKvHeads : Option ℕ
  slidingWindow : ℕ
  ropeTheta : UInt32
  partialRotaryFactor : Option UInt32
  attentionKEqV : Bool
  qNormEnabled : Bool
  kNormEnabled : Bool
  qProjTensorId : ℕ
  kProjTensorId : ℕ
  vProjTensorId : ℕ
  oProjTensorId : ℕ
  qNormTensorId : Option ℕ
  kNormTensorId : Option ℕ
  gateProjTensorId : ℕ
  upProjTensorId : ℕ
  downProjTensorId : ℕ
  inputLayernormTensorId : ℕ
  postAttentionLayernormTensorId : ℕ
  preFfwLayernormTensorId : Option ℕ
  postFfwLayernormTensorId : Option ℕ
  layerScalarIds : List ℕ
  quantizationIds : List String
  route : OperationRoute
  fusedOperations : List FusedOperation
  deriving DecidableEq, Repr

structure EpiloguePlan where
  segmentId : String
  finalNormTensorId : ℕ
  finalNormName : String
  outputProjectionTensorId : Option ℕ
  outputProjectionName : Option String
  finalLogitSoftcapping : Option F64
  vocabSize : ℕ
  deriving DecidableEq, Repr

structure SpeculativeModelConfig where
  draftArchitecture : TextArchitecture
  targetArchitecture : TextArchitecture
  sharedEmbedding : Bool
  sharedLmHead : Bool
  draftFirstSegments : Bool
  speculationLength : ℕ
  deriving DecidableEq, Repr

structure ModelExecutionPlan where
  prologue : ProloguePlan
  layers : List LayerPlan
  epilogue : EpiloguePlan
  fusedAneIslands : List AneFusedIsland
  hiddenSize : ℕ
  vocabSize : ℕ
  slidingWindow : ℕ
  finalLogitSoftcapping : Option F64
  tieWordEmbeddings : Bool
  rmsNormEps : F64
  speculativeConfig : Option SpeculativeModelConfig
  deriving DecidableEq, Repr

def ModelExecutionPlan.default : ModelExecutionPlan where
  prologue := ⟨"", 0, "", [], ""⟩
  layers := []
  epilogue := ⟨"", 0, "", none, none, none, 0⟩
  fusedAneIslands := []
  hiddenSize := 0
  vocabSize := 0
  slidingWindow := 0
  finalLogitSoftcapping := none
  tieWordEmbeddings := false
  rmsNormEps := 0
  speculativeConfig := none

/-! ## Building a plan from the emitted tensors -/

/-- The backends a layer's operations are assigned to; dense attention goes to Orion. -/
def assessBackends (isFull : Bool) : OperationRoute where
  rmsNorm := 1
  silu := 0
  matmul := 0
  attention := if isFull then 3 else 0
  softmax := 0
  rope := 0
  add := 1
  multiply := 1
  transpose := 0
  reshape := 1

def buildLayerPlan (arch : TextArchitecture) (root : String) (emittedIds : HashMap ℕ)
    (kind : AttentionKind) (layer : ℕ) : LayerPlan :=
  let isFull := kind == .fullAttention
  let get (stem : String) : ℕ := (emittedIds.lookup (layerWeight root layer stem)).getD 0
  let getOpt (stem : String) : Option ℕ := emittedIds.lookup (layerWeight root layer stem)
  let rope := if isFull then arch.ropeGlobal.getD arch.ropeLocal else arch.ropeLocal
  {
    layerIndex := layer
    attentionKind := if isFull then "full_attention" else "sliding_attention"
    segmentId := "layer_" ++ toString layer
    hiddenSize := arch.hiddenSize
    nHeads := arch.numAttentionHeads
    nKvHeads :=
      if isFull then arch.numGlobalKeyValueHeads.getD arch.numKeyValueHeads
      else arch.numKeyValueHeads
    headDim := if isFull then arch.globalHeadDim.getD arch.headDim else arch.headDim
    globalHeadDim := if isFull then arch.globalHeadDim else none
    nGlobalKvHeads := if isFull then arch.numGlobalKeyValueHeads else none
    slidingWindow := arch.slidingWindow
    ropeTheta := toF32 rope.theta
    partialRotaryFactor := rope.partialRotaryFactor.map toF32
    attentionKEqV := arch.attentionKEqV && isFull
    qNormEnabled := true
    kNormEnabled := true
    qProjTensorId := get "self_attn.q_proj"
    kProjTensorId := get "self_attn.k_proj"
    -- Full attention aliases the values to the keys.
    vProjTensorId := if isFull then get "self_attn.k_proj" else get "self_attn.v_proj"
    oProjTensorId := get "self_attn.o_proj"
    qNormTensorId := getOpt "self_attn.q_norm"
    kNormTensorId := getOpt "self_attn.k_norm"
    gateProjTensorId := get "mlp.gate_proj"
    upProjTensorId := get "mlp.up_proj"
    downProjTensorId := get "mlp.down_proj"
    inputLayernormTensorId := get "input_layernorm"
    postAttentionLayernormTensorId := get "post_attention_layernorm"
    preFfwLayernormTensorId := none
    postFfwLayernormTensorId := none
    layerScalarIds := []
    quantizationIds := []
    route := assessBackends isFull
    fusedOperations := []
  }

def buildExecutionPlan (arch : TextArchitecture) (nameSpace : NamespaceBinding)
    (emittedIds : HashMap ℕ) : ModelExecutionPlan :=
  let root := nameSpace.root
  let embedName := root ++ ".embed_tokens.weight"
  let fnName := root ++ ".norm.weight"
  let lmHeadName := nameSpace.lmHeadKey
  {
    prologue := {
      segmentId := "persistent"
      embeddingTensorId := (emittedIds.lookup embedName).getD 0
      embeddingName := embedName
      embeddingShape := [arch.vocabSize, arch.hiddenSize]
      embeddingDtype := "U8"
    }
    layers := arch.layerTypes.zipIdx.map fun (kind, i) =>
      buildLayerPlan arch root emittedIds kind i
    epilogue := {
      segmentId := "persistent"
      finalNormTensorId := (emittedIds.lookup fnName).getD 0
      finalNormName := fnName
      outputProjectionTensorId := emittedIds.lookup lmHeadName
      outputProjectionName := some lmHeadName
      finalLogitSoftcapping := arch.finalLogitSoftcapping
      vocabSize := arch.vocabSize
    }
    fusedAneIslands := []
    hiddenSize := arch.hiddenSize
    vocabSize := arch.vocabSize
    slidingWindow := arch.slidingWindow
    finalLogitSoftcapping := arch.finalLogitSoftcapping
    tieWordEmbeddings := arch.tieWordEmbeddings
    rmsNormEps := arch.rmsNormEps
    speculativeConfig := none
  }

/-! ## Fusion passes -/

/-- The logical operations of a layer in execution order, from the weights it has. -/
def LayerPlan.operationNames (layer : LayerPlan) : List String :=
  let ops (present : Bool) (names : List String) := if present then names else []
  let has (id : ℕ) := id != 0
  ops (has layer.inputLayernormTensorId) ["rms_norm"] ++
  ops (has layer.qProjTensorId) ["q_proj"] ++
  ops (has layer.kProjTensorId) ["k_proj"] ++
  ops (has layer.vProjTensorId) ["v_proj"] ++
  ops (has layer.qProjTensorId && has layer.kProjTensorId) ["matmul", "softmax"] ++
  ops (has layer.qProjTensorId && has layer.vProjTensorId) ["matmul"] ++
  ops (has layer.oProjTensorId) ["add"] ++
  ops (has layer.postAttentionLayernormTensorId) ["rms_norm"] ++
  ops (has layer.gateProjTensorId) ["gate_proj", "silu"] ++
  ops (has layer.upProjTensorId) ["multiply"] ++
  ops (has layer.downProjTensorId) ["down_proj"]

/-- Whether the pattern's operations occur in this order. -/
def hasPattern : (ops pattern : List String) → Bool
  | _, [] => true
  | [], _ :: _ => false
  | op :: ops, p :: pattern =>
    if op = p then hasPattern ops pattern else hasPattern ops (p :: pattern)

def LayerPlan.fuse (layer : LayerPlan) : LayerPlan :=
  let ops := layer.operationNames
  let fused (pattern : List String) (op : FusedOperation) :=
    if hasPattern ops pattern then [op] else []
  let fusedOperations :=
    fused ["rms_norm", "q_proj"] .fusedNormQProj ++
    fused ["rms_norm", "k_proj"] .fusedNormKProj ++
    fused ["rms_norm", "v_proj"] .fusedNormVProj ++
    fused ["silu", "multiply"] .fusedFfnActivation ++
    fused ["add", "rms_norm"] .fusedResidualNorm ++
    fused ["matmul", "softmax", "matmul"] .fusedFlashAttention
  { layer with fusedOperations }

def ModelExecutionPlan.applyFusionPass (plan : ModelExecutionPlan) : ModelExecutionPlan :=
  { plan with layers := plan.layers.map LayerPlan.fuse }

/-- The indices of each maximal run of layers with an operation on the ANE. -/
def aneRuns : List LayerPlan → List (List ℕ)
  | [] => []
  | layer :: rest =>
    if layer.route.hasAneBackend then
      (layer :: rest.takeWhile (·.route.hasAneBackend)).map (·.layerIndex) ::
        aneRuns (rest.dropWhile (·.route.hasAneBackend))
    else aneRuns rest
termination_by layers => layers.length
decreasing_by
  · exact Nat.lt_succ_of_le (List.dropWhile_sublist _).length_le
  · exact Nat.lt_succ_self _

def ModelExecutionPlan.buildAneFusionPlan (plan : ModelExecutionPlan) : ModelExecutionPlan :=
  { plan with fusedAneIslands :=
      ((aneRuns plan.layers).filter fun indices => 2 ≤ indices.length).map fun indices =>
        let islandId :=
          "ane_fused_layer" ++ toString (indices.headD 0) ++ "-" ++ toString (indices.getLastD 0)
        {
          islandId
          modelcRelpath := islandId ++ ".modelc"
          layerIndices := indices
          computeUnits := "cpuAndNeuralEngine"
          functionName := "main"
        } }

/-! ## Validation -/

def complain (bad : Prop) [Decidable bad] (reason : String) : List String :=
  if bad then [reason] else []

/-- What is wrong with the plan at position `i` of a model with this hidden size. -/
def LayerPlan.complaints (modelHiddenSize : ℕ) (plan : LayerPlan) (i : ℕ) : List String :=
  let layer := "layer " ++ toString i
  let zero (id : ℕ) (field : String) := complain (id = 0) (layer ++ " has zero " ++ field)
  complain (plan.layerIndex ≠ i) (layer ++ " has index " ++ toString plan.layerIndex) ++
  complain (plan.hiddenSize ≠ modelHiddenSize)
    (layer ++ " hidden_size " ++ toString plan.hiddenSize ++ " != model " ++
      toString modelHiddenSize) ++
  zero plan.qProjTensorId "q_proj_tensor_id" ++
  zero plan.kProjTensorId "k_proj_tensor_id" ++
  zero plan.oProjTensorId "o_proj_tensor_id" ++
  zero plan.gateProjTensorId "gate_proj_tensor_id" ++
  zero plan.upProjTensorId "up_proj_tensor_id" ++
  zero plan.downProjTensorId "down_proj_tensor_id" ++
  zero plan.inputLayernormTensorId "input_layernorm_tensor_id" ++
  zero plan.postAttentionLayernormTensorId "post_attention_layernorm_tensor_id" ++
  (if plan.attentionKind = "sliding_attention" then
    complain (plan.vProjTensorId = 0)
      ("sliding layer " ++ toString i ++ " has zero v_proj_tensor_id")
  else if plan.attentionKind = "full_attention" then
    complain (plan.globalHeadDim = none)
      ("full-attention layer " ++ toString i ++ " missing global_head_dim")
  else [layer ++ " has unknown attention_kind: " ++ plan.attentionKind]) ++
  complain (plan.segmentId ≠ "layer_" ++ toString i)
    (layer ++ " segment_id '" ++ plan.segmentId ++ "' != expected '" ++
      ("layer_" ++ toString i) ++ "'")

def ModelExecutionPlan.complaints (plan : ModelExecutionPlan) : List String :=
  complain (plan.layers = []) "execution plan has zero layers" ++
  (plan.layers.zipIdx.flatMap fun (layer, i) => layer.complaints plan.hiddenSize i) ++
  complain (plan.prologue.embeddingTensorId = 0) "prologue has zero embedding_tensor_id" ++
  complain (plan.epilogue.finalNormTensorId = 0) "epilogue has zero final_norm_tensor_id" ++
  complain (plan.epilogue.vocabSize = 0) "epilogue has zero vocab_size"

/-- Every complaint is reported, not only the first. -/
def ModelExecutionPlan.validate (plan : ModelExecutionPlan) : Except (List String) Unit :=
  if plan.complaints = [] then .ok () else .error plan.complaints

end TribunusCompute.ComputeImage
