import TribunusCompute.Library.Outcome

/-!
# Architecture, namespace and execution specification

What the compiler is told about a model: the normalized architecture, the namespace found
among the tensor names, and the tensors each layer is expected to have.
-/
namespace TribunusCompute.ComputeImage

/-- A double by its bits. -/
abbrev F64 := UInt64

/-! ## Normalized architecture -/

inductive AttentionKind
  | slidingAttention
  | fullAttention
  deriving DecidableEq, Repr

structure RopeSpec where
  theta : F64
  ropeType : String
  partialRotaryFactor : Option F64
  deriving DecidableEq, Repr

structure MoEConfig where
  numExperts : ℕ
  topKExperts : ℕ
  intermediateSize : ℕ
  sharedExperts : Bool
  deriving DecidableEq, Repr

structure TextArchitecture where
  hiddenSize : ℕ
  intermediateSize : ℕ
  numAttentionHeads : ℕ
  numKeyValueHeads : ℕ
  headDim : ℕ
  globalHeadDim : Option ℕ
  numGlobalKeyValueHeads : Option ℕ
  numHiddenLayers : ℕ
  vocabSize : ℕ
  slidingWindow : ℕ
  maxPositionEmbeddings : ℕ
  rmsNormEps : F64
  tieWordEmbeddings : Bool
  attentionKEqV : Bool
  finalLogitSoftcapping : Option F64
  hiddenSizePerLayerInput : ℕ
  layerTypes : List AttentionKind
  ropeLocal : RopeSpec
  ropeGlobal : Option RopeSpec
  modelType : String
  moeConfig : Option MoEConfig
  deriving DecidableEq, Repr

inductive QuantizationMode
  | none
  | affine
  | symmetric
  deriving DecidableEq, Repr

structure QuantizationMeta where
  bits : ℕ
  groupSize : ℕ
  mode : QuantizationMode
  deriving DecidableEq, Repr

/-! ## Namespace -/

/-- Where the text model lives among the tensor names, and which tensor the output
projection reads. -/
structure NamespaceBinding where
  root : String
  discovery : String
  lmHeadKey : String
  lmHeadAliased : Bool
  deriving DecidableEq, Repr

def anchors : List String :=
  ["embed_tokens.weight", "norm.weight", "layers.0.input_layernorm.weight",
    "layers.0.self_attn.q_proj.weight"]

def candidates : List String := ["language_model.model", "model"]

/-- The first candidate under which every anchor exists. -/
def resolveNamespace (tensorNames : List String) : Option NamespaceBinding :=
  candidates.findSome? fun candidate =>
    if anchors.all fun anchor => tensorNames.contains (candidate ++ "." ++ anchor) then
      let lmHeadKey := candidate ++ ".lm_head.weight"
      let embedKey := candidate ++ ".embed_tokens.weight"
      let lmHeadExists := tensorNames.contains lmHeadKey
      some {
        root := candidate
        discovery := "matched " ++ toString anchors.length ++ " anchors under '" ++ candidate ++ "'"
        lmHeadKey := if lmHeadExists then lmHeadKey else embedKey
        lmHeadAliased := !lmHeadExists
      }
    else none

/-! ## Execution specification -/

inductive TensorRole
  | embedding | finalNorm | lmHead | attentionNorm | ffnNorm | qProj | kProj | vProj | oProj
  | globalKProj | globalVProj | gateProj | upProj | downProj | qNorm | kNorm
  deriving DecidableEq, Repr

def TensorRole.name : TensorRole → String
  | embedding => "Embedding"
  | finalNorm => "FinalNorm"
  | lmHead => "LmHead"
  | attentionNorm => "AttentionNorm"
  | ffnNorm => "FfnNorm"
  | qProj => "QProj"
  | kProj => "KProj"
  | vProj => "VProj"
  | oProj => "OProj"
  | globalKProj => "GlobalKProj"
  | globalVProj => "GlobalVProj"
  | gateProj => "GateProj"
  | upProj => "UpProj"
  | downProj => "DownProj"
  | qNorm => "QNorm"
  | kNorm => "KNorm"

structure PackedLinearShapes where
  weight : List ℕ
  scales : List ℕ
  biases : List ℕ
  bits : ℕ
  groupSize : ℕ
  groups : ℕ
  deriving DecidableEq, Repr

/-- A single tensor's expected identity; packed if its weight is stored quantized. -/
structure TensorBinding where
  name : String
  role : TensorRole
  logicalShape : List ℕ
  packedShape : Option PackedLinearShapes
  deriving DecidableEq, Repr

structure LayerSpec where
  index : ℕ
  attentionKind : AttentionKind
  qOut : ℕ
  kvOut : ℕ
  nHeads : ℕ
  nKvHeads : ℕ
  headDim : ℕ
  globalKvOut : Option ℕ
  nGlobalKvHeads : Option ℕ
  globalHeadDim : Option ℕ
  ropeTheta : F64
  ropeType : String
  partialRotaryFactor : Option F64
  slidingWindow : Option ℕ
  tensors : List TensorBinding
  deriving DecidableEq, Repr

structure ExecutionSpec where
  architecture : TextArchitecture
  nameSpace : NamespaceBinding
  globalTensors : List TensorBinding
  layers : List LayerSpec
  quantization : Option QuantizationMeta
  deriving DecidableEq, Repr

def ExecutionSpec.bindings (spec : ExecutionSpec) : List TensorBinding :=
  spec.globalTensors ++ spec.layers.flatMap LayerSpec.tensors

/-- `{root}.layers.{layer}.{stem}.weight`. -/
def layerWeight (root : String) (layer : ℕ) (stem : String) : String :=
  root ++ ".layers." ++ toString layer ++ "." ++ stem ++ ".weight"

def normBinding (root : String) (layer : ℕ) (name : String) (role : TensorRole) (dim : ℕ) :
    TensorBinding where
  name := layerWeight root layer name
  role
  logicalShape := [dim]
  packedShape := none

/-- U32 storage packs `32 / bits` logical elements in a physical one. -/
def quantizedLinear (root : String) (layer : ℕ) (projName : String) (role : TensorRole)
    (outDim inDim groupSize bits : ℕ) : Outcome TensorBinding := do
  let pack ← Outcome.quotient 32 bits
  let packedIn ← Outcome.quotient inDim pack
  let nGroups ← Outcome.quotient inDim groupSize
  return {
    name := layerWeight root layer projName
    role
    logicalShape := [outDim, inDim]
    packedShape := some {
      weight := [outDim, packedIn]
      scales := [outDim, nGroups]
      biases := [outDim, nGroups]
      bits
      groupSize
      groups := nGroups
    }
  }

/-- The embedding is packed only where the source says it is quantized. -/
def embeddingBinding (arch : TextArchitecture) (root : String) (q : Option QuantizationMeta) :
    Outcome TensorBinding := do
  let packedShape ← match q with
    | none => pure none
    | some m => do
      let pack ← Outcome.quotient 32 m.bits
      let packedIn ← Outcome.quotient arch.hiddenSize pack
      let nGroups ← Outcome.quotient arch.hiddenSize m.groupSize
      pure (some {
        weight := [arch.vocabSize, packedIn]
        scales := [arch.vocabSize, nGroups]
        biases := [arch.vocabSize, nGroups]
        bits := m.bits
        groupSize := m.groupSize
        groups := nGroups
      })
  return {
    name := root ++ ".embed_tokens.weight"
    role := .embedding
    logicalShape := [arch.vocabSize, arch.hiddenSize]
    packedShape
  }

/-- One turn of the loop of `compile` over the layer types. -/
def compileLayer (arch : TextArchitecture) (root : String) (gs bits : ℕ) (kind : AttentionKind)
    (layer : ℕ) : Outcome LayerSpec := do
  let isFull := kind == .fullAttention
  let rope := if isFull then arch.ropeGlobal.getD arch.ropeLocal else arch.ropeLocal
  let normDim := if isFull then arch.globalHeadDim.getD arch.headDim else arch.headDim
  -- Full attention has the global dimensions and no projection of values of its own.
  let actualKvOut ← Outcome.fit 32 <|
    if isFull then arch.numGlobalKeyValueHeads.getD 1 * arch.globalHeadDim.getD arch.headDim
    else arch.numKeyValueHeads * arch.headDim
  let qOut ← Outcome.fit 32 (arch.numAttentionHeads * normDim)
  let linear (projName : String) (role : TensorRole) (outDim inDim : ℕ) :=
    quantizedLinear root layer projName role outDim inDim gs bits
  let qProj ← linear "self_attn.q_proj" .qProj qOut arch.hiddenSize
  let kProj ← linear "self_attn.k_proj" .kProj actualKvOut arch.hiddenSize
  let vProj ← (
    if isFull then pure []
    else do
      let vProj ← linear "self_attn.v_proj" .vProj actualKvOut arch.hiddenSize
      pure [vProj])
  let oProj ← linear "self_attn.o_proj" .oProj arch.hiddenSize qOut
  let gateProj ← linear "mlp.gate_proj" .gateProj arch.intermediateSize arch.hiddenSize
  let upProj ← linear "mlp.up_proj" .upProj arch.intermediateSize arch.hiddenSize
  let downProj ← linear "mlp.down_proj" .downProj arch.hiddenSize arch.intermediateSize
  return {
    index := layer
    attentionKind := kind
    qOut
    kvOut := actualKvOut
    nHeads := arch.numAttentionHeads
    nKvHeads := arch.numKeyValueHeads
    headDim := normDim
    globalKvOut := if isFull then some actualKvOut else none
    nGlobalKvHeads := arch.numGlobalKeyValueHeads
    globalHeadDim := arch.globalHeadDim
    ropeTheta := rope.theta
    ropeType := rope.ropeType
    partialRotaryFactor := rope.partialRotaryFactor
    slidingWindow := if isFull then none else some arch.slidingWindow
    tensors :=
      [normBinding root layer "input_layernorm" .attentionNorm arch.hiddenSize,
        normBinding root layer "post_attention_layernorm" .ffnNorm arch.hiddenSize,
        normBinding root layer "self_attn.q_norm" .qNorm normDim,
        normBinding root layer "self_attn.k_norm" .kNorm normDim,
        qProj, kProj] ++
      vProj ++ [oProj, gateProj, upProj, downProj]
  }

def compile (arch : TextArchitecture) (nameSpace : NamespaceBinding)
    (q : Option QuantizationMeta) : Outcome ExecutionSpec := do
  let root := nameSpace.root
  let bits := (q.map (·.bits)).getD 16
  let gs := (q.map (·.groupSize)).getD 64
  let embedding ← embeddingBinding arch root q
  let finalNorm : TensorBinding := {
    name := root ++ ".norm.weight", role := .finalNorm, logicalShape := [arch.hiddenSize]
    packedShape := none }
  let lmHead : TensorBinding := {
    name := root ++ ".lm_head.weight", role := .lmHead
    logicalShape := [arch.vocabSize, arch.hiddenSize], packedShape := none }
  let layers ← arch.layerTypes.zipIdx.mapM fun (kind, i) => compileLayer arch root gs bits kind i
  return {
    architecture := arch
    nameSpace
    globalTensors := [embedding, finalNorm] ++ if arch.tieWordEmbeddings then [] else [lmHead]
    layers
    quantization := q
  }

def filterSpecToExisting (spec : ExecutionSpec) (existing : List String) : ExecutionSpec :=
  { spec with
    globalTensors := spec.globalTensors.filter fun b => existing.contains b.name
    layers := spec.layers.map fun layer =>
      { layer with tensors := layer.tensors.filter fun b => existing.contains b.name } }

end TribunusCompute.ComputeImage
