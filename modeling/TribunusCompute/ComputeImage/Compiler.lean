import TribunusCompute.ComputeImage.GraphOptimizer
import TribunusCompute.ComputeImage.Quantize
import TribunusCompute.ComputeImage.RoundTrip

/-!
# Sequential compilation

The tensors of a loaded source are emitted into segments, the global ones first, then those of
each layer, then those of the vision and audio encoders. The execution plan is built from the
ids they get.
-/
namespace TribunusCompute.ComputeImage

/-! ## Tensor emission -/

def emitTensor (sourceTensors : HashMap SourceTensor) (b : ImageBuilder) (name role : String)
    (layer : Option ℕ) (logicalDtype : String) (logicalShape : List ℕ)
    (quantization : Option QuantizationDesc) : Outcome (ImageBuilder × ℕ) := do
  let tensor ← Outcome.orReport ("missing tensor: " ++ name) (sourceTensors.lookup name)
  b.addTensor {
    name
    role
    layer
    data := tensor.data
    sourceFilename := tensor.sourceFilename
    sourceSha256 := tensor.sourceSha256
    sourceOffset := tensor.sourceOffset
    logicalDtype
    storageDtype := tensor.dtype
    logicalShape
    physicalShape := tensor.shape
    quantization
  }

/-- The scales and the biases go before the weight, which names their ids. -/
def emitQuantizedBinding (sourceTensors : HashMap SourceTensor) (b : ImageBuilder)
    (weightName role : String) (layer : Option ℕ) (logicalShape : List ℕ)
    (packed : PackedLinearShapes) (logicalDtype : String) : Outcome (ImageBuilder × ℕ) := do
  let (b, scalesId) ← emitTensor sourceTensors b (scalesName weightName) (role ++ "::scales") layer
    "F32" packed.scales none
  let (b, biasesId) ← emitTensor sourceTensors b (biasesName weightName) (role ++ "::biases") layer
    "F32" packed.biases none
  emitTensor sourceTensors b weightName role layer logicalDtype logicalShape
    (some ⟨packed.bits, packed.groupSize, packed.groups, scalesId, biasesId⟩)

def emitBindingSet (sourceTensors : HashMap SourceTensor) (b : ImageBuilder)
    (binding : TensorBinding) (layer : Option ℕ) : Outcome (ImageBuilder × ℕ) :=
  match binding.packedShape with
  | some packed =>
    emitQuantizedBinding sourceTensors b binding.name binding.role.name layer
      binding.logicalShape packed "F32"
  | none =>
    emitTensor sourceTensors b binding.name binding.role.name layer "F32" binding.logicalShape none

/-- The builder, and the ids of the tensors emitted so far. -/
abbrev Emission := ImageBuilder × HashMap ℕ

def emitBinding (sourceTensors : HashMap SourceTensor) (layer : Option ℕ) (state : Emission)
    (binding : TensorBinding) : Outcome Emission := do
  let (b, id) ← emitBindingSet sourceTensors state.1 binding layer
  return (b, state.2.insert binding.name id)

def beginSegment (hashing : Hashing) (id : String) (kind : SegmentKind) (state : Emission) :
    Emission :=
  (state.1.beginSegment hashing id kind, state.2)

def emitLayer (hashing : Hashing) (label : String) (sourceTensors : HashMap SourceTensor)
    (state : Emission) (layer : LayerSpec) : Outcome Emission :=
  layer.tensors.foldlM (emitBinding sourceTensors (some layer.index))
    (beginSegment hashing (label ++ toString layer.index) (.layer layer.index) state)

/-! ## Encoders -/

def startsWith (start text : String) : Bool := start.toList.isPrefixOf text.toList

/-- The names that start with one of these, in order. -/
def encoderNames (sourceTensors : HashMap SourceTensor) (starts : List String) : List String :=
  (sourceTensors.keys.filter fun name => starts.any (startsWith · name)).insertionSort
    fun left right => left ≤ right

def emitEncoderTensor (sourceTensors : HashMap SourceTensor) (label role : String)
    (state : Emission) (name : String) : Outcome Emission := do
  let tensor ← Outcome.orReport (label ++ " tensor " ++ name ++ " disappeared from source")
    (sourceTensors.lookup name)
  let (b, id) ← emitTensor sourceTensors state.1 name role none tensor.dtype tensor.shape none
  return (b, state.2.insert name id)

/-- The segment of an encoder, where the source has any of its tensors and none has been
emitted. -/
def emitEncoder (hashing : Hashing) (sourceTensors : HashMap SourceTensor) (label role : String)
    (starts : List String) (configure : ImageBuilder → ImageBuilder) (state : Emission) :
    Outcome Emission :=
  let names := encoderNames sourceTensors starts
  let segment := label ++ "_encoder"
  if names.isEmpty || state.2.keys.any (startsWith (segment ++ ".")) then .ok state
  else
    let (b, ids) := beginSegment hashing segment .persistent state
    names.foldlM (emitEncoderTensor sourceTensors label role) (configure b, ids)

def compileVisionEncoderTensors (hashing : Hashing) (sourceTensors : HashMap SourceTensor)
    (state : Emission) : Outcome Emission :=
  emitEncoder hashing sourceTensors "vision" "VisionEncoder" ["vision_encoder."] id state

def compileAudioEncoderTensors (hashing : Hashing) (sourceTensors : HashMap SourceTensor)
    (audioConfig : Option AudioArchitecture) (state : Emission) : Outcome Emission :=
  emitEncoder hashing sourceTensors "audio" "AudioEncoder" ["audio_encoder.", "embed_audio."]
    (fun b => match audioConfig with
      | some config => b.setAudioConfig config
      | none => b) state

/-! ## The compiler -/

def LoadedSource.embedName (loaded : LoadedSource) : String :=
  loaded.nameSpace.root ++ ".embed_tokens.weight"

/-- The output projection is an alias of the embedding where the source has none. -/
def aliasLmHead (loaded : LoadedSource) (state : Emission) : Outcome Emission :=
  if loaded.nameSpace.lmHeadAliased then do
    let physicalId ← Outcome.orReport "embed_tokens.weight was not emitted"
      (state.2.lookup loaded.embedName)
    return (state.1.addAlias "lm_head.weight" physicalId "tie_word_embeddings=true", state.2)
  else .ok state

/-- The global tensors and those of the layers, in segments from `state` on. -/
def emitSpec (hashing : Hashing) (loaded : LoadedSource) (state : Emission) : Outcome Emission := do
  let state ← loaded.spec.globalTensors.foldlM (emitBinding loaded.sourceTensors none)
    (beginSegment hashing "persistent" .persistent state)
  let state ← aliasLmHead loaded state
  loaded.spec.layers.foldlM (emitLayer hashing "layer_" loaded.sourceTensors) state

/-- The tensors of the encoders that the configuration describes. -/
def emitEncoders (hashing : Hashing) (loaded : LoadedSource) (state : Emission) :
    Outcome Emission := do
  let state ← (
    if loaded.manifest.visionConfig.isSome then
      compileVisionEncoderTensors hashing loaded.sourceTensors state
    else pure state)
  if loaded.manifest.audioConfig.isSome then
    compileAudioEncoderTensors hashing loaded.sourceTensors loaded.manifest.audioConfig state
  else pure state

/-- Record the precompiled library that was found next to the source. -/
def embedMetallib (hashing : Hashing) (metallib : Option (List UInt8)) (b : ImageBuilder) :
    ImageBuilder :=
  match metallib with
  | some bytes => b.setMetallib (hashing.sha256Bytes bytes) bytes.length
  | none => b

def LoadedSource.identity (loaded : LoadedSource) : SourceIdentity :=
  buildSourceIdentity loaded.manifest loaded.shardHashes loaded.tokenizerHashes
    loaded.auxiliaryHashes

section Compile

variable {R : Type} (f32 : F32 R) (hashing : Hashing)

def quantizeLoaded (loaded : LoadedSource) : Option CompileQuantMode → Outcome LoadedSource
  | some qmode => applyQuantizeToLoaded f32 loaded qmode
  | none => .ok loaded

/-- `compile_sequential`: the image in the output directory. -/
def compileSequential (metallib : Option (List UInt8)) (site : Site) (loaded : LoadedSource)
    (qmode : Option CompileQuantMode) : Outcome CompiledImageReader := do
  let loaded ← quantizeLoaded f32 loaded qmode
  let state ← emitSpec hashing loaded (ImageBuilder.new loaded.arch loaded.identity, ∅)
  let (b, emittedIds) ← emitEncoders hashing loaded state
  let plan := buildExecutionPlan loaded.arch loaded.nameSpace emittedIds
  let plan ← plan.buildAneFusionPlan.applyFusionPass.optimize
  return (embedMetallib hashing metallib (b.setExecutionPlan plan)).reader hashing site

end Compile

end TribunusCompute.ComputeImage
