import Mathlib.Data.List.Infix
import TribunusCompute.ComputeImage.Source

/-!
# The parsed configuration

What `parse_config` makes of the fields that the model's JSON has. Bits, group sizes and
dimensions go into the metadata as they are.
-/
namespace TribunusCompute.ComputeImage

structure RawRopeSpec where
  ropeTheta : F64
  ropeType : Option String
  partialRotaryFactor : Option F64
  deriving DecidableEq, Repr

structure RawRopeParams where
  slidingAttention : Option RawRopeSpec
  fullAttention : Option RawRopeSpec
  deriving DecidableEq, Repr

structure RawTextConfig where
  hiddenSize : ℕ
  intermediateSize : ℕ
  numAttentionHeads : ℕ
  numKeyValueHeads : ℕ
  headDim : ℕ
  globalHeadDim : Option ℕ
  numGlobalKeyValueHeads : Option ℕ
  numHiddenLayers : ℕ
  vocabSize : ℕ
  slidingWindow : ℕ
  maxPositionEmbeddings : Option ℕ
  rmsNormEps : F64
  tieWordEmbeddings : Option Bool
  attentionKEqV : Option Bool
  finalLogitSoftcapping : Option F64
  hiddenSizePerLayerInput : Option ℕ
  layerTypes : List String
  ropeParameters : Option RawRopeParams
  modelType : Option String
  deriving DecidableEq, Repr

structure RawQuantization where
  groupSize : Option ℕ
  bits : Option ℕ
  mode : Option String
  deriving DecidableEq, Repr

/-- The fields of the JSON that are read; the flat ones where there is no nested config. -/
structure RawConfig where
  modelType : Option String := none
  hiddenSize : Option ℕ := none
  intermediateSize : Option ℕ := none
  numAttentionHeads : Option ℕ := none
  numKeyValueHeads : Option ℕ := none
  headDim : Option ℕ := none
  globalHeadDim : Option ℕ := none
  numGlobalKeyValueHeads : Option ℕ := none
  numHiddenLayers : Option ℕ := none
  vocabSize : Option ℕ := none
  slidingWindow : Option ℕ := none
  rmsNormEps : Option F64 := none
  tieWordEmbeddings : Option Bool := none
  attentionKEqV : Option Bool := none
  finalLogitSoftcapping : Option F64 := none
  hiddenSizePerLayerInput : Option ℕ := none
  layerTypes : Option (List String) := none
  enableMoeBlock : Option Bool := none
  moeIntermediateSize : Option ℕ := none
  numExperts : Option ℕ := none
  topKExperts : Option ℕ := none
  textConfig : Option RawTextConfig := none
  visionConfig : Option VisionArchitecture := none
  audioConfig : Option AudioArchitecture := none
  quantization : Option RawQuantization := none
  maxPositionEmbeddings : Option ℕ := none
  deriving DecidableEq, Repr

namespace RawConfig

/-- The head dimension of a flat config, if it has none, is a quotient. -/
def toTextConfigFallback (raw : RawConfig) : Outcome RawTextConfig := do
  let headDim ← match raw.headDim with
    | some headDim => pure headDim
    | none => Outcome.quotient (raw.hiddenSize.getD 2048) (raw.numAttentionHeads.getD 16)
  return {
    hiddenSize := raw.hiddenSize.getD 2048
    intermediateSize := raw.intermediateSize.getD 8192
    numAttentionHeads := raw.numAttentionHeads.getD 16
    numKeyValueHeads := raw.numKeyValueHeads.getD 4
    headDim
    globalHeadDim := raw.globalHeadDim
    numGlobalKeyValueHeads := raw.numGlobalKeyValueHeads
    numHiddenLayers := raw.numHiddenLayers.getD 24
    vocabSize := raw.vocabSize.getD 32768
    slidingWindow := raw.slidingWindow.getD 32768
    maxPositionEmbeddings := raw.maxPositionEmbeddings
    -- 1e-6
    rmsNormEps := raw.rmsNormEps.getD 0x3EB0C6F7A0B5ED8D
    tieWordEmbeddings := raw.tieWordEmbeddings
    attentionKEqV := raw.attentionKEqV
    finalLogitSoftcapping := raw.finalLogitSoftcapping
    hiddenSizePerLayerInput := raw.hiddenSizePerLayerInput
    layerTypes := raw.layerTypes.getD []
    ropeParameters := none
    modelType := raw.modelType
  }

def text (raw : RawConfig) : Outcome RawTextConfig :=
  match raw.textConfig with
  | some text => pure text
  | none => raw.toTextConfigFallback

/-- The metadata of the config, or those of a nested config of a model that is converted. -/
def quant (raw : RawConfig) : Option QuantizationMeta :=
  match raw.quantization with
  | some q => some {
      bits := q.bits.getD 16
      groupSize := q.groupSize.getD 64
      mode := if q.mode = some "affine" then .affine else .none }
  | none =>
    if raw.textConfig.isSome then
      let mt := raw.modelType.getD ""
      if "unified".toList <:+: mt.toList ∨ "gemma4".toList <+: mt.toList then
        some { bits := 8, groupSize := 64, mode := .affine }
      else none
    else none

def moeConfig (raw : RawConfig) (text : RawTextConfig) : Option MoEConfig :=
  if raw.enableMoeBlock.getD false then
    let numExperts := raw.numExperts.getD 0
    let topK := raw.topKExperts.getD 1
    if numExperts > 0 ∧ topK > 0 then
      some {
        numExperts
        topKExperts := topK
        intermediateSize := raw.moeIntermediateSize.getD text.intermediateSize
        sharedExperts := false }
    else none
  else none

end RawConfig

/-- The kinds of the layers; all sliding where the config names none. -/
def RawTextConfig.layerKinds (text : RawTextConfig) : List AttentionKind :=
  if text.layerTypes.isEmpty then List.replicate text.numHiddenLayers .slidingAttention
  else text.layerTypes.map fun s =>
    if s = "full_attention" then .fullAttention else .slidingAttention

def RawRopeSpec.normalize (s : RawRopeSpec) (ropeType : String) : RopeSpec :=
  ⟨s.ropeTheta, s.ropeType.getD ropeType, s.partialRotaryFactor⟩

def QuantizationMode.name : QuantizationMode → String
  | .none => "None"
  | .affine => "Affine"
  | .symmetric => "Symmetric"

/-- The architecture, the quantization metadata and the manifest of a config. Reading the fields
of the JSON and hashing it are those of libraries. -/
def parseConfig (fromStr : String → Except String RawConfig) (sha256 : String → String)
    (config : Except String String) :
    Outcome (TextArchitecture × Option QuantizationMeta × ModelManifest) := do
  let configJson ← Outcome.reportIn "Cannot read config" config
  let configHash := sha256 configJson
  let raw ← Outcome.reportIn "Invalid config JSON" (fromStr configJson)
  let text ← raw.text
  let layerTypes := text.layerKinds
  Outcome.require (text.layerTypes.isEmpty ∨ layerTypes.length = text.numHiddenLayers)
    s!"layer_types count ({layerTypes.length}) != num_hidden_layers ({text.numHiddenLayers})"
  let sliding := text.ropeParameters.bind (·.slidingAttention)
  let full := text.ropeParameters.bind (·.fullAttention)
  let arch : TextArchitecture := {
    hiddenSize := text.hiddenSize
    intermediateSize := text.intermediateSize
    numAttentionHeads := text.numAttentionHeads
    numKeyValueHeads := text.numKeyValueHeads
    headDim := text.headDim
    globalHeadDim := text.globalHeadDim
    numGlobalKeyValueHeads := text.numGlobalKeyValueHeads
    numHiddenLayers := text.numHiddenLayers
    vocabSize := text.vocabSize
    slidingWindow := text.slidingWindow
    maxPositionEmbeddings :=
      (text.maxPositionEmbeddings.or raw.maxPositionEmbeddings).getD 131072
    rmsNormEps := text.rmsNormEps
    tieWordEmbeddings := text.tieWordEmbeddings.getD true
    attentionKEqV := text.attentionKEqV.getD true
    finalLogitSoftcapping := text.finalLogitSoftcapping
    hiddenSizePerLayerInput := text.hiddenSizePerLayerInput.getD 0
    layerTypes
    -- 10000
    ropeLocal := (sliding.map (·.normalize "default")).getD ⟨0x40C3880000000000, "default", none⟩
    ropeGlobal := full.map (·.normalize "proportional")
    modelType := text.modelType.getD "gemma4_unified_text"
    moeConfig := raw.moeConfig text }
  let quant := raw.quant
  return (arch, quant, {
    configHash
    modelType := raw.modelType.getD ""
    quantizationBits := raw.quantization.bind (·.bits)
    quantizationGroupSize := raw.quantization.bind (·.groupSize)
    quantizationMode := quant.map (·.mode.name)
    visionConfig := raw.visionConfig
    audioConfig := raw.audioConfig })

end TribunusCompute.ComputeImage
