import Mathlib.Data.List.Sort
import TribunusCompute.ComputeImage.Manifest

/-!
# Source checkpoints

What the compiler reads of a checkpoint: its configuration, and the tensors of its shards.
-/
namespace TribunusCompute.ComputeImage

structure SourceTensor where
  name : String
  dtype : String
  shape : List ℕ
  data : List UInt8
  sourceFilename : String
  sourceSha256 : String
  sourceOffset : ℕ
  deriving DecidableEq, Repr

structure ModelManifest where
  configHash : String
  modelType : String
  quantizationBits : Option ℕ
  quantizationGroupSize : Option ℕ
  quantizationMode : Option String
  visionConfig : Option VisionArchitecture
  audioConfig : Option AudioArchitecture
  deriving DecidableEq, Repr

structure TensorView where
  name : String
  dtype : String
  shape : List ℕ
  dataOffset : ℕ
  data : List UInt8
  deriving DecidableEq, Repr

structure Shard where
  filename : String
  sha256 : String
  tensors : List TensorView
  deriving DecidableEq, Repr

/-- A source directory: the parsed configuration, the shards, and the other hashed files. -/
structure Checkpoint where
  config : TextArchitecture × Option QuantizationMeta × ModelManifest
  shards : List Shard
  tokenizerHashes : List ShardHash
  auxiliaryHashes : List ShardHash
  deriving DecidableEq, Repr

structure LoadedSource where
  arch : TextArchitecture
  manifest : ModelManifest
  nameSpace : NamespaceBinding
  spec : ExecutionSpec
  sourceTensors : HashMap SourceTensor
  shardHashes : List ShardHash
  tokenizerHashes : List ShardHash
  auxiliaryHashes : List ShardHash

def TensorView.toSource (view : TensorView) (shard : Shard) : SourceTensor where
  name := view.name
  dtype := view.dtype
  shape := view.shape.map (· % 2 ^ 32)
  data := view.data
  sourceFilename := shard.filename
  sourceSha256 := shard.sha256
  sourceOffset := view.dataOffset

def readTensor (shard : Shard) (sourceTensors : HashMap SourceTensor) (view : TensorView) :
    Outcome (HashMap SourceTensor) := do
  Outcome.require (sourceTensors.lookup view.name = none) ("duplicate tensor name: " ++ view.name)
  return sourceTensors.insert view.name (view.toSource shard)

def readShard (sourceTensors : HashMap SourceTensor) (shard : Shard) :
    Outcome (HashMap SourceTensor) :=
  (shard.tensors.insertionSort fun left right => left.name ≤ right.name).foldlM (readTensor shard)
    sourceTensors

/-- `load_source`. The checks of the validator and of the model adapter, which change nothing,
are those of `validate`; they are left out where `skipValidation` says so. -/
def loadSource (validate : LoadedSource → Outcome Unit) (skipValidation : Bool)
    (checkpoint : Checkpoint) : Outcome LoadedSource := do
  let (arch, quant, manifest) := checkpoint.config
  let sourceTensors ← checkpoint.shards.foldlM readShard ∅
  let allNames := sourceTensors.keys
  let nameSpace ← Outcome.orReport "namespace not resolved" (resolveNamespace allNames)
  let spec ← compile arch nameSpace quant
  let loaded : LoadedSource := {
    arch
    manifest
    nameSpace
    spec := filterSpecToExisting spec allNames
    sourceTensors
    shardHashes := checkpoint.shards.map fun shard => ⟨shard.filename, shard.sha256⟩
    tokenizerHashes := checkpoint.tokenizerHashes
    auxiliaryHashes := checkpoint.auxiliaryHashes
  }
  unless skipValidation do validate loaded
  return loaded

section Load

variable {validate : LoadedSource → Outcome Unit} {skipValidation : Bool} {checkpoint : Checkpoint}
  {loaded : LoadedSource}

/-- The specification of a loaded source is compiled for the namespace found in it, less the
tensors it does not have. -/
theorem loadSource_ok (ok : loadSource validate skipValidation checkpoint = .ok loaded) :
    loaded.arch = checkpoint.config.1 ∧ loaded.manifest = checkpoint.config.2.2 ∧
      checkpoint.shards.foldlM readShard ∅ = .ok loaded.sourceTensors ∧
      resolveNamespace loaded.sourceTensors.keys = some loaded.nameSpace ∧
      ∃ spec, compile loaded.arch loaded.nameSpace checkpoint.config.2.1 = .ok spec ∧
        loaded.spec = filterSpecToExisting spec loaded.sourceTensors.keys := by
  obtain ⟨sourceTensors, read, rest⟩ := Outcome.bind_ok_iff.mp ok
  obtain ⟨nameSpace, resolved, rest⟩ := Outcome.bind_ok_iff.mp rest
  obtain ⟨spec, compiled, rest⟩ := Outcome.bind_ok_iff.mp rest
  rw [Outcome.orReport_ok_iff] at resolved
  have done : loaded = {
      arch := checkpoint.config.1
      manifest := checkpoint.config.2.2
      nameSpace
      spec := filterSpecToExisting spec sourceTensors.keys
      sourceTensors
      shardHashes := checkpoint.shards.map fun shard => ⟨shard.filename, shard.sha256⟩
      tokenizerHashes := checkpoint.tokenizerHashes
      auxiliaryHashes := checkpoint.auxiliaryHashes } := by
    cases skipValidation with
    | true => exact (Except.ok.inj rest).symm
    | false =>
      obtain ⟨_, -, done⟩ := Outcome.bind_ok_iff.mp rest
      exact (Except.ok.inj done).symm
  subst done
  exact ⟨rfl, rfl, read, resolved, spec, compiled, rfl⟩

end Load

def buildSourceIdentity (manifest : ModelManifest)
    (shardHashes tokenizerHashes auxiliaryHashes : List ShardHash) : SourceIdentity where
  configHash := manifest.configHash
  shardHashes
  tokenizerHashes
  auxiliaryHashes
  modelType := manifest.modelType
  quantizationBits := manifest.quantizationBits.getD 8
  quantizationGroupSize := manifest.quantizationGroupSize.getD 64
  quantizationMode := manifest.quantizationMode.getD "affine"

end TribunusCompute.ComputeImage
