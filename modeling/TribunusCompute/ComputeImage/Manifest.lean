import TribunusCompute.Library.Keyed
import TribunusCompute.ComputeImage.ExecutionPlan

/-!
# Manifests and the image reader

A compiled image is a manifest, a receipt and segment files. The reader verifies the image
when it opens it, and reads tensors out of the segment files.
-/
namespace TribunusCompute.ComputeImage

/-! ## Image data -/

structure ShardHash where
  filename : String
  sha256 : String
  deriving DecidableEq, Repr

structure SourceIdentity where
  configHash : String
  shardHashes : List ShardHash
  tokenizerHashes : List ShardHash
  auxiliaryHashes : List ShardHash
  modelType : String
  quantizationBits : ℕ
  quantizationGroupSize : ℕ
  quantizationMode : String
  deriving DecidableEq, Repr

inductive HardwareTarget
  | m1 | m1Pro | m2 | m2Ultra | m3Ultra
  deriving DecidableEq, Repr

structure VisionArchitecture where
  hiddenSize : ℕ
  numAttentionHeads : ℕ
  numHiddenLayers : ℕ
  intermediateSize : ℕ
  imageSize : ℕ
  patchSize : ℕ
  numChannels : ℕ
  projectionDim : ℕ
  deriving DecidableEq, Repr

structure AudioArchitecture where
  hiddenSize : ℕ
  numAttentionHeads : ℕ
  numHiddenLayers : ℕ
  intermediateSize : ℕ
  sampleRate : ℕ
  numMelBins : ℕ
  hopLength : ℕ
  maxAudioLengthS : ℕ
  projectionDim : ℕ
  deriving DecidableEq, Repr

inductive SegmentKind
  | persistent
  | layer (index : ℕ)
  | final
  deriving DecidableEq, Repr

structure Segment where
  id : String
  filename : String
  byteSize : ℕ
  sha256 : String
  tensorIds : List ℕ
  kind : SegmentKind
  alignmentBytes : ℕ
  deriving DecidableEq, Repr

structure QuantizationDesc where
  bits : ℕ
  groupSize : ℕ
  groups : ℕ
  scaleTensorId : ℕ
  biasTensorId : ℕ
  deriving DecidableEq, Repr

structure TensorEntry where
  id : ℕ
  name : String
  role : String
  layer : Option ℕ
  segment : String
  sourceFilename : String
  sourceSha256 : String
  sourceOffset : ℕ
  offset : ℕ
  byteLength : ℕ
  logicalDtype : String
  storageDtype : String
  logicalShape : List ℕ
  physicalShape : List ℕ
  mutability : String
  quantization : Option QuantizationDesc
  tensorAlignmentBytes : ℕ
  layoutVersion : ℕ
  deriving DecidableEq, Repr

structure AliasEntry where
  logicalName : String
  physicalTensorId : ℕ
  reason : String
  deriving DecidableEq, Repr

structure ResidencyPlan where
  persistentSegments : List String
  layerSegments : List String
  layerWindowSize : ℕ
  totalBytes : ℕ
  deriving DecidableEq, Repr

structure Manifest where
  imageVersion : String
  compilerVersion : String
  runtimeAbi : String
  hardwareTarget : Option HardwareTarget
  compileDate : String
  compileHost : String
  source : SourceIdentity
  architecture : TextArchitecture
  visionConfig : Option VisionArchitecture
  audioConfig : Option AudioArchitecture
  segments : List Segment
  tensorTable : List TensorEntry
  aliasTable : List AliasEntry
  residencyPlan : ResidencyPlan
  imageHash : String
  requiredStorageAbi : String
  requiredCapabilities : List String
  prepackedLayout : String
  metallibHash : Option String
  metallibSize : Option ℕ
  executionPlan : ModelExecutionPlan
  deriving DecidableEq, Repr

def Manifest.new (arch : TextArchitecture) (source : SourceIdentity) : Manifest where
  imageVersion := "0.1.0"
  compilerVersion := "0.1.0"
  runtimeAbi := "mlx-rs/0.21.0 core/0.1.0 safetensors/0.5.3"
  hardwareTarget := none
  compileDate := ""
  compileHost := ""
  source
  architecture := arch
  visionConfig := none
  audioConfig := none
  segments := []
  tensorTable := []
  aliasTable := []
  residencyPlan := ⟨[], [], 2, 0⟩
  imageHash := ""
  requiredStorageAbi := "copied-v0"
  requiredCapabilities := []
  prepackedLayout := "none"
  metallibHash := none
  metallibSize := none
  executionPlan := .default

structure SegmentReceipt where
  id : String
  filename : String
  sha256 : String
  byteSize : ℕ
  deriving DecidableEq, Repr

structure CompileReceipt where
  compilerVersion : String
  runtimeAbi : String
  completeImageHash : String
  segmentHashes : List SegmentReceipt
  tensorCount : ℕ
  aliasCount : ℕ
  segmentCount : ℕ
  totalEmittedBytes : ℕ
  deriving DecidableEq, Repr

/-! ## Hashes -/

/-- The fields of a manifest that its hash covers. -/
structure Fingerprint where
  imageVersion : String
  compilerVersion : String
  runtimeAbi : String
  source : SourceIdentity
  architecture : TextArchitecture
  segments : List Segment
  tensorTable : List TensorEntry
  aliasTable : List AliasEntry
  residencyPlan : ResidencyPlan
  deriving DecidableEq, Repr

/-- SHA-256 in hexadecimal digits, and the JSON text of a fingerprint. -/
structure Hashing where
  sha256Bytes : List UInt8 → String
  toVec : Fingerprint → List UInt8

def Manifest.fingerprint (manifest : Manifest) : Fingerprint where
  imageVersion := manifest.imageVersion
  compilerVersion := manifest.compilerVersion
  runtimeAbi := manifest.runtimeAbi
  source := manifest.source
  architecture := manifest.architecture
  segments := manifest.segments
  tensorTable := manifest.tensorTable
  aliasTable := manifest.aliasTable
  residencyPlan := manifest.residencyPlan

def computeManifestHash (hashing : Hashing) (manifest : Manifest) : String :=
  hashing.sha256Bytes (hashing.toVec manifest.fingerprint)

def Manifest.seal (hashing : Hashing) (manifest : Manifest) : Manifest :=
  { manifest with imageHash := computeManifestHash hashing manifest }

def buildCompileReceipt (manifest : Manifest) : CompileReceipt where
  compilerVersion := manifest.compilerVersion
  runtimeAbi := manifest.runtimeAbi
  completeImageHash := manifest.imageHash
  segmentHashes := manifest.segments.map fun segment =>
    ⟨segment.id, segment.filename, segment.sha256, segment.byteSize⟩
  tensorCount := manifest.tensorTable.length
  aliasCount := manifest.aliasTable.length
  segmentCount := manifest.segments.length
  totalEmittedBytes := (manifest.segments.map Segment.byteSize).sum

/-! ## Reading an image -/

/-- The files of an image directory, and how its paths are shown. -/
structure ImageDir where
  display : String → String
  read : String → Except String (List UInt8)

structure CompiledImageReader where
  manifest : Manifest
  receipt : CompileReceipt
  imageDir : ImageDir

structure ManifestVerification where
  manifestHashMatches : Bool
  segmentHashesMatch : Bool
  verifiedSegmentCount : ℕ
  totalBytes : ℕ
  deriving DecidableEq, Repr

def storageAbiCopiedV0 : String := "copied-v0"
def storageAbiMappedNoCopyV1 : String := "mapped-no-copy-v1"

def isValidStorageAbi (abi : String) : Prop :=
  abi = storageAbiCopiedV0 ∨ abi = storageAbiMappedNoCopyV1

instance (abi : String) : Decidable (isValidStorageAbi abi) :=
  inferInstanceAs (Decidable (_ ∨ _))

namespace CompiledImageReader

variable (reader : CompiledImageReader)

def readSegmentBytes (filename : String) : Outcome (List UInt8) :=
  match reader.imageDir.read filename with
  | .ok bytes => .ok bytes
  | .error e =>
    Outcome.report ("read segment " ++ reader.imageDir.display filename ++ ": " ++ e)

/-- `read_segment_bytes` as `verify` calls it. -/
def readForHash (segment : Segment) : Outcome (List UInt8) :=
  match reader.imageDir.read segment.filename with
  | .ok bytes => .ok bytes
  | .error e =>
    Outcome.report ("segment hash mismatch check - read segment " ++
      reader.imageDir.display segment.filename ++ ": " ++ e)

def receiptMatchesManifest : Bool :=
  reader.receipt.completeImageHash == reader.manifest.imageHash &&
  reader.receipt.segmentHashes.length == reader.manifest.segments.length &&
  (reader.receipt.segmentHashes.zip reader.manifest.segments).all fun (receipt, segment) =>
    receipt.id == segment.id && receipt.filename == segment.filename &&
      receipt.sha256 == segment.sha256 && receipt.byteSize == segment.byteSize

def checkMappedSegment (segment : Segment) : Outcome Unit :=
  match reader.imageDir.read segment.filename with
  | .error _ =>
    Outcome.report ("mapped-no-copy: segment file does not exist: " ++
      reader.imageDir.display segment.filename)
  | .ok bytes => do
    Outcome.require (bytes.length = segment.byteSize)
      ("mapped-no-copy: segment " ++ segment.filename ++ " size mismatch: manifest says " ++
        toString segment.byteSize ++ " but file is " ++ toString bytes.length)
    let ab := segment.alignmentBytes
    Outcome.require (4096 ≤ ab ∧ ab &&& (ab - 1) = 0)
      ("mapped-no-copy: segment " ++ segment.filename ++ " alignment_bytes " ++ toString ab ++
        " is not a power of two >= 4096")
    Outcome.require (segment.byteSize % ab = 0)
      ("mapped-no-copy: segment " ++ segment.filename ++ " byte_size " ++
        toString segment.byteSize ++ " is not aligned to " ++ toString ab)

/-- The segment a hash map built from the list holds under an id: the last one. -/
def segMap (id : String) : Option Segment :=
  Keyed.find Segment.id reader.manifest.segments.reverse id

def checkMappedTensor (tensor : TensorEntry) : Outcome Unit := do
  let tab := if tensor.tensorAlignmentBytes ≠ 0 then tensor.tensorAlignmentBytes else 16
  Outcome.require (tensor.offset % tab = 0)
    ("mapped-no-copy: tensor " ++ tensor.name ++ " offset " ++ toString tensor.offset ++
      " not aligned to " ++ toString tab)
  match reader.segMap tensor.segment with
  | none => pure ()
  | some seg =>
    Outcome.require (Outcome.saturatingAdd tensor.offset tensor.byteLength ≤ seg.byteSize)
      ("mapped-no-copy: tensor " ++ tensor.name ++ " offset " ++ toString tensor.offset ++
        " + byte_length " ++ toString tensor.byteLength ++ " exceeds segment " ++ seg.id ++
        " byte_size " ++ toString seg.byteSize)

def checkStorageAbi : Outcome Unit :=
  if reader.manifest.requiredStorageAbi = storageAbiMappedNoCopyV1 then do
    forM reader.manifest.segments reader.checkMappedSegment
    forM reader.manifest.tensorTable reader.checkMappedTensor
  else
    Outcome.require (isValidStorageAbi reader.manifest.requiredStorageAbi)
      ("unknown storage ABI: " ++ reader.manifest.requiredStorageAbi)

/-- Full verification; `skip` is whether `TRIBUNUS_SKIP_MANIFEST_HASH` is set. -/
def verify (hashing : Hashing) (skip : Bool) : Outcome ManifestVerification := do
  let manifestHashMatches :=
    reader.manifest.imageHash == computeManifestHash hashing reader.manifest || skip
  let payloads ← reader.manifest.segments.mapM reader.readForHash
  let hashed := (reader.manifest.segments.zip payloads).map fun (segment, bytes) =>
    hashing.sha256Bytes bytes == segment.sha256
  let segmentHashesMatch := hashed.all id &&
    reader.receipt.completeImageHash == reader.manifest.imageHash &&
    reader.receiptMatchesManifest
  Outcome.require manifestHashMatches "compiled image manifest hash mismatch"
  Outcome.require reader.receiptMatchesManifest "compiled image receipt does not match manifest"
  Outcome.require segmentHashesMatch "compiled image segment hash mismatch"
  reader.checkStorageAbi
  return {
    manifestHashMatches
    segmentHashesMatch
    verifiedSegmentCount := hashed.count true
    totalBytes := (payloads.map List.length).sum
  }

/-- The first entry with the name, from the first segment with its id. -/
def tensorBytes (name : String) : Outcome (List UInt8 × String × List ℕ) := do
  let entry ← Outcome.orReport ("tensor not found in manifest: " ++ name)
    (Keyed.find TensorEntry.name reader.manifest.tensorTable name)
  let segment ← Outcome.orReport ("segment not found for tensor: " ++ name)
    (Keyed.find Segment.id reader.manifest.segments entry.segment)
  let payload ← reader.readSegmentBytes segment.filename
  let start := entry.offset
  let «end» ← Outcome.fit 64 (start + entry.byteLength)
  Outcome.require («end» ≤ payload.length) ("tensor " ++ name ++ " exceeds segment bounds")
  return ((payload.drop start).take («end» - start), entry.storageDtype, entry.physicalShape)

end CompiledImageReader

/-- Slice the bytes of an entry out of a segment's payload. -/
def sliceTensorBytes (segmentBytes : List UInt8) (entry : TensorEntry) :
    Outcome (List UInt8) := do
  let start := entry.offset
  let «end» ← Outcome.fit 64 (start + entry.byteLength)
  Outcome.require («end» ≤ segmentBytes.length)
    ("tensor " ++ entry.name ++ " offset " ++ toString start ++ ".." ++ toString «end» ++
      " exceeds segment length " ++ toString segmentBytes.length)
  return (segmentBytes.drop start).take («end» - start)

end TribunusCompute.ComputeImage
