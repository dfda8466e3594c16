import TribunusCompute.Library.Text
import TribunusCompute.ComputeImage.Manifest

/-!
# The image builder

Tensors are appended to an open segment; opening the next segment, or finalizing, closes it.
-/
namespace TribunusCompute.ComputeImage

structure SegmentBuilder where
  id : String
  filename : String
  kind : SegmentKind
  data : List UInt8
  tensorIds : List ℕ
  offset : ℕ
  deriving DecidableEq, Repr

structure ImageBuilder where
  manifest : Manifest
  nextTensorId : ℕ
  currentSegment : Option SegmentBuilder
  segments : List Segment
  segmentPayloads : List (List UInt8)
  tensors : List TensorEntry
  aliases : List AliasEntry
  deriving DecidableEq, Repr

/-- The arguments of `add_tensor`. -/
structure TensorSpec where
  name : String
  role : String
  layer : Option ℕ
  data : List UInt8
  sourceFilename : String
  sourceSha256 : String
  sourceOffset : ℕ
  logicalDtype : String
  storageDtype : String
  logicalShape : List ℕ
  physicalShape : List ℕ
  quantization : Option QuantizationDesc
  deriving DecidableEq, Repr

/-- `segment_{:03}.bin`. -/
def segmentFilename (index : ℕ) : String :=
  "segment_" ++ String.ofList (Decimal.padded 3 index) ++ ".bin"

namespace ImageBuilder

def new (arch : TextArchitecture) (source : SourceIdentity) : ImageBuilder where
  manifest := Manifest.new arch source
  nextTensorId := 0
  currentSegment := none
  segments := []
  segmentPayloads := []
  tensors := []
  aliases := []

/-- So that new ids do not collide with those of a previous compilation. -/
def setStartTensorId (b : ImageBuilder) (startId : ℕ) : ImageBuilder :=
  { b with nextTensorId := startId }

def recordResidency (plan : ResidencyPlan) (segment : Segment) : ResidencyPlan :=
  match segment.kind with
  | .persistent | .final =>
    { plan with persistentSegments := plan.persistentSegments ++ [segment.id] }
  | .layer _ => { plan with layerSegments := plan.layerSegments ++ [segment.id] }

def flushSegment (hashing : Hashing) (b : ImageBuilder) : ImageBuilder :=
  match b.currentSegment with
  | none => b
  | some seg =>
    let segment : Segment := {
      id := seg.id
      filename := seg.filename
      byteSize := seg.data.length
      sha256 := hashing.sha256Bytes seg.data
      tensorIds := seg.tensorIds
      kind := seg.kind
      alignmentBytes := 4096
    }
    { b with
      currentSegment := none
      segmentPayloads := b.segmentPayloads ++ [seg.data]
      segments := b.segments ++ [segment]
      manifest := { b.manifest with
        residencyPlan := recordResidency b.manifest.residencyPlan segment } }

def beginSegment (hashing : Hashing) (b : ImageBuilder) (id : String) (kind : SegmentKind) :
    ImageBuilder :=
  let b := b.flushSegment hashing
  { b with currentSegment := some {
      id
      filename := segmentFilename b.segments.length
      kind
      data := []
      tensorIds := []
      offset := 0 } }

/-- Append a tensor to the open segment and return its id. Panics where no segment is open,
or where the segment would outgrow a vector. -/
def addTensor (b : ImageBuilder) (t : TensorSpec) : Outcome (ImageBuilder × ℕ) :=
  match b.currentSegment with
  | none => Outcome.panics
  | some seg => do
    let _ ← Outcome.fit 63 (seg.data.length + t.data.length)
    let id := b.nextTensorId
    let entry : TensorEntry := {
      id
      name := t.name
      role := t.role
      layer := t.layer
      segment := seg.id
      sourceFilename := t.sourceFilename
      sourceSha256 := t.sourceSha256
      sourceOffset := t.sourceOffset
      offset := seg.offset
      byteLength := t.data.length
      logicalDtype := t.logicalDtype
      storageDtype := t.storageDtype
      logicalShape := t.logicalShape
      physicalShape := t.physicalShape
      mutability := "read_only"
      quantization := t.quantization
      tensorAlignmentBytes := 16
      layoutVersion := 1
    }
    let seg := { seg with
      data := seg.data ++ t.data
      offset := seg.offset + t.data.length
      tensorIds := seg.tensorIds ++ [id] }
    return ({ b with
      currentSegment := some seg
      nextTensorId := id + 1
      tensors := b.tensors ++ [entry] }, id)

def addAlias (b : ImageBuilder) (logicalName : String) (physicalTensorId : ℕ)
    (reason : String) : ImageBuilder :=
  { b with aliases := b.aliases ++ [⟨logicalName, physicalTensorId, reason⟩] }

def setExecutionPlan (b : ImageBuilder) (plan : ModelExecutionPlan) : ImageBuilder :=
  { b with manifest := { b.manifest with executionPlan := plan } }

def setAudioConfig (b : ImageBuilder) (config : AudioArchitecture) : ImageBuilder :=
  { b with manifest := { b.manifest with audioConfig := some config } }

def setMetallib (b : ImageBuilder) (sha256 : String) (byteSize : ℕ) : ImageBuilder :=
  { b with manifest :=
    { b.manifest with metallibHash := some sha256, metallibSize := some byteSize } }

def writeFiles (files : String → Option (List UInt8)) (written : List (String × List UInt8)) :
    String → Option (List UInt8) :=
  written.foldl (fun files (filename, payload) => Function.update files filename payload) files

/-- Close the last segment; the manifest, and what the segment files are after they have been
written. The date and the host are those of the machine. -/
def finalize (hashing : Hashing) (b : ImageBuilder) (date host : String)
    (files : String → Option (List UInt8)) : Manifest × (String → Option (List UInt8)) :=
  let b := b.flushSegment hashing
  let written := (b.segments.zip b.segmentPayloads).map fun (seg, payload) =>
    (seg.filename, payload)
  let manifest := { b.manifest with
    segments := b.segments
    tensorTable := b.tensors
    aliasTable := b.aliases
    compileDate := date
    compileHost := host
    residencyPlan := { b.manifest.residencyPlan with
      totalBytes := (b.segments.map Segment.byteSize).sum } }
  (manifest.seal hashing, writeFiles files written)

/-- Close the last segment and hand the segments over, without writing them. -/
def flushAndCollectSegments (hashing : Hashing) (b : ImageBuilder) :
    ImageBuilder × List Segment × List (List UInt8) × Manifest :=
  let b := b.flushSegment hashing
  ({ b with segments := [], segmentPayloads := [] }, b.segments, b.segmentPayloads, b.manifest)

/-! ## Runs of calls -/

inductive Call
  | beginSegment (id : String) (kind : SegmentKind)
  | addTensor (tensor : TensorSpec)
  | addAlias (logicalName : String) (physicalTensorId : ℕ) (reason : String)
  deriving DecidableEq, Repr

def call (hashing : Hashing) (b : ImageBuilder) : Call → Outcome ImageBuilder
  | .beginSegment id kind => .ok (b.beginSegment hashing id kind)
  | .addTensor tensor => do
    let (b, _) ← b.addTensor tensor
    return b
  | .addAlias logicalName physicalTensorId reason =>
    .ok (b.addAlias logicalName physicalTensorId reason)

end ImageBuilder

/-- A directory from which files read back as written. -/
def ImageDir.ofFiles (display : String → String) (files : String → Option (List UInt8)) :
    ImageDir where
  display
  read filename :=
    match files filename with
    | some bytes => .ok bytes
    | none => .error "No such file or directory (os error 2)"

end TribunusCompute.ComputeImage
