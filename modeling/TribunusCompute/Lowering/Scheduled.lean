import TribunusCompute.Library.Outcome

/-!
# Scheduled modules

A model as regions in execution order, each on one backend, with the tensors it places, what it
waits for and the memory it takes; and, over the regions, transfers, a memory plan and the
boundaries at which the regions are evaluated together.
-/
namespace TribunusCompute.Lowering

structure TensorId where
  id : ℕ
  deriving DecidableEq, Repr

structure OperationId where
  id : ℕ
  deriving DecidableEq, Repr

structure BackendId where
  id : ℕ
  deriving DecidableEq, Repr

structure RegionId where
  id : ℕ
  deriving DecidableEq, Repr

inductive DType
  | f32
  | f16
  | bf16
  | i8
  | u8
  | i32
  | u32
  deriving DecidableEq, Repr

inductive PhysicalLayout
  | rowMajor
  | columnMajor
  | packedU32 (groupSize : UInt32) (bits : UInt8)
  | custom (name : String)
  deriving DecidableEq

inductive StorageClass
  | ioSurface
  | heap
  | mapped
  | metal
  | coreMlArray
  | virtual
  deriving DecidableEq, Repr

structure PhysicalTensor where
  semanticId : TensorId
  name : String
  shape : List UInt32
  dtype : DType
  layout : PhysicalLayout
  storageClass : StorageClass
  backend : BackendId
  materialized : Bool
  alignment : ℕ
  deriving DecidableEq

inductive DependencyKind
  | data
  | stateTransition
  | resource
  | ordering
  deriving DecidableEq, Repr

/-- The region that must complete first, and the tensors flowing from it. -/
structure RegionDependency where
  predecessor : RegionId
  tensors : List TensorId
  kind : DependencyKind
  deriving DecidableEq, Repr

inductive StateEffect
  | kvCacheRead
  | kvCacheWrite
  | kvCacheClear
  deriving DecidableEq, Repr

structure ScheduledRegion where
  regionId : RegionId
  name : String
  operations : List OperationId
  selectedBackend : BackendId
  physicalTensors : List PhysicalTensor
  inputs : List TensorId
  outputs : List TensorId
  dependencies : List RegionDependency
  stateEffects : List StateEffect
  tempMemoryBytes : ℕ
  isFence : Bool
  deriving DecidableEq

structure TransferPlan where
  source : TensorId
  destination : TensorId
  sourceBackend : BackendId
  destBackend : BackendId
  sourceStorage : StorageClass
  destStorage : StorageClass
  sizeBytes : ℕ
  zeroCopyCapable : Bool
  zeroCopyVerified : Bool
  conversionNeeded : Bool
  deriving DecidableEq, Repr

structure BufferReuse where
  tensorA : TensorId
  tensorB : TensorId
  sizeBytes : ℕ
  deriving DecidableEq, Repr

structure MemoryPlan where
  totalBytes : ℕ
  peakBytes : ℕ
  perBackend : List (BackendId × ℕ)
  aliases : List (TensorId × TensorId)
  bufferReuse : List BufferReuse
  deriving DecidableEq, Repr

structure SealedEvaluationBoundary where
  regions : List RegionId
  requiresFence : Bool
  sameBackend : Bool
  deriving DecidableEq, Repr

structure ScheduledModule where
  digest : String
  sourceSemanticDigest : String
  regions : List ScheduledRegion
  transfers : List TransferPlan
  memoryPlan : MemoryPlan
  evaluationBoundaries : List SealedEvaluationBoundary
  machineProfileDigest : String
  deriving DecidableEq

namespace ScheduledModule

def new (sourceSemanticDigest : String) : ScheduledModule where
  digest := ""
  sourceSemanticDigest
  regions := []
  transfers := []
  memoryPlan := ⟨0, 0, [], [], []⟩
  evaluationBoundaries := []
  machineProfileDigest := ""

def digestedText (region : ScheduledRegion) : String :=
  s!"{region.regionId.id}" ++ s!"{region.selectedBackend.id}" ++ s!"{region.operations.length}"

/-- The module with the digest of its regions. -/
def sealed (sha256 : List UInt8 → String) (module : ScheduledModule) : ScheduledModule :=
  let text := module.regions.foldl (fun text region => text ++ digestedText region)
    module.sourceSemanticDigest
  { module with digest := sha256 text.toUTF8.toList }

end ScheduledModule

end TribunusCompute.Lowering
