import TribunusCompute.Lowering.Scheduled

/-!
# The ANE fusion pass

`AneFusionPass` finds the runs of adjacent regions on the ANE by their indices, joins a run of one
region to the run before it where another run follows, and then puts one region in the place of
every run that is long enough.
-/
namespace TribunusCompute.Lowering

inductive OperationFamily
  | quantizedMatmul
  | matmul
  | rmsNorm
  | rope
  | silu
  | add
  | multiply
  | softmax
  | transpose
  | reshape
  | indexSelect
  | sampling
  | reduction
  | layoutTransform
  | checksum
  | mlpBlock
  | attentionBlock
  | decoderLayer
  | prefillFragment
  deriving DecidableEq, Repr

structure FusionBoundary where
  operations : List OperationId
  fusedFamily : OperationFamily
  qualified : Bool
  backend : Option BackendId
  deriving DecidableEq, Repr

/-- A kernel that was fused before; the pass only hands it on. -/
structure FusionRegion where
  inputTensors : List TensorId
  outputTensors : List TensorId
  kernelName : String
  deriving DecidableEq, Repr

structure FusableRegion extends ScheduledRegion where
  fusions : List FusionBoundary
  fusionRegions : List FusionRegion
  deriving DecidableEq

structure AneFusionConfig where
  maxOpsPerRegion : Option ℕ
  minOpsToFuse : ℕ
  bridgeSingletons : Bool
  deriving DecidableEq, Repr

def AneFusionConfig.default : AneFusionConfig := ⟨none, 2, true⟩

def aneId : BackendId := ⟨3⟩

/-- The regions from `start` to `stop`, and how many of them are on the ANE. -/
structure AneRun where
  start : ℕ
  stop : ℕ
  len : ℕ
  deriving DecidableEq, Repr

def FusableRegion.isAne (region : FusableRegion) : Bool := region.selectedBackend = aneId

/-- One turn of the scan, with the start of the open run. -/
def scanRegion (state : List AneRun × Option ℕ) (entry : FusableRegion × ℕ) :
    List AneRun × Option ℕ :=
  match entry.1.isAne, state.2 with
  | true, none => (state.1, some entry.2)
  | false, some start => (state.1 ++ [⟨start, entry.2 - 1, entry.2 - start⟩], none)
  | _, _ => state

def bridgeRun (result : List AneRun) (runs : AneRun × AneRun) : List AneRun :=
  match result.getLast? with
  | some prev =>
    if runs.1.len = 1 ∧ prev.len > 0 ∧ runs.2.len > 0 then
      result.dropLast ++ [⟨prev.start, runs.1.stop, prev.len + 1⟩]
    else result ++ [runs.1]
  | none => result

def bridgeSingletonRuns (runs : List AneRun) : List AneRun :=
  if runs.length < 3 then runs
  else
    let result := (runs.tail.zip (runs.drop 2)).foldl bridgeRun (runs.take 1)
    if result.getLast?.map AneRun.stop ≠ runs.getLast?.map AneRun.stop then
      result ++ runs.getLast?.toList
    else result

def findAneRuns (config : AneFusionConfig) (regions : List FusableRegion) : List AneRun :=
  let (runs, runStart) := regions.zipIdx.foldl scanRegion ([], none)
  let runs := match runStart with
    | some start => runs ++ [⟨start, regions.length - 1, regions.length - start⟩]
    | none => runs
  if config.bridgeSingletons && runs.length ≥ 2 then bridgeSingletonRuns runs else runs

def fusedRegionId (first last : RegionId) : RegionId :=
  ⟨first.id * 1000003 % 2 ^ 64 ^^^ (last.id + 0x542b6d8b) % 2 ^ 64⟩

/-- One region for a run. The sum of the temporary memory panics past 64 bits. -/
def mergeRun (regions : List FusableRegion) (run : AneRun) : Option FusableRegion := do
  let first ← regions[run.start]?
  let last ← regions[run.stop]?
  let parts := regions.extract run.start (run.stop + 1)
  let tempMemoryBytes := (parts.map fun part => part.tempMemoryBytes).sum
  if tempMemoryBytes < 2 ^ 64 then
    return {
      regionId := fusedRegionId first.regionId last.regionId
      name := "ane_fused_r" ++ toString first.regionId.id ++ "-r" ++ toString last.regionId.id
      operations := parts.flatMap fun part => part.operations
      selectedBackend := aneId
      physicalTensors := parts.flatMap fun part => part.physicalTensors
      inputs := first.inputs
      outputs := last.outputs
      dependencies := first.dependencies
      fusions := (regions.extract (run.start + 1) (run.stop + 1)).map fun part =>
        ⟨part.operations, .mlpBlock, true, some aneId⟩
      fusionRegions := []
      stateEffects := parts.flatMap fun part => part.stateEffects
      tempMemoryBytes
      isFence := false }
  else none

/-- What the pass has emitted, with the index of the next region. -/
structure Fused where
  next : ℕ
  regions : List FusableRegion
  descriptions : List String

def fuseRun (config : AneFusionConfig) (regions : List FusableRegion) (fused : Fused)
    (run : AneRun) : Option Fused :=
  let emitted := fused.regions ++ regions.extract fused.next run.start
  if run.len ≥ config.minOpsToFuse then
    (mergeRun regions run).map fun fusedRegion => {
      next := run.stop + 1
      regions := emitted ++ [fusedRegion]
      descriptions := fused.descriptions ++ ["fused ANE regions " ++ toString run.start ++ "-" ++
        toString run.stop ++ " (" ++ toString run.len ++ " ops) into region " ++
        toString fusedRegion.regionId.id] }
  else some {
    next := run.stop + 1
    regions := emitted ++ regions.extract run.start (run.stop + 1)
    descriptions :=
      if run.len > 1 then
        fused.descriptions ++ ["skipped fusion of " ++ toString run.len ++
          " ops (below min_ops_to_fuse=" ++ toString config.minOpsToFuse ++ ")"]
      else fused.descriptions }

def fuse (config : AneFusionConfig) (regions : List FusableRegion) :
    Option (List FusableRegion × List String) :=
  if regions = [] then some ([], [])
  else do
    let fused ← (findAneRuns config regions).foldlM (fuseRun config regions) ⟨0, [], []⟩
    return (fused.regions ++ regions.extract fused.next regions.length, fused.descriptions)

end TribunusCompute.Lowering
