import TribunusCompute.Lowering.CompileSchedule

/-!
# Schedules are well formed

## Strategy

A layer's region is characterised once (`IsLayer`), and everything else is read off its index:
the region at `i` depends on the one at `i - 1`, and its tensors are numbered from `i * 100`. Some
offsets pass a hundred, so that two layers' numbers interleave. No two offsets agree modulo a
hundred, which keeps the numbers apart (`Strides.nodup_numbers`).
-/
namespace TribunusCompute.Lowering

open Outcome

/-- What the schedule of a model of `count` layers promises. -/
structure WellScheduled (count : ℕ) (module : ScheduledModule) : Prop where
  regionIds : module.regions.map (fun region => region.regionId.id) = List.range count
  /-- A dependency is on an earlier region, and on what that region puts out. -/
  dependencies : ∀ (i : ℕ) (region : ScheduledRegion), module.regions[i]? = some region →
    ∀ dependency ∈ region.dependencies,
      ∃ j < i, ∃ earlier : ScheduledRegion, module.regions[j]? = some earlier ∧
        dependency.predecessor = earlier.regionId ∧ dependency.tensors ≠ [] ∧
          ∀ tensor ∈ dependency.tensors, tensor ∈ earlier.outputs
  tensorIds : (module.regions.flatMap fun region =>
    region.physicalTensors.map PhysicalTensor.semanticId).Nodup
  boundaries : module.evaluationBoundaries.flatMap SealedEvaluationBoundary.regions =
    module.regions.map ScheduledRegion.regionId
  boundarySizes : ∀ boundary ∈ module.evaluationBoundaries,
    boundary.regions ≠ [] ∧ boundary.regions.length ≤ 6
  peak : ∀ region ∈ module.regions, region.tempMemoryBytes ≤ module.memoryPlan.peakBytes

/-! ### Numbers -/

def tensorOffsets : List ℕ :=
  [1, 2, 3, 4, 10 + 'q'.toNat, 10 + 'k'.toNat, 10 + 'v'.toNat, 20, 21, 22]

theorem map_layerTensors (sizes : SharedSizes) (i : ℕ) (layer : LayerPlan) :
    (layerTensors sizes i layer).map Prod.fst = tensorOffsets := rfl

theorem nodup_residues : (tensorOffsets.map (· % 100)).Nodup := by decide

theorem layerTensorId_ok {layerId offset : ℕ} {tensor : TensorId}
    (numbered : layerTensorId layerId offset = .ok tensor) :
    tensor = ⟨Strides.number 100 layerId offset⟩ := by
  unfold layerTensorId at numbered
  obtain ⟨id, fits, made⟩ := bind_ok_iff.mp numbered
  obtain ⟨-, rfl⟩ := fit_ok_iff.mp fits
  exact (pure_ok_iff.mp made).symm

/-! ### Regions -/

/-- The region of the layer at `i`, as far as the other loops rely on it. -/
structure IsLayer (perLayerBytes : List ℕ) (i : ℕ) (region : ScheduledRegion) : Prop where
  regionId : region.regionId = ⟨i⟩
  outputs : region.outputs = [⟨Strides.number 100 i 2⟩]
  tensors : region.physicalTensors.map PhysicalTensor.semanticId =
    (tensorOffsets.map (Strides.number 100 i)).map TensorId.mk
  dependencies : ∀ dependency ∈ region.dependencies, 0 < i ∧
    dependency.predecessor = ⟨i - 1⟩ ∧ dependency.tensors = [⟨Strides.number 100 (i - 1) 2⟩]
  bytes : perLayerBytes[i]? = some region.tempMemoryBytes

theorem map_semanticId {layerId : ℕ} {backendId : BackendId}
    {tensors : List (ℕ × String × List UInt32)} {placed : List PhysicalTensor}
    (made : tensors.mapM (fun tensor => do
      let id ← layerTensorId layerId tensor.1
      return physicalTensor id tensor.2.1 tensor.2.2 .f32 .ioSurface backendId) = .ok placed) :
    placed.map PhysicalTensor.semanticId =
      ((tensors.map Prod.fst).map (Strides.number 100 layerId)).map TensorId.mk := by
  have each := mapM_ok_iff.mp made
  clear made
  induction each with
  | nil => rfl
  | cons first _ ih =>
    obtain ⟨id, numbered, placedThere⟩ := bind_ok_iff.mp first
    obtain rfl := pure_ok_iff.mp placedThere
    rw [List.map_cons, ih, layerTensorId_ok numbered]
    rfl

theorem layerDependencies_ok {i : ℕ} {dependencies : List RegionDependency}
    (waits : layerDependencies i = .ok dependencies) :
    ∀ dependency ∈ dependencies, 0 < i ∧ dependency.predecessor = ⟨i - 1⟩ ∧
      dependency.tensors = [⟨Strides.number 100 (i - 1) 2⟩] := by
  unfold layerDependencies at waits
  split at waits
  next later =>
    obtain ⟨hidden, numbered, made⟩ := bind_ok_iff.mp waits
    obtain rfl := pure_ok_iff.mp made
    intro dependency member
    rw [List.mem_singleton] at member
    subst dependency
    exact ⟨later, rfl, by rw [layerTensorId_ok numbered]⟩
  next first =>
    -- the first layer waits for nothing
    obtain rfl := pure_ok_iff.mp waits
    intro dependency member
    cases member

theorem layerRegion_isLayer {sizes : SharedSizes} {perLayerBytes : List ℕ} {layer : LayerPlan}
    {i : ℕ} {region : ScheduledRegion}
    (made : layerRegion sizes perLayerBytes layer i = .ok region) :
    IsLayer perLayerBytes i region := by
  unfold layerRegion at made
  obtain ⟨placed, placing, made⟩ := bind_ok_iff.mp made
  obtain ⟨dependencies, waits, made⟩ := bind_ok_iff.mp made
  obtain ⟨attention, -, made⟩ := bind_ok_iff.mp made
  obtain ⟨ffn, -, made⟩ := bind_ok_iff.mp made
  obtain ⟨input, -, made⟩ := bind_ok_iff.mp made
  obtain ⟨output, produced, made⟩ := bind_ok_iff.mp made
  obtain ⟨bytes, found, made⟩ := bind_ok_iff.mp made
  obtain rfl := pure_ok_iff.mp made
  have there : perLayerBytes[i]? = some bytes := by
    split at found
    next held => exact held.trans (congrArg some (by cases found; rfl))
    next => cases found
  exact {
    regionId := rfl
    outputs := by rw [layerTensorId_ok produced]
    tensors := by rw [map_semanticId placing, map_layerTensors]
    dependencies := layerDependencies_ok waits
    bytes := there }

theorem regions_isLayer {sizes : SharedSizes} {perLayerBytes : List ℕ} {layers : List LayerPlan}
    {regions : List ScheduledRegion}
    (made : layers.zipIdx.mapM (fun entry => layerRegion sizes perLayerBytes entry.1 entry.2) =
      .ok regions) :
    regions.length = layers.length ∧
      ∀ i region, regions[i]? = some region → IsLayer perLayerBytes i region := by
  obtain ⟨lengths, each⟩ := List.forall₂_iff_get.mp (mapM_ok_iff.mp made)
  rw [List.length_zipIdx] at lengths
  refine ⟨lengths.symm, ?_⟩
  intro i region there
  obtain ⟨inside, rfl⟩ := List.getElem?_eq_some_iff.mp there
  have inside' : i < layers.zipIdx.length := by
    rw [List.length_zipIdx]
    omega
  have turn := layerRegion_isLayer (each i inside' inside)
  simpa using turn

section

variable {perLayerBytes : List ℕ} {regions : List ScheduledRegion}

theorem regionIds_eq
    (layers : ∀ i region, regions[i]? = some region → IsLayer perLayerBytes i region) :
    regions.map ScheduledRegion.regionId = (List.range regions.length).map RegionId.mk := by
  apply Strides.map_eq_map_range
  intro i region there
  exact (layers i region there).regionId

theorem dependencies_earlier
    (layers : ∀ i region, regions[i]? = some region → IsLayer perLayerBytes i region)
    {i : ℕ} {region : ScheduledRegion} (there : regions[i]? = some region)
    {dependency : RegionDependency} (member : dependency ∈ region.dependencies) :
    ∃ j < i, ∃ earlier, regions[j]? = some earlier ∧
      dependency.predecessor = earlier.regionId ∧ dependency.tensors ≠ [] ∧
        ∀ tensor ∈ dependency.tensors, tensor ∈ earlier.outputs := by
  obtain ⟨later, predecessor, tensors⟩ := (layers i region there).dependencies dependency member
  have inside : i - 1 < regions.length := by
    have := (List.getElem?_eq_some_iff.mp there).1
    omega
  have before := List.getElem?_eq_getElem inside
  have earlier := layers (i - 1) _ before
  refine ⟨i - 1, by omega, _, before, ?_, ?_, ?_⟩
  · rw [predecessor, earlier.regionId]
  · rw [tensors]
    exact List.cons_ne_nil _ _
  · rw [tensors, earlier.outputs]
    exact fun tensor same => same

theorem nodup_tensorIds
    (layers : ∀ i region, regions[i]? = some region → IsLayer perLayerBytes i region) :
    (regions.flatMap fun region =>
      region.physicalTensors.map PhysicalTensor.semanticId).Nodup := by
  have numbers : regions.map (fun region =>
      region.physicalTensors.map PhysicalTensor.semanticId) =
      (List.range regions.length).map fun i =>
        (tensorOffsets.map (Strides.number 100 i)).map TensorId.mk := by
    apply Strides.map_eq_map_range
    intro i region there
    exact (layers i region there).tensors
  have apart : ((List.range regions.length).flatMap fun i =>
      tensorOffsets.map (Strides.number 100 i)).Nodup :=
    Strides.nodup_numbers (by decide) nodup_residues regions.length
  rw [List.flatMap_def, numbers, ← List.flatMap_def, ← List.map_flatMap]
  apply apart.map
  intro a b same
  exact congrArg TensorId.id same

theorem bytes_le_peak {sizes : SharedSizes} {nLayers : ℕ} {memory : MemoryPlan}
    (planned : memoryPlan sizes nLayers perLayerBytes = .ok memory) {bytes : ℕ}
    (member : bytes ∈ perLayerBytes) : bytes ≤ memory.peakBytes := by
  unfold memoryPlan at planned
  obtain ⟨reuse, -, planned⟩ := bind_ok_iff.mp planned
  obtain ⟨total, -, planned⟩ := bind_ok_iff.mp planned
  obtain rfl := pure_ok_iff.mp planned
  have below : bytes ≤ perLayerBytes.max?.getD sizes.hiddenStateBytes := by
    rcases largest : perLayerBytes.max? with _ | peak
    · rw [List.max?_eq_none_iff] at largest
      rw [largest] at member
      cases member
    · exact (List.max?_eq_some_iff.mp largest).2 bytes member
  exact below.trans (Nat.le_max_left _ _)

end

/-! ### Boundaries -/

theorem boundary_ok {nLayers start : ℕ} {sealedRegions : SealedEvaluationBoundary}
    (made : boundary nLayers start = .ok sealedRegions) :
    sealedRegions.regions = (Strides.run nLayers boundaryInterval start).map RegionId.mk := by
  unfold boundary at made
  obtain ⟨next, fits, made⟩ := bind_ok_iff.mp made
  obtain ⟨-, rfl⟩ := fit_ok_iff.mp fits
  obtain rfl := pure_ok_iff.mp made
  rfl

theorem boundaries_run {nLayers : ℕ} {starts : List ℕ}
    {boundaries : List SealedEvaluationBoundary}
    (made : starts.mapM (boundary nLayers) = .ok boundaries) :
    boundaries.flatMap SealedEvaluationBoundary.regions =
      (starts.flatMap (Strides.run nLayers boundaryInterval)).map RegionId.mk := by
  have each := mapM_ok_iff.mp made
  clear made
  induction each with
  | nil => rfl
  | cons first _ ih =>
    rw [List.flatMap_cons, List.flatMap_cons, List.map_append, ih, boundary_ok first]

theorem boundary_size {nLayers : ℕ} {boundaries : List SealedEvaluationBoundary}
    (made : (Strides.starts nLayers boundaryInterval).mapM (boundary nLayers) = .ok boundaries)
    {sealedRegions : SealedEvaluationBoundary} (member : sealedRegions ∈ boundaries) :
    sealedRegions.regions ≠ [] ∧ sealedRegions.regions.length ≤ 6 := by
  obtain ⟨start, begins, turn⟩ := exists_of_mapM_ok made member
  rw [boundary_ok turn, List.length_map, ne_eq, List.map_eq_nil_iff]
  exact ⟨Strides.run_ne_nil (by decide) begins, Strides.length_run_le _ _ _⟩

/-! ### The schedule -/

/-- The loops that fill a schedule agree, for every number of layers. -/
theorem compileModelToScheduledModule_wellScheduled (sha256 : List UInt8 → String)
    (plan : ModelExecutionPlan) (arch : TextArchitecture) (sourceSemanticDigest : String)
    (module : ScheduledModule)
    (compiled : compileModelToScheduledModule sha256 plan arch sourceSemanticDigest =
      .ok module) :
    WellScheduled plan.layers.length module := by
  unfold compileModelToScheduledModule at compiled
  obtain ⟨sizes, -, compiled⟩ := bind_ok_iff.mp compiled
  obtain ⟨perLayerBytes, -, compiled⟩ := bind_ok_iff.mp compiled
  obtain ⟨regions, looped, compiled⟩ := bind_ok_iff.mp compiled
  obtain ⟨memory, planned, compiled⟩ := bind_ok_iff.mp compiled
  obtain ⟨transfers, -, compiled⟩ := bind_ok_iff.mp compiled
  obtain ⟨boundaries, cut, compiled⟩ := bind_ok_iff.mp compiled
  obtain rfl := pure_ok_iff.mp compiled
  obtain ⟨count, layers⟩ := regions_isLayer looped
  have ids := regionIds_eq layers
  rw [count] at ids
  exact {
    regionIds := by
      have numbers := congrArg (List.map RegionId.id) ids
      simpa [Function.comp_def, ScheduledModule.sealed] using numbers
    dependencies := fun i region there dependency member =>
      dependencies_earlier layers there member
    tensorIds := nodup_tensorIds layers
    boundaries := by
      have runs := boundaries_run cut
      rw [Strides.flatMap_runs (by decide)] at runs
      exact runs.trans ids.symm
    boundarySizes := fun sealedRegions member => boundary_size cut member
    peak := by
      intro region member
      obtain ⟨i, there⟩ := List.mem_iff_getElem?.mp member
      apply bytes_le_peak planned
      exact List.mem_of_getElem? (layers i region there).bytes }

def sevenLayers : ModelExecutionPlan where
  layers := List.replicate 7 {
    attentionKind := "sliding_attention"
    nHeads := 4
    nKvHeads := 2
    headDim := 8
    globalHeadDim := none
    nGlobalKvHeads := none
    slidingWindow := 16
    route := ⟨0, 0, 0, 0, 0, 0, 0, 0, 0, 0⟩ }

def smallArchitecture : TextArchitecture where
  hiddenSize := 32
  intermediateSize := 64
  maxPositionEmbeddings := 16

theorem sevenLayers_wellScheduled :
    ∃ module, compileModelToScheduledModule (fun _ => "") sevenLayers smallArchitecture "model" =
      .ok module ∧ WellScheduled 7 module := by
  have made : (compileModelToScheduledModule (fun _ => "") sevenLayers smallArchitecture
      "model").toOption.isSome = true := by
    decide +kernel
  obtain ⟨module, compiled⟩ := exists_ok_of_isSome made
  exact ⟨module, compiled, compileModelToScheduledModule_wellScheduled _ sevenLayers
    smallArchitecture "model" module compiled⟩

end TribunusCompute.Lowering
