import TribunusCompute.ComputeImage.Adapters
import TribunusCompute.ComputeImage.PlanLaw

/-!
# Speculative images

A draft model and a target model in one image: the global tensors of the target first, then the
layers of the draft, then those of the target. The plan is built for the target alone.
-/
namespace TribunusCompute.ComputeImage

open Outcome

/-! ## Text -/

/-- Replace each occurrence of the pattern, from the left; `skip` characters of the last one are
still to be passed. -/
def replaceFrom (pattern replacement : List Char) : ℕ → List Char → List Char
  | _, [] => []
  | skip + 1, _ :: rest => replaceFrom pattern replacement skip rest
  | 0, c :: rest =>
    if pattern.isPrefixOf (c :: rest) then
      replacement ++ replaceFrom pattern replacement (pattern.length - 1) rest
    else c :: replaceFrom pattern replacement 0 rest

/-- `str::replace`, for a pattern that is not empty. -/
def replace (text pattern replacement : String) : String :=
  String.ofList (replaceFrom pattern.toList replacement.toList 0 text.toList)

/-! ## The compiler -/

/-- The draft reads the embedding of the target where both have the same shape. -/
def sharedEmbedding (target draft : LoadedSource) : Bool :=
  target.arch.vocabSize == draft.arch.vocabSize && target.arch.hiddenSize == draft.arch.hiddenSize

/-- One turn of the loop over shared global tensors: the draft's embedding is an alias. -/
def emitSharedBinding (target draft : LoadedSource) (state : Emission) (binding : TensorBinding) :
    Outcome Emission := do
  let (b, id) ← emitBindingSet target.sourceTensors state.1 binding none
  let emittedIds := state.2.insert binding.name id
  if contains binding.name "embed_tokens" then
    let draftEmbed := replace binding.name target.nameSpace.root draft.nameSpace.root
    return (b.addAlias draftEmbed id "shared_embedding_speculative",
      emittedIds.insert draftEmbed id)
  else return (b, emittedIds)

def aliasDraftHead (target draft : LoadedSource) (state : Emission) : Emission :=
  if target.nameSpace.lmHeadAliased then
    let draftHeadKey := draft.nameSpace.root ++ ".lm_head.weight"
    match state.2.lookup "lm_head.weight" with
    | some id => (state.1.addAlias draftHeadKey id "shared_lm_head_speculative",
        state.2.insert draftHeadKey id)
    | none => state
  else state

def emitGlobals (hashing : Hashing) (target draft : LoadedSource) (state : Emission) :
    Outcome Emission :=
  let state := beginSegment hashing "persistent" .persistent state
  if sharedEmbedding target draft then do
    let state ← target.spec.globalTensors.foldlM (emitSharedBinding target draft) state
    return aliasDraftHead target draft state
  else target.spec.globalTensors.foldlM (emitBinding target.sourceTensors none) state

/-- The output projection of the target is an alias of its embedding where it has none. -/
def aliasTargetHead (target : LoadedSource) (state : Emission) : Emission :=
  if target.nameSpace.lmHeadAliased then
    match state.2.lookup target.embedName with
    | some id => (state.1.addAlias "lm_head.weight" id "tie_word_embeddings", state.2)
    | none => state
  else state

def emitPair (hashing : Hashing) (target draft : LoadedSource) (state : Emission) :
    Outcome Emission := do
  let state ← emitGlobals hashing target draft state
  let state ← draft.spec.layers.foldlM (emitLayer hashing "draft_layer_" draft.sourceTensors) state
  let state := if sharedEmbedding target draft then state
    else beginSegment hashing "persistent_target" .persistent state
  let state ← target.spec.layers.foldlM (emitLayer hashing "target_layer_" target.sourceTensors)
    state
  return aliasTargetHead target state

/-- The plan of the target, with what is recorded of the pair. -/
def speculativePlan (target draft : LoadedSource) (emittedIds : HashMap ℕ) : ModelExecutionPlan :=
  { (buildExecutionPlan target.arch target.nameSpace emittedIds).buildAneFusionPlan with
    speculativeConfig := some {
      draftArchitecture := draft.arch
      targetArchitecture := target.arch
      sharedEmbedding := sharedEmbedding target draft
      sharedLmHead := sharedEmbedding target draft
      draftFirstSegments := true
      speculationLength := 5 } }

/-- `compile_unchecked_speculative` after both sources have been loaded: the image in the output
directory. The quantization mode is not read. -/
def compileUncheckedSpeculative (hashing : Hashing) (site : Site) (target draft : LoadedSource)
    (_quantizeMode : Option CompileQuantMode) : Outcome CompiledImageReader := do
  let (b, emittedIds) ← emitPair hashing target draft
    (ImageBuilder.new target.arch target.identity, ∅)
  return (b.setExecutionPlan (speculativePlan target draft emittedIds)).reader hashing site

/-! ## The law -/

/-- The target can be read and run from the image: every tensor of its specification is read
back by name, and each layer of the plan has its segment, with its tensors. -/
structure SpeculativeLaw (target : LoadedSource) (image : CompiledImageReader) : Prop where
  bytes : ∀ binding ∈ target.spec.bindings, ∀ name ∈ binding.emittedNames, ∃ t,
    target.sourceTensors.lookup name = some t ∧
      image.tensorBytes name = .ok (t.data, t.dtype, t.shape)
  segments : ∀ layer ∈ image.manifest.executionPlan.layers,
    ∃ segment ∈ image.manifest.segments, segment.id = layer.segmentId ∧
      ∀ id name, (id, name) ∈ layer.tensorIds target.nameSpace.root → id ≠ 0 →
        id ∈ segment.tensorIds

/-! ## What the pair appends -/

/-- The layout goes on from `s` with tensors of these names; which ids are kept is left open. -/
def Goes (hashing : Hashing) (sourceTensors : HashMap SourceTensor) (s : Emitting) (e : Emission)
    (names segments : List String) : Prop :=
  ∃ s' : Emitting, e = s'.render hashing ∧ s.1.Grows sourceTensors s'.1 names segments

section Growth

variable {hashing : Hashing} {target draft : LoadedSource} {s : Emitting} {e : Emission}

theorem goes_refl (sourceTensors : HashMap SourceTensor) (fits : s.1.Fits) :
    Goes hashing sourceTensors s (s.render hashing) [] [] :=
  ⟨s, rfl, .refl fits⟩

/-- An alias moves no tensor, whatever ids are kept with it. -/
theorem goes_addAlias (sourceTensors : HashMap SourceTensor) {l : Layout} (fits : l.Fits)
    (ids ids' : HashMap ℕ) (logicalName : String) (id : ℕ) (reason : String) :
    Goes hashing sourceTensors (l, ids)
      ((l.render hashing).addAlias logicalName id reason, ids') [] [] := by
  let aliasing : ImageBuilder.Call := .addAlias logicalName id reason
  have called : (l.render hashing).call hashing aliasing = .ok _ := rfl
  obtain ⟨same, fits', tensors, segments⟩ := Layout.call_render fits called
  exact ⟨(l.call aliasing, ids'), congrArg (·, ids') same, rfl, fits',
    ⟨[], tensors, rfl, by simp⟩, segments⟩

theorem emitSharedBinding_ok {binding : TensorBinding} (fits : s.1.Fits)
    (ok : emitSharedBinding target draft (s.render hashing) binding = .ok e) :
    Goes hashing target.sourceTensors s e binding.emittedNames [] := by
  obtain ⟨⟨b, id⟩, emitted, done⟩ := bind_ok_iff.mp ok
  obtain ⟨l, rfl, grows, -⟩ := emitBindingSet_ok fits emitted
  dsimp only at done
  split at done
  next =>
    cases done
    obtain ⟨s', same, aliased⟩ := goes_addAlias target.sourceTensors grows.fits s.2 _ _ id _
    have whole := grows.trans aliased
    rw [List.append_nil, List.append_nil] at whole
    exact ⟨s', same, whole⟩
  next =>
    cases done
    exact ⟨(l, _), rfl, grows⟩

theorem emitSharedBindings_ok {bindings : List TensorBinding} (fits : s.1.Fits)
    (ok : bindings.foldlM (emitSharedBinding target draft) (s.render hashing) = .ok e) :
    Goes hashing target.sourceTensors s e (bindings.flatMap TensorBinding.emittedNames) [] := by
  induction bindings generalizing s with
  | nil =>
    obtain rfl := pure_ok_iff.mp ok
    exact goes_refl target.sourceTensors fits
  | cons binding bindings ih =>
    rw [List.foldlM_cons, bind_ok_iff] at ok
    obtain ⟨middle, first, later⟩ := ok
    obtain ⟨s', rfl, grows⟩ := emitSharedBinding_ok fits first
    obtain ⟨s'', rfl, rest⟩ := ih grows.fits later
    exact ⟨s'', rfl, grows.trans rest⟩

theorem goes_aliasDraftHead (fits : s.1.Fits) :
    Goes hashing target.sourceTensors s (aliasDraftHead target draft (s.render hashing)) [] [] := by
  unfold aliasDraftHead
  dsimp only
  split
  next =>
    split
    next id _ => exact goes_addAlias target.sourceTensors fits s.2 _ _ id _
    next => exact goes_refl target.sourceTensors fits
  next => exact goes_refl target.sourceTensors fits

theorem goes_aliasTargetHead (fits : s.1.Fits) :
    Goes hashing target.sourceTensors s (aliasTargetHead target (s.render hashing)) [] [] := by
  unfold aliasTargetHead
  split
  next =>
    split
    next id _ => exact goes_addAlias target.sourceTensors fits s.2 _ _ id _
    next => exact goes_refl target.sourceTensors fits
  next => exact goes_refl target.sourceTensors fits

/-- Both ways of emitting the global tensors of the target put them into the first segment. -/
theorem emitGlobals_ok (fits : s.1.Fits)
    (ok : emitGlobals hashing target draft (s.render hashing) = .ok e) :
    Goes hashing target.sourceTensors s e
      (target.spec.globalTensors.flatMap TensorBinding.emittedNames) ["persistent"] := by
  unfold emitGlobals at ok
  rw [beginSegment_render_emitting] at ok
  have opened : Emits target.sourceTensors s _ _ _ _ :=
    emits_beginSegment hashing "persistent" .persistent fits
  split at ok
  next =>
    obtain ⟨middle, globals, done⟩ := bind_ok_iff.mp ok
    obtain ⟨s', rfl, grows⟩ := emitSharedBindings_ok opened.grows.fits globals
    obtain rfl := pure_ok_iff.mp done
    obtain ⟨s'', same, aliased⟩ : Goes hashing target.sourceTensors s'
        (aliasDraftHead target draft (s'.render hashing)) [] [] := goes_aliasDraftHead grows.fits
    have whole := (opened.grows.trans grows).trans aliased
    rw [List.append_nil, List.append_nil, List.append_nil, List.nil_append] at whole
    exact ⟨s'', same, whole⟩
  next =>
    obtain ⟨s', rfl, emits⟩ := emitBindings_ok opened.grows.fits ok
    exact ⟨s', rfl, opened.grows.trans emits.grows⟩

def ExecutionSpec.layerBindings (spec : ExecutionSpec) : List TensorBinding :=
  spec.layers.flatMap LayerSpec.tensors

/-- The segments between the first one and those of the target's layers. -/
def draftSegments (target draft : LoadedSource) : List String :=
  (draft.spec.layers.map fun layer => "draft_layer_" ++ toString layer.index) ++
    if sharedEmbedding target draft then [] else ["persistent_target"]

def targetSegments (target : LoadedSource) : List String :=
  target.spec.layers.map fun layer => "target_layer_" ++ toString layer.index

/-- What is emitted for a pair: the target's global tensors, the draft's layers and the target's
layers, each from its own source. -/
theorem emitPair_ok (fits : s.1.Fits)
    (ok : emitPair hashing target draft (s.render hashing) = .ok e) :
    ∃ (l₁ l₂ : Layout) (s' : Emitting), e = s'.render hashing ∧
      s.1.Grows target.sourceTensors l₁
        (target.spec.globalTensors.flatMap TensorBinding.emittedNames) ["persistent"] ∧
      l₁.Grows draft.sourceTensors l₂
        (draft.spec.layerBindings.flatMap TensorBinding.emittedNames) (draftSegments target draft) ∧
      l₂.Grows target.sourceTensors s'.1
        (target.spec.layerBindings.flatMap TensorBinding.emittedNames) (targetSegments target) := by
  obtain ⟨state, globals, rest⟩ := bind_ok_iff.mp ok
  obtain ⟨state', drafts, rest⟩ := bind_ok_iff.mp rest
  obtain ⟨state'', targets, done⟩ := bind_ok_iff.mp rest
  obtain ⟨s₁, rfl, first⟩ := emitGlobals_ok fits globals
  obtain ⟨s₂, rfl, layers⟩ := emitLayers_ok first.fits drafts
  -- a target with an embedding of its own opens another segment
  have second : ∃ s₃ : Emitting, (if sharedEmbedding target draft then s₂.render hashing
        else beginSegment hashing "persistent_target" .persistent (s₂.render hashing)) =
          s₃.render hashing ∧
      s₁.1.Grows draft.sourceTensors s₃.1
        (draft.spec.layerBindings.flatMap TensorBinding.emittedNames)
        (draftSegments target draft) := by
    unfold draftSegments
    split
    next =>
      rw [List.append_nil]
      exact ⟨s₂, rfl, layers.grows⟩
    next =>
      have opened : Emits draft.sourceTensors s₂ _ _ _ _ :=
        emits_beginSegment hashing "persistent_target" .persistent layers.grows.fits
      have whole := layers.grows.trans opened.grows
      rw [List.append_nil] at whole
      exact ⟨_, beginSegment_render_emitting .., whole⟩
  obtain ⟨s₃, same, grows⟩ := second
  rw [same] at targets
  obtain ⟨s₄, rfl, third⟩ := emitLayers_ok grows.fits targets
  obtain rfl := pure_ok_iff.mp done
  obtain ⟨s₅, same, aliased⟩ : Goes hashing target.sourceTensors s₄
      (aliasTargetHead target (s₄.render hashing)) [] [] := goes_aliasTargetHead third.grows.fits
  have whole := third.grows.trans aliased
  rw [List.append_nil, List.append_nil] at whole
  exact ⟨s₁.1, s₃.1, s₅, same, first, grows, whole⟩

theorem compileUncheckedSpeculative_ok {site : Site} {quantizeMode : Option CompileQuantMode}
    {image : CompiledImageReader}
    (ok : compileUncheckedSpeculative hashing site target draft quantizeMode = .ok image) :
    ∃ (l₁ l₂ l : Layout) (ids : HashMap ℕ), image = l.reader hashing site ∧
      image.manifest.executionPlan = speculativePlan target draft ids ∧
      (Layout.empty target).Grows target.sourceTensors l₁
        (target.spec.globalTensors.flatMap TensorBinding.emittedNames) ["persistent"] ∧
      l₁.Grows draft.sourceTensors l₂
        (draft.spec.layerBindings.flatMap TensorBinding.emittedNames) (draftSegments target draft) ∧
      l₂.Grows target.sourceTensors l
        (target.spec.layerBindings.flatMap TensorBinding.emittedNames) (targetSegments target) := by
  obtain ⟨⟨b, ids⟩, emitted, done⟩ := bind_ok_iff.mp ok
  let start : Emitting := (Layout.empty target, ∅)
  obtain ⟨l₁, l₂, ⟨l, ids'⟩, same, first, second, third⟩ :=
    emitPair_ok (s := start) (Layout.fits_empty target) emitted
  obtain ⟨rfl, rfl⟩ := Prod.mk.inj same
  cases done
  let plan := speculativePlan target draft ids
  let planned : Layout := { l with base := { l.base with executionPlan := plan } }
  have rendered : (l.render hashing).setExecutionPlan plan = planned.render hashing := rfl
  have read : ((l.render hashing).setExecutionPlan plan).reader hashing site =
      planned.reader hashing site := by
    rw [rendered, Layout.reader_render]
  have configured : Emits target.sourceTensors (l, ids) (planned, ids) [] [] [] :=
    emits_configure (fun m => { m with executionPlan := plan }) third.fits
  have whole := third.trans configured.grows
  rw [List.append_nil, List.append_nil] at whole
  refine ⟨l₁, l₂, planned, ids, read, ?_, first, second, whole⟩
  exact congrArg (fun reader => reader.manifest.executionPlan) read

end Growth

/-! ## Names of a pair -/

theorem globalWeight_ne_layerWeight_of_candidates {root root' stem stem' : String} {i : ℕ}
    (rooted : root ∈ candidates) (rooted' : root' ∈ candidates) (global : stem ∈ globalStems) :
    globalWeight root stem ≠ layerWeight root' i stem' := by
  by_cases same : root = root'
  · subst same
    exact globalWeight_ne_layerWeight global
  · intro equal
    have heads := congrArg (fun name => name.toList.head?) equal
    simp only [candidates, List.mem_cons, List.not_mem_nil, or_false] at rooted rooted'
    rcases rooted with rfl | rfl <;> rcases rooted' with rfl | rfl
    · exact same rfl
    · simp [globalWeight, layerWeight] at heads
    · simp [globalWeight, layerWeight] at heads
    · exact same rfl

section Loaded

variable {validate : LoadedSource → Outcome Unit} {skipValidation : Bool} {checkpoint : Checkpoint}
  {loaded : LoadedSource}

theorem globalTensors_loadSource (loads : loadSource validate skipValidation checkpoint = .ok loaded)
    {binding : TensorBinding} (member : binding ∈ loaded.spec.globalTensors) :
    ∃ stem ∈ globalStems, binding.name = globalWeight loaded.nameSpace.root stem := by
  obtain ⟨-, -, -, -, spec, compiled, filtered⟩ := loadSource_ok loads
  rw [filtered] at member
  have named := List.mem_map_of_mem (f := TensorBinding.name) (List.mem_of_mem_filter member)
  rw [(compile_parts compiled).1] at named
  obtain ⟨stem, global, same⟩ := List.mem_map.mp named
  exact ⟨stem, globalStemsOf_subset loaded.arch global, same.symm⟩

theorem layerBindings_loadSource (loads : loadSource validate skipValidation checkpoint = .ok loaded)
    {binding : TensorBinding} (member : binding ∈ loaded.spec.layerBindings) :
    ∃ i stem, binding.name = layerWeight loaded.nameSpace.root i stem := by
  obtain ⟨-, -, -, -, spec, compiled, filtered⟩ := loadSource_ok loads
  rw [filtered] at member
  obtain ⟨_, inLayers, inLayer⟩ := List.mem_flatMap.mp member
  obtain ⟨layer, there, rfl⟩ := List.mem_map.mp inLayers
  have compiledThere : binding ∈ spec.layers.flatMap LayerSpec.tensors :=
    List.mem_flatMap.mpr ⟨layer, there, List.mem_of_mem_filter inLayer⟩
  have named := List.mem_map_of_mem (f := TensorBinding.name) compiledThere
  rw [(compile_parts compiled).2.1] at named
  obtain ⟨⟨kind, i⟩, -, inStems⟩ := List.mem_flatMap.mp named
  obtain ⟨stem, -, same⟩ := List.mem_map.mp inStems
  exact ⟨i, stem, same.symm⟩

theorem nodup_bindings_loadSource
    (loads : loadSource validate skipValidation checkpoint = .ok loaded) :
    (loaded.spec.globalTensors.map TensorBinding.name ++
      loaded.spec.layerBindings.map TensorBinding.name).Nodup := by
  have names := names_loadSource loads
  rw [ExecutionSpec.bindings, List.map_append] at names
  exact names ▸ (nodup_specNames ..).filter _

theorem indices_loadSource (loads : loadSource validate skipValidation checkpoint = .ok loaded) :
    loaded.spec.layers.map LayerSpec.index = List.range loaded.arch.layerTypes.length := by
  obtain ⟨-, -, -, -, spec, compiled, filtered⟩ := loadSource_ok loads
  rw [filtered, ← (compile_parts compiled).2.2]
  simp [filterSpecToExisting]

end Loaded

/-! ## When the law holds -/

section Law

variable {hashing : Hashing} {site : Site} {validate validateDraft : LoadedSource → Outcome Unit}
  {targetDir draftDir : Checkpoint} {target draft : LoadedSource}
  {quantizeMode : Option CompileQuantMode} {image : CompiledImageReader}

/-- No segment of a pair is named as those of a plan's layers are. -/
theorem head_of_mem_segments {id : String}
    (member : id ∈ ("persistent" :: draftSegments target draft) ++ targetSegments target) :
    id.toList.head? ≠ some 'l' := by
  rcases List.mem_append.mp member with early | targets
  · rcases List.mem_cons.mp early with rfl | drafts
    · simp
    · rcases List.mem_append.mp drafts with layered | between
      · obtain ⟨layer, -, rfl⟩ := List.mem_map.mp layered
        simp
      · split at between
        · cases between
        · obtain rfl := List.mem_singleton.mp between
          simp
  · obtain ⟨layer, -, rfl⟩ := List.mem_map.mp targets
    simp

theorem nodup_segments (indices : (draft.spec.layers.map LayerSpec.index).Nodup) :
    ("persistent" :: draftSegments target draft).Nodup := by
  have layered : (draft.spec.layers.map fun layer =>
      "draft_layer_" ++ toString layer.index).Nodup := by
    have names := indices.map (f := fun i : ℕ => "draft_layer_" ++ toString i) fun i j same => ?_
    · rwa [List.map_map] at names
    · have texts := congrArg String.toList same
      simp only [String.toList_append, List.append_cancel_left_eq,
        Decimal.toList_toString] at texts
      exact Decimal.toDigits_injective texts
  have heads : ∀ id ∈ draft.spec.layers.map (fun layer => "draft_layer_" ++ toString layer.index),
      id.toList.head? = some 'd' := by
    intro id member
    obtain ⟨layer, -, rfl⟩ := List.mem_map.mp member
    simp
  have apart : ∀ id : String, id.toList.head? = some 'p' →
      id ∉ draft.spec.layers.map (fun layer => "draft_layer_" ++ toString layer.index) := by
    intro id head member
    rw [heads id member] at head
    cases head
  unfold draftSegments
  split
  · rw [List.append_nil, List.nodup_cons]
    exact ⟨apart _ (by simp), layered⟩
  · rw [← List.cons_append, List.nodup_append, List.nodup_cons]
    refine ⟨⟨apart _ (by simp), layered⟩, List.nodup_singleton _, ?_⟩
    rintro id early other late rfl
    obtain rfl := List.mem_singleton.mp late
    rcases List.mem_cons.mp early with same | member
    · exact absurd same (by decide)
    · exact apart _ (by simp) member

theorem segments_reader (l : Layout) :
    (l.reader hashing site).manifest.segments.map Segment.id = l.blocks.map Block.id :=
  ids_segmentsFrom

/-- With no layers, everything of the target is in the first segment, and no tensor or segment
of the draft has a name of the target's. -/
theorem bytes_of_noLayers (loadsTarget : loadSource validate false targetDir = .ok target)
    (loadsDraft : loadSource validateDraft false draftDir = .ok draft)
    (compiles : compileUncheckedSpeculative hashing site target draft quantizeMode = .ok image)
    (noLayers : target.spec.layers = []) {binding : TensorBinding}
    (member : binding ∈ target.spec.bindings) {name : String}
    (emitted : name ∈ binding.emittedNames) :
    ∃ t, target.sourceTensors.lookup name = some t ∧
      image.tensorBytes name = .ok (t.data, t.dtype, t.shape) := by
  obtain ⟨l₁, l₂, l, ids, rfl, -, first, second, third⟩ := compileUncheckedSpeculative_ok compiles
  have none : target.spec.layerBindings = [] := by
    rw [ExecutionSpec.layerBindings, noLayers, List.flatMap_nil]
  have noSegments : targetSegments target = [] := by rw [targetSegments, noLayers, List.map_nil]
  rw [none, noSegments] at third
  obtain ⟨added, tensors, named, sourced⟩ := first.tensors
  obtain ⟨added', tensors', named', -⟩ := second.tensors
  obtain ⟨added'', tensors'', named'', -⟩ := third.tensors
  obtain rfl : added'' = [] := List.map_eq_nil_iff.mp named''
  have all : l.tensors = added ++ added' := by
    rw [tensors'', tensors', tensors, List.append_nil]
    rfl
  have segments : l.blocks.map Block.id = "persistent" :: draftSegments target draft := by
    rw [third.ids, second.ids, first.ids, List.append_nil]
    rfl
  have rooted := (resolveNamespace_ok (loadSource_ok loadsTarget).2.2.2.1).1
  have rooted' := (resolveNamespace_ok (loadSource_ok loadsDraft).2.2.2.1).1
  -- Global names have no layer in them, so the layers of the draft name none of the target's.
  have distinct : ((target.spec.globalTensors ++ draft.spec.layerBindings).map
      TensorBinding.name).Nodup := by
    rw [List.map_append, List.nodup_append]
    refine ⟨(List.nodup_append.mp (nodup_bindings_loadSource loadsTarget)).1,
      (List.nodup_append.mp (nodup_bindings_loadSource loadsDraft)).2.1, ?_⟩
    rintro global inGlobals layered inLayers rfl
    obtain ⟨binding, there, rfl⟩ := List.mem_map.mp inGlobals
    obtain ⟨binding', there', same⟩ := List.mem_map.mp inLayers
    obtain ⟨stem, known, global⟩ := globalTensors_loadSource loadsTarget there
    obtain ⟨i, stem', layered⟩ := layerBindings_loadSource loadsDraft there'
    rw [global, layered] at same
    exact globalWeight_ne_layerWeight_of_candidates rooted rooted' known same.symm
  have weights : ∀ binding ∈ target.spec.globalTensors ++ draft.spec.layerBindings,
      IsWeight binding.name := by
    intro binding there
    rcases List.mem_append.mp there with global | layered
    · obtain ⟨stem, -, same⟩ := globalTensors_loadSource loadsTarget global
      exact same ▸ isWeight_globalWeight
    · obtain ⟨i, stem, same⟩ := layerBindings_loadSource loadsDraft layered
      exact same ▸ isWeight_layerWeight
  have names : (l.tensors.map TensorSpec.name).Nodup := by
    rw [all, List.map_append, named, named', ← List.flatMap_append]
    exact nodup_emittedNames weights distinct
  have inGlobals : binding ∈ target.spec.globalTensors := by
    have split := member
    rw [ExecutionSpec.bindings, noLayers, List.flatMap_nil, List.append_nil] at split
    exact split
  have inAdded : name ∈ added.map TensorSpec.name := by
    rw [named]
    exact List.mem_flatMap.mpr ⟨binding, inGlobals, emitted⟩
  obtain ⟨t, there, rfl⟩ := List.mem_map.mp inAdded
  obtain ⟨source, found, data, dtype, shape⟩ := sourced t there
  have read := l.tensorBytes_reader hashing site third.fits
    (by rw [segments]; exact nodup_segments (indices_loadSource loadsDraft ▸ List.nodup_range))
    names (all ▸ List.mem_append_left added' there)
  rw [data, dtype, shape] at read
  exact ⟨source, found, read⟩

/-- The plan of a target with layers names segments that the image does not have. -/
theorem noLayers_of_law
    (compiles : compileUncheckedSpeculative hashing site target draft quantizeMode = .ok image)
    (law : SpeculativeLaw target image) : target.arch.layerTypes = [] := by
  obtain ⟨l₁, l₂, l, ids, read, planned, first, second, third⟩ :=
    compileUncheckedSpeculative_ok compiles
  cases kinds : target.arch.layerTypes with
  | nil => rfl
  | cons kind rest =>
    have there : buildLayerPlan target.arch target.nameSpace.root ids kind 0 ∈
        image.manifest.executionPlan.layers := by
      rw [planned]
      change _ ∈ target.arch.layerTypes.zipIdx.map _
      rw [kinds]
      exact List.mem_cons_self
    obtain ⟨segment, member, same, -⟩ := law.segments _ there
    have named : segment.id ∈ image.manifest.segments.map Segment.id := List.mem_map_of_mem member
    rw [read, segments_reader, third.ids, second.ids, first.ids, same] at named
    -- `layer_0` does not begin as any of these does.
    exact absurd (by simp [buildLayerPlan]) (head_of_mem_segments named)

/-- The target can be read and run from the image of a pair exactly where it has no layers. -/
theorem speculativeLaw_iff (loadsTarget : loadSource validate false targetDir = .ok target)
    (loadsDraft : loadSource validateDraft false draftDir = .ok draft)
    (compiles : compileUncheckedSpeculative hashing site target draft quantizeMode = .ok image) :
    SpeculativeLaw target image ↔ target.arch.layerTypes = [] := by
  constructor
  · exact noLayers_of_law compiles
  · intro none
    obtain ⟨_, _, _, ids, -, planned, -⟩ := compileUncheckedSpeculative_ok compiles
    have noLayers : target.spec.layers = [] := by
      have indices := indices_loadSource loadsTarget
      rw [none] at indices
      exact List.map_eq_nil_iff.mp indices
    constructor
    · intro binding member name emitted
      exact bytes_of_noLayers loadsTarget loadsDraft compiles noLayers member emitted
    · intro layer member
      rw [planned] at member
      change _ ∈ target.arch.layerTypes.zipIdx.map _ at member
      rw [none] at member
      cases member

/-! ### A target without layers, and one with a layer -/

def pairLoaded (kinds : List AttentionKind) : Outcome LoadedSource :=
  loadSource (validateSource (llamaConfig kinds.length)) false (llamaCheckpoint kinds true "")

/-- The image of a target with these layers, and a draft with one. -/
def pairImage (kinds : List AttentionKind) :
    Outcome (LoadedSource × LoadedSource × CompiledImageReader) := do
  let target ← pairLoaded kinds
  let draft ← pairLoaded [.slidingAttention]
  let image ← compileUncheckedSpeculative plainHashing smallSite target draft none
  return (target, draft, image)

theorem pairImage_ok : (pairImage []).toOption.isSome = true ∧
    (pairImage [.slidingAttention]).toOption.isSome = true := by
  decide +kernel

theorem noLayers_speculativeLaw : ∃ target draft image, pairImage [] = .ok (target, draft, image) ∧
    SpeculativeLaw target image := by
  obtain ⟨⟨target, draft, image⟩, whole⟩ := exists_ok_of_isSome pairImage_ok.1
  obtain ⟨_, loadsTarget, rest⟩ := bind_ok_iff.mp whole
  obtain ⟨_, loadsDraft, rest⟩ := bind_ok_iff.mp rest
  obtain ⟨_, compiles, done⟩ := bind_ok_iff.mp rest
  cases done
  refine ⟨target, draft, image, whole, (speculativeLaw_iff loadsTarget loadsDraft compiles).mpr ?_⟩
  rw [(loadSource_ok loadsTarget).1]
  rfl

/-- The plan of the target runs from the segment `layer_0`; the image has `target_layer_0`. -/
theorem oneLayer_not_speculativeLaw : ∃ target draft image,
    pairImage [.slidingAttention] = .ok (target, draft, image) ∧ ¬SpeculativeLaw target image := by
  obtain ⟨⟨target, draft, image⟩, whole⟩ := exists_ok_of_isSome pairImage_ok.2
  obtain ⟨_, loadsTarget, rest⟩ := bind_ok_iff.mp whole
  obtain ⟨_, loadsDraft, rest⟩ := bind_ok_iff.mp rest
  obtain ⟨_, compiles, done⟩ := bind_ok_iff.mp rest
  cases done
  refine ⟨target, draft, image, whole, fun law => ?_⟩
  have none := noLayers_of_law compiles law
  rw [(loadSource_ok loadsTarget).1] at none
  cases none

end Law

end TribunusCompute.ComputeImage
