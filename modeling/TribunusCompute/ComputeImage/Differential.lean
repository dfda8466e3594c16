import TribunusCompute.ComputeImage.Adapters
import TribunusCompute.ComputeImage.PlanLaw

/-!
# Differential compilation

A source is compiled against an earlier image: segments of which every tensor is unchanged are
copied, changed and new tensors are emitted again, and one manifest is made of both.
-/
namespace TribunusCompute.ComputeImage

open Outcome

/-! ## What has changed -/

/-- The hash of the shard that each tensor is in, from the headers alone. -/
def loadSourceTensorTable (checkpoint : Checkpoint) : HashMap String :=
  checkpoint.shards.foldl (fun table shard =>
    (shard.tensors.insertionSort fun left right => left.name ≤ right.name).foldl
      (fun table view => table.insert view.name shard.sha256) table) ∅

structure TensorDiff where
  unchanged : List String
  changed : List String
  new : List String
  removed : List String
  deriving DecidableEq, Repr

/-- A tensor is unchanged if the hash of its shard is that of the first entry of its name. -/
def diffTensors (current : HashMap String) (previous : Manifest) : TensorDiff :=
  let before (name : String) := Keyed.find TensorEntry.name previous.tensorTable name
  let named (test : Option TensorEntry → String → Bool) : List String :=
    (current.entries.filter fun info => test (before info.1) info.2).map Sigma.fst
  {
    unchanged := named fun entry sha256 => entry.any fun entry => entry.sourceSha256 == sha256
    changed := named fun entry sha256 => entry.any fun entry => entry.sourceSha256 != sha256
    new := named fun entry _ => entry.isNone
    removed := (previous.tensorTable.map TensorEntry.name).filter fun name =>
      (current.lookup name).isNone
  }

/-! ## Segments of the earlier image -/

def unchangedSegments (previous : Manifest) (unchanged : List String) : List Segment :=
  previous.segments.filter fun segment => segment.tensorIds.all fun id =>
    (Keyed.find TensorEntry.id previous.tensorTable id).any fun entry =>
      unchanged.contains entry.name

def copySegments (from_ : ImageDir) (files : String → Option (List UInt8))
    (segments : List Segment) : String → Option (List UInt8) :=
  segments.foldl (fun files segment =>
    match from_.read segment.filename with
    | .ok bytes => Function.update files segment.filename (some bytes)
    | .error _ => files) files

def startTensorId (previous : Manifest) : ℕ :=
  ((previous.tensorTable.map TensorEntry.id).max?.map (· + 1)).getD 0

/-- `str::parse::<usize>`. -/
def parseUsize (text : List Char) : Option ℕ :=
  let digits := if text.head? = some '+' then text.tail else text
  let number := Nat.ofDigitChars 10 digits 0
  if digits ≠ [] ∧ digits.all Char.isDigit ∧ number < 2 ^ 64 then some number else none

def segmentNumber (filename : String) : Option ℕ := do
  let text := filename.toList
  let start := "segment_".toList
  let stripped ← if start.isPrefixOf text then some (text.drop start.length) else none
  let number ← Suffix.strip ".bin" (String.ofList stripped)
  parseUsize number.toList

/-- The number after the greatest one of these segments' files. -/
def maxExisting (segments : List Segment) : ℕ :=
  ((segments.filterMap fun segment => segmentNumber segment.filename).max?.map (· + 1)).getD 0

/-! ## The combined manifest -/

/-- The new segments under the numbers from `first` on, with the payloads' sizes and hashes. -/
def renumber (hashing : Hashing) (first : ℕ) (segments : List Segment)
    (payloads : List (List UInt8)) : List Segment :=
  (segments.zip payloads).zipIdx.map fun ((segment, payload), i) =>
    { segment with
      filename := segmentFilename (first + i)
      byteSize := payload.length
      sha256 := hashing.sha256Bytes payload }

/-- An entry of the builder's manifest, in the file of its segment. -/
def relocate (segments : List Segment) (entry : TensorEntry) : TensorEntry :=
  match segments.find? fun segment => segment.tensorIds.contains entry.id with
  | some segment => { entry with segment := segment.filename }
  | none => entry

/-- The earlier image's entries of unchanged tensors, and all those of the builder's manifest. -/
def combineManifests (hashing : Hashing) (previous built : Manifest) (unchanged : List String)
    (segments : List Segment) : Manifest :=
  Manifest.seal hashing { built with
    segments
    tensorTable :=
      (previous.tensorTable.filter fun entry => unchanged.contains entry.name) ++
        built.tensorTable.map (relocate segments)
    aliasTable := previous.aliasTable ++ built.aliasTable
    residencyPlan := { built.residencyPlan with
      totalBytes := (segments.map Segment.byteSize).sum } }

/-- `compile_differential`, from the earlier image: the image in the output directory. -/
def compileDifferential (hashing : Hashing) (site : Site)
    (validate : LoadedSource → Outcome Unit) (previous : CompiledImageReader)
    (checkpoint : Checkpoint) : Outcome CompiledImageReader := do
  let diff := diffTensors (loadSourceTensorTable checkpoint) previous.manifest
  let loaded ← loadSource validate false checkpoint
  let compileNames := diff.changed ++ diff.new
  let kept := unchangedSegments previous.manifest diff.unchanged
  let files := copySegments previous.imageDir site.files kept
  let b := (ImageBuilder.new loaded.arch loaded.identity).setStartTensorId
    (startTensorId previous.manifest)
  -- Every loop over bindings passes those that are not to be compiled.
  let (b, emittedIds) ← emitSpec hashing
    { loaded with spec := filterSpecToExisting loaded.spec compileNames } (b, ∅)
  let plan := (buildExecutionPlan loaded.arch loaded.nameSpace emittedIds).buildAneFusionPlan
    |>.applyFusionPass
  let (_, newSegments, newPayloads, built) :=
    (b.setExecutionPlan plan).flushAndCollectSegments hashing
  let first := maxExisting kept
  let files := ImageBuilder.writeFiles files <| newPayloads.zipIdx.map fun (payload, i) =>
    (segmentFilename (first + i), payload)
  let manifest := combineManifests hashing previous.manifest built diff.unchanged
    (kept ++ renumber hashing first newSegments newPayloads)
  return ⟨manifest, buildCompileReceipt manifest, .ofFiles site.display files⟩

/-! ## The builder's own manifest has no tensors -/

/-- The tensors are moved into the manifest only when the builder is finalized. -/
def ImageBuilder.Bare (b : ImageBuilder) : Prop := b.manifest.tensorTable = []

section Bare

variable {hashing : Hashing} {sourceTensors : HashMap SourceTensor} {b b' : ImageBuilder} {id : ℕ}
  {state state' : Emission}

theorem bare_flushSegment (hashing : Hashing) (bare : b.Bare) : (b.flushSegment hashing).Bare := by
  unfold ImageBuilder.flushSegment
  split
  · exact bare
  · exact bare

theorem bare_addTensor {t : TensorSpec} (bare : b.Bare) (ok : b.addTensor t = .ok (b', id)) :
    b'.Bare := by
  unfold ImageBuilder.addTensor at ok
  split at ok
  next => cases ok
  next =>
    obtain ⟨_, -, done⟩ := bind_ok_iff.mp ok
    cases done
    exact bare

theorem bare_emitTensor {name role logicalDtype : String} {layer : Option ℕ}
    {logicalShape : List ℕ} {quantization : Option QuantizationDesc} (bare : b.Bare)
    (ok : emitTensor sourceTensors b name role layer logicalDtype logicalShape quantization =
      .ok (b', id)) : b'.Bare := by
  obtain ⟨_, -, added⟩ := bind_ok_iff.mp ok
  exact bare_addTensor bare added

theorem bare_emitBinding {layer : Option ℕ} {binding : TensorBinding} (bare : state.1.Bare)
    (ok : emitBinding sourceTensors layer state binding = .ok state') : state'.1.Bare := by
  obtain ⟨⟨b, id⟩, emitted, done⟩ := bind_ok_iff.mp ok
  cases done
  unfold emitBindingSet at emitted
  split at emitted
  next =>
    obtain ⟨⟨b₁, _⟩, scales, rest⟩ := bind_ok_iff.mp emitted
    obtain ⟨⟨b₂, _⟩, biases, weight⟩ := bind_ok_iff.mp rest
    exact bare_emitTensor (bare_emitTensor (bare_emitTensor bare scales) biases) weight
  next => exact bare_emitTensor bare emitted

theorem bare_beginSegment {segment : String} {kind : SegmentKind} (bare : state.1.Bare) :
    (beginSegment hashing segment kind state).1.Bare :=
  bare_flushSegment hashing bare

theorem bare_emitLayer {label : String} {layer : LayerSpec} (bare : state.1.Bare)
    (ok : emitLayer hashing label sourceTensors state layer = .ok state') : state'.1.Bare := by
  apply foldlM_keeps (fun s : Emission => s.1.Bare) _ (bare_beginSegment bare) ok
  exact fun _ _ _ kept turn => bare_emitBinding kept turn

theorem bare_aliasLmHead {loaded : LoadedSource} (bare : state.1.Bare)
    (ok : aliasLmHead loaded state = .ok state') : state'.1.Bare := by
  unfold aliasLmHead at ok
  split at ok
  next =>
    obtain ⟨_, -, done⟩ := bind_ok_iff.mp ok
    cases done
    exact bare
  next =>
    cases ok
    exact bare

theorem bare_emitSpec {loaded : LoadedSource} (bare : state.1.Bare)
    (ok : emitSpec hashing loaded state = .ok state') : state'.1.Bare := by
  obtain ⟨s₁, globals, rest⟩ := bind_ok_iff.mp ok
  obtain ⟨s₂, aliased, layers⟩ := bind_ok_iff.mp rest
  have first : s₁.1.Bare := foldlM_keeps (fun s : Emission => s.1.Bare)
    (fun _ _ _ kept turn => bare_emitBinding kept turn)
    (bare_beginSegment bare) globals
  have second := bare_aliasLmHead first aliased
  exact foldlM_keeps (fun s : Emission => s.1.Bare)
    (fun _ _ _ kept turn => bare_emitLayer kept turn) second layers

end Bare

/-! ## The law -/

/-- The image agrees with a full one: it has every tensor of the specification, with the bytes
of the full image, and the ids of its plan are those of the entries of their names. -/
structure DifferentialLaw (loaded : LoadedSource) (image full : CompiledImageReader) : Prop where
  entries : ∀ binding ∈ loaded.spec.bindings, ∀ name ∈ binding.emittedNames,
    ∃ entry, Keyed.find TensorEntry.name image.manifest.tensorTable name = some entry
  bytes : ∀ binding ∈ loaded.spec.bindings, ∀ name ∈ binding.emittedNames,
    (image.tensorBytes name).map Prod.fst = (full.tensorBytes name).map Prod.fst
  ids : ∀ id name, (id, name) ∈ image.manifest.executionPlan.tensorIds loaded.nameSpace.root →
    ∀ entry, Keyed.find TensorEntry.name image.manifest.tensorTable name = some entry →
      entry.id = id

section Law

variable {hashing : Hashing} {site : Site} {validate : LoadedSource → Outcome Unit}
  {previous image : CompiledImageReader} {checkpoint : Checkpoint} {loaded : LoadedSource}

theorem not_mem_compiled_of_unchanged {current : HashMap String} {manifest : Manifest}
    {name : String} (unchanged : name ∈ (diffTensors current manifest).unchanged) :
    name ∉ (diffTensors current manifest).changed ++ (diffTensors current manifest).new := by
  simp only [diffTensors, List.mem_map, List.mem_filter, Option.any_eq_true, beq_iff_eq,
    bne_iff_ne, Option.isNone_iff_eq_none, List.mem_append] at unchanged ⊢
  obtain ⟨⟨_, sha256⟩, ⟨there, entry, found, same⟩, rfl⟩ := unchanged
  have hashed : current.lookup _ = some sha256 := AList.mem_lookup_iff.mpr there
  rintro (⟨⟨_, sha256'⟩, ⟨there', entry', found', apart⟩, rfl⟩ | ⟨⟨_, _⟩, ⟨-, fresh⟩, rfl⟩)
  · have hashed' : current.lookup _ = some sha256' := AList.mem_lookup_iff.mpr there'
    rw [hashed] at hashed'
    cases hashed'
    rw [found] at found'
    cases found'
    exact apart same
  · rw [found] at fresh
    cases fresh

theorem executionPlan_flushSegment (b : ImageBuilder) :
    (b.flushSegment hashing).manifest.executionPlan = b.manifest.executionPlan := by
  unfold ImageBuilder.flushSegment
  split <;> rfl

/-- The table has only entries of the earlier image, and the plan only ids of tensors that were
emitted again. -/
theorem compileDifferential_ok {diff : TensorDiff}
    (changes : diffTensors (loadSourceTensorTable checkpoint) previous.manifest = diff)
    (loads : loadSource validate false checkpoint = .ok loaded)
    (ok : compileDifferential hashing site validate previous checkpoint = .ok image) :
    ∃ ids : HashMap ℕ, (∀ name, name ∈ ids → name ∈ diff.changed ++ diff.new) ∧
      image.manifest.tensorTable =
        previous.manifest.tensorTable.filter (fun entry => diff.unchanged.contains entry.name) ∧
      image.manifest.executionPlan =
        (buildExecutionPlan loaded.arch loaded.nameSpace ids).buildAneFusionPlan.applyFusionPass := by
  obtain ⟨_, loads', rest⟩ := bind_ok_iff.mp ok
  rw [loads] at loads'
  cases loads'
  rw [changes] at rest
  obtain ⟨⟨b, ids⟩, emitted, done⟩ := bind_ok_iff.mp rest
  have bare : b.Bare := by
    refine bare_emitSpec ?_ emitted
    rfl
  let start : Emitting :=
    ({ Layout.empty loaded with start := startTensorId previous.manifest }, ∅)
  obtain ⟨⟨l, ids'⟩, same, emits⟩ := emitSpec_ok (s := start) (Layout.fits_empty loaded) emitted
  obtain ⟨-, rfl⟩ := Prod.mk.inj same
  cases done
  refine ⟨ids, fun name there => ?_, ?_, ?_⟩
  · rcases (emits.keys name).mp there with old | bound
    · cases old
    · obtain ⟨binding, member, rfl⟩ := List.mem_map.mp bound
      exact (mem_bindings_filter.mp member).2
  · have table : ∀ plan,
        ((b.setExecutionPlan plan).flushSegment hashing).manifest.tensorTable = [] := by
      intro plan
      have planned : (b.setExecutionPlan plan).Bare := bare
      exact bare_flushSegment hashing planned
    change _ ++ List.map _ ((b.setExecutionPlan _).flushSegment hashing).manifest.tensorTable = _
    rw [table, List.map_nil, List.append_nil]
  · exact executionPlan_flushSegment (b.setExecutionPlan _)

theorem TensorBinding.name_mem_emittedNames (binding : TensorBinding) :
    binding.name ∈ binding.emittedNames := by
  unfold TensorBinding.emittedNames
  split <;> simp

theorem lookup_eq_none_of_unchanged {ids : HashMap ℕ} {current : HashMap String}
    {manifest : Manifest} {name : String}
    (emitted : ∀ name, name ∈ ids →
      name ∈ (diffTensors current manifest).changed ++ (diffTensors current manifest).new)
    (unchanged : name ∈ (diffTensors current manifest).unchanged) : ids.lookup name = none := by
  rw [AList.lookup_eq_none]
  exact fun there => not_mem_compiled_of_unchanged unchanged (emitted name there)

/-- A global tensor of the source is part of its specification, and so in the image only if it
is unchanged; then it has its earlier entry there, and the plan has no id for it. -/
theorem global_of_law {full : CompiledImageReader} {diff : TensorDiff} (stem : String)
    (loads : loadSource validate false checkpoint = .ok loaded)
    (anchored : stem ++ ".weight" ∈ anchors) (global : stem ∈ globalStemsOf loaded.arch)
    (table : image.manifest.tensorTable =
      previous.manifest.tensorTable.filter fun entry => diff.unchanged.contains entry.name)
    (law : DifferentialLaw loaded image full) :
    globalWeight loaded.nameSpace.root stem ∈ diff.unchanged ∧
      ∃ entry ∈ previous.manifest.tensorTable,
        entry.name = globalWeight loaded.nameSpace.root stem ∧
        Keyed.find TensorEntry.name image.manifest.tensorTable
          (globalWeight loaded.nameSpace.root stem) = some entry := by
  obtain ⟨-, -, -, resolved, -⟩ := loadSource_ok loads
  have inSpec : globalWeight loaded.nameSpace.root stem ∈
      loaded.spec.bindings.map TensorBinding.name := by
    rw [names_loadSource loads, List.mem_filter, List.contains_iff_mem]
    exact ⟨globalWeight_mem_specNames global,
      AList.mem_keys.mp (global_mem_source resolved anchored)⟩
  obtain ⟨binding, member, named⟩ := List.mem_map.mp inSpec
  obtain ⟨entry, found⟩ := law.entries binding member _ binding.name_mem_emittedNames
  rw [named] at found
  obtain ⟨there, same⟩ := Keyed.mem_of_find found
  rw [table, List.mem_filter, List.contains_iff_mem] at there
  exact ⟨same ▸ there.2, entry, there.1, same, found⟩

theorem mem_tensorIds_global {arch : TextArchitecture} {nameSpace : NamespaceBinding}
    (ids : HashMap ℕ) {stem : String} (global : stem ∈ ["embed_tokens", "norm"]) :
    ((ids.lookup (globalWeight nameSpace.root stem)).getD 0, globalWeight nameSpace.root stem) ∈
      (buildExecutionPlan arch nameSpace ids).tensorIds nameSpace.root := by
  simp only [List.mem_cons, List.not_mem_nil, or_false] at global
  unfold ModelExecutionPlan.tensorIds
  rcases global with rfl | rfl
  · have name : globalWeight nameSpace.root "embed_tokens" =
        nameSpace.root ++ ".embed_tokens.weight" := by
      simp [globalWeight, String.append_assoc]
    rw [name]
    exact List.mem_append_left _ (List.mem_append_left _ (List.mem_append_left _
      (List.mem_singleton.mpr rfl)))
  · have name : globalWeight nameSpace.root "norm" = nameSpace.root ++ ".norm.weight" := by
      simp [globalWeight, String.append_assoc]
    rw [name]
    exact List.mem_append_left _ (List.mem_append_right _ (List.mem_singleton.mpr rfl))

theorem nodup_ids_compileSequential {R : Type} {f32 : F32 R} {metallib : Option (List UInt8)}
    {before : LoadedSource} {qmode : Option CompileQuantMode}
    (compiled : compileSequential f32 hashing metallib site before qmode = .ok previous) :
    (previous.manifest.tensorTable.map TensorEntry.id).Nodup := by
  obtain ⟨_, l, _, _, _, _, -, rfl, -⟩ := compileSequential_ok compiled
  change (l.table.map TensorEntry.id).Nodup
  rw [Layout.table, Layout.ids_tableFrom]
  exact List.nodup_range' 1

/-- The image never agrees: the embedding and the norm, without which no source is loaded, have
two entries of the earlier image but only one id in the plan. -/
theorem compileDifferential_never_agrees {R : Type} {f32 : F32 R} {metallib : Option (List UInt8)}
    {previousSite : Site} {before : LoadedSource} {qmode : Option CompileQuantMode}
    (compiled : compileSequential f32 hashing metallib previousSite before qmode = .ok previous)
    (loads : loadSource validate false checkpoint = .ok loaded)
    (ok : compileDifferential hashing site validate previous checkpoint = .ok image)
    (full : CompiledImageReader) : ¬DifferentialLaw loaded image full := by
  intro law
  obtain ⟨ids, emitted, table, planned⟩ := compileDifferential_ok rfl loads ok
  have noId : ∀ stem, stem ++ ".weight" ∈ anchors → stem ∈ ["embed_tokens", "norm"] →
      ∃ entry ∈ previous.manifest.tensorTable,
        entry.name = globalWeight loaded.nameSpace.root stem ∧ entry.id = 0 := by
    intro stem anchored global
    obtain ⟨unchanged, entry, there, named, found⟩ := global_of_law stem loads anchored
      (List.mem_append_left _ global) table law
    have none := lookup_eq_none_of_unchanged emitted unchanged
    have member : _ ∈ (buildExecutionPlan loaded.arch loaded.nameSpace ids).tensorIds
        loaded.nameSpace.root := mem_tensorIds_global ids global
    rw [none, ← tensorIds_fused, ← planned] at member
    exact ⟨entry, there, named, law.ids 0 _ member entry found⟩
  obtain ⟨embed, embedThere, embedName, embedId⟩ := noId "embed_tokens" (by decide) (by simp)
  obtain ⟨norm, normThere, normName, normId⟩ := noId "norm" (by decide) (by simp)
  have same : embed = norm := List.inj_on_of_nodup_map (nodup_ids_compileSequential compiled)
    embedThere normThere (embedId.trans normId.symm)
  rw [same, normName] at embedName
  exact absurd (globalWeight_inj embedName) (by decide)

end Law

/-! ### A source that is not edited, and one that is -/

def shardCheckpoint (sha256 : String) : Checkpoint :=
  llamaCheckpoint [.slidingAttention] false sha256

def shardLoaded (sha256 : String) : Outcome LoadedSource :=
  loadSource (validateSource (llamaConfig 1)) false (shardCheckpoint sha256)

def shardImage (sha256 : String) : Outcome CompiledImageReader := do
  let loaded ← shardLoaded sha256
  compileSequential .machine plainHashing none smallSite loaded none

/-- The second source compiled against the image of the first, next to its own full image. -/
def differentialImages (first second : String) :
    Outcome (LoadedSource × CompiledImageReader × CompiledImageReader) := do
  let previous ← shardImage first
  let loaded ← shardLoaded second
  let image ← compileDifferential plainHashing smallSite (validateSource (llamaConfig 1)) previous
    (shardCheckpoint second)
  let full ← shardImage second
  return (loaded, image, full)

theorem differentialImages_ok : (differentialImages "a" "a").toOption.isSome = true ∧
    (differentialImages "a" "b").toOption.any (fun (loaded, image, _) =>
      loaded.spec.bindings ≠ [] ∧ image.manifest.tensorTable = []) = true := by
  decide +kernel

/-- Without any change the image is a copy, with a plan of zeros. -/
theorem unedited_never_agrees : ∃ loaded image full,
    differentialImages "a" "a" = .ok (loaded, image, full) ∧ ¬DifferentialLaw loaded image full := by
  obtain ⟨⟨loaded, image, full⟩, whole⟩ := exists_ok_of_isSome differentialImages_ok.1
  obtain ⟨previous, compiled, rest⟩ := bind_ok_iff.mp whole
  obtain ⟨_, loads, rest⟩ := bind_ok_iff.mp rest
  obtain ⟨_, ok, rest⟩ := bind_ok_iff.mp rest
  obtain ⟨_, -, done⟩ := bind_ok_iff.mp rest
  cases done
  obtain ⟨before, -, compiled⟩ := bind_ok_iff.mp compiled
  exact ⟨loaded, image, full, whole, compileDifferential_never_agrees compiled loads ok full⟩

/-- With another shard every tensor is emitted again, and the image has no entry for any. -/
theorem edited_image_is_empty : ∃ loaded image full,
    differentialImages "a" "b" = .ok (loaded, image, full) ∧ ¬DifferentialLaw loaded image full := by
  have edited := differentialImages_ok.2
  obtain ⟨⟨loaded, image, full⟩, whole⟩ := exists_ok_of_isSome (Option.isSome_of_any edited)
  refine ⟨loaded, image, full, whole, fun law => ?_⟩
  rw [whole] at edited
  obtain ⟨bindings, table⟩ : loaded.spec.bindings ≠ [] ∧ image.manifest.tensorTable = [] := by
    simpa [Except.toOption] using edited
  obtain ⟨binding, member⟩ := List.exists_mem_of_ne_nil _ bindings
  obtain ⟨entry, found⟩ := law.entries binding member _ binding.name_mem_emittedNames
  rw [table] at found
  cases found

end TribunusCompute.ComputeImage
