import TribunusCompute.ComputeImage.Compiler

/-!
# What emission appends

Each emitting function goes on from a layout with tensors of the source, under names told from
its arguments, and keeps every id it hands out the position of the name it is for.
-/
namespace TribunusCompute.ComputeImage

open Outcome

def TensorSpec.FromSource (sourceTensors : HashMap SourceTensor) (t : TensorSpec) : Prop :=
  ∃ s, sourceTensors.lookup t.name = some s ∧ t.data = s.data ∧ t.storageDtype = s.dtype ∧
    t.physicalShape = s.shape

namespace Layout

variable {l l' l'' : Layout} {sourceTensors : HashMap SourceTensor}
  {names names' segments segments' : List String}

theorem length_tensors : l.tensors.length = countTensors l.blocks := by
  rw [tensors, List.length_flatMap, countTensors]

/-- `after` goes on from `before` with tensors of these names, in segments with these ids. -/
structure Grows (sourceTensors : HashMap SourceTensor) (before after : Layout)
    (names segments : List String) : Prop where
  start : after.start = before.start
  fits : after.Fits
  tensors : ∃ added, after.tensors = before.tensors ++ added ∧
    added.map TensorSpec.name = names ∧ ∀ t ∈ added, t.FromSource sourceTensors
  ids : after.blocks.map Block.id = before.blocks.map Block.id ++ segments

theorem Grows.refl (fits : l.Fits) : l.Grows sourceTensors l [] [] where
  start := rfl
  fits
  tensors := ⟨[], by simp⟩
  ids := (List.append_nil _).symm

theorem Grows.trans (first : l.Grows sourceTensors l' names segments)
    (second : l'.Grows sourceTensors l'' names' segments') :
    l.Grows sourceTensors l'' (names ++ names') (segments ++ segments') := by
  obtain ⟨added, tensors, named, sourced⟩ := first.tensors
  obtain ⟨added', tensors', named', sourced'⟩ := second.tensors
  constructor
  · exact second.start.trans first.start
  · exact second.fits
  · refine ⟨added ++ added', ?_, ?_, ?_⟩
    · rw [tensors', tensors, List.append_assoc]
    · rw [List.map_append, named, named']
    · exact List.forall_mem_append.mpr ⟨sourced, sourced'⟩
  · rw [second.ids, first.ids, List.append_assoc]

def Names (l : Layout) (id : ℕ) (name : String) : Prop :=
  ∃ i, id = l.start + i ∧ (l.tensors.map TensorSpec.name)[i]? = some name

theorem Names.grows {id : ℕ} {name : String} (names_ : l.Names id name)
    (grows : l.Grows sourceTensors l' names segments) : l'.Names id name := by
  obtain ⟨i, rfl, there⟩ := names_
  obtain ⟨added, tensors, -, -⟩ := grows.tensors
  refine ⟨i, by rw [grows.start], ?_⟩
  obtain ⟨early, -⟩ := List.getElem?_eq_some_iff.mp there
  rw [tensors, List.map_append, List.getElem?_append_left early]
  exact there

theorem ids_tableFrom {id : ℕ} {blocks : List Block} :
    (tableFrom id blocks).map TensorEntry.id = List.range' id (countTensors blocks) := by
  induction blocks generalizing id with
  | nil => rfl
  | cons block blocks ih =>
    have count : countTensors (block :: blocks) = block.tensors.length + countTensors blocks := by
      simp [countTensors]
    rw [tableFrom, List.map_append, ids_entriesFrom, ih, count]
    exact List.range'_append_1

theorem find_of_names {id : ℕ} {name : String}
    (distinct : (l.tensors.map TensorSpec.name).Nodup) (named : l.Names id name) :
    ∃ entry, Keyed.find TensorEntry.name l.table name = some entry ∧ entry.id = id := by
  obtain ⟨i, rfl, there⟩ := named
  have names : l.table.map TensorEntry.name = l.tensors.map TensorSpec.name := names_tableFrom
  rw [← names] at distinct there
  rw [List.getElem?_map, Option.map_eq_some_iff] at there
  obtain ⟨entry, at_, rfl⟩ := there
  refine ⟨entry, Keyed.find_of_mem distinct (List.mem_of_getElem? at_), ?_⟩
  have ids : (l.table.map TensorEntry.id)[i]? = some entry.id := by
    rw [List.getElem?_map, at_, Option.map_some]
  rw [table, ids_tableFrom] at ids
  obtain ⟨early, same⟩ := List.getElem?_eq_some_iff.mp ids
  rw [List.getElem_range', Nat.one_mul] at same
  exact same.symm

end Layout

/-! ## Emissions -/

/-- A layout, and the ids of the tensors emitted so far. -/
abbrev Emitting := Layout × HashMap ℕ

def Emitting.render (hashing : Hashing) (s : Emitting) : Emission := (s.1.render hashing, s.2)

/-- Every id is that of the tensor it is kept for. -/
def Emitting.Numbered (s : Emitting) : Prop :=
  ∀ name id, s.2.lookup name = some id → s.1.Names id name

/-- `after` goes on from `before`, with ids for these names. -/
structure Emits (sourceTensors : HashMap SourceTensor) (before after : Emitting)
    (names bound segments : List String) : Prop where
  grows : before.1.Grows sourceTensors after.1 names segments
  numbered : before.Numbered → after.Numbered
  keys : ∀ name, name ∈ after.2 ↔ name ∈ before.2 ∨ name ∈ bound

section Emits

variable {s s' s'' : Emitting} {sourceTensors : HashMap SourceTensor}
  {names names' bound bound' segments segments' : List String}

theorem Emits.refl (fits : s.1.Fits) : Emits sourceTensors s s [] [] [] where
  grows := .refl fits
  numbered := id
  keys := by simp

theorem Emits.trans (first : Emits sourceTensors s s' names bound segments)
    (second : Emits sourceTensors s' s'' names' bound' segments') :
    Emits sourceTensors s s'' (names ++ names') (bound ++ bound') (segments ++ segments') where
  grows := first.grows.trans second.grows
  numbered := second.numbered ∘ first.numbered
  keys name := by rw [second.keys, first.keys, List.mem_append, or_assoc]

/-- A loop of emissions emits what its turns do, one after another. -/
theorem emits_foldlM {α : Type} {hashing : Hashing} {turn : Emission → α → Outcome Emission}
    {namesOf boundOf segmentsOf : α → List String}
    (one : ∀ a (s : Emitting) e, s.1.Fits → turn (s.render hashing) a = .ok e →
      ∃ s' : Emitting, e = s'.render hashing ∧
        Emits sourceTensors s s' (namesOf a) (boundOf a) (segmentsOf a))
    {as : List α} {e : Emission} (fits : s.1.Fits)
    (ok : as.foldlM turn (s.render hashing) = .ok e) :
    ∃ s' : Emitting, e = s'.render hashing ∧ Emits sourceTensors s s' (as.flatMap namesOf)
      (as.flatMap boundOf) (as.flatMap segmentsOf) := by
  induction as generalizing s with
  | nil =>
    obtain rfl := pure_ok_iff.mp ok
    exact ⟨s, rfl, .refl fits⟩
  | cons a as ih =>
    rw [List.foldlM_cons, bind_ok_iff] at ok
    obtain ⟨middle, first, later⟩ := ok
    obtain ⟨s', rfl, emits⟩ := one a s middle fits first
    obtain ⟨s'', rfl, rest⟩ := ih emits.grows.fits later
    exact ⟨s'', rfl, emits.trans rest⟩

end Emits

/-! ## Tensors and bindings -/

section Functions

variable {hashing : Hashing} {sourceTensors : HashMap SourceTensor} {l : Layout} {s : Emitting}
  {e : Emission} {b : ImageBuilder} {id : ℕ}

theorem emitTensor_ok {name role logicalDtype : String} {layer : Option ℕ} {logicalShape : List ℕ}
    {quantization : Option QuantizationDesc} (fits : l.Fits)
    (ok : emitTensor sourceTensors (l.render hashing) name role layer logicalDtype logicalShape
      quantization = .ok (b, id)) :
    ∃ l', b = l'.render hashing ∧ l.Grows sourceTensors l' [name] [] ∧ l'.Names id name := by
  obtain ⟨tensor, there, added⟩ := bind_ok_iff.mp ok
  rw [orReport_ok_iff] at there
  obtain ⟨-, rfl, rfl⟩ := Layout.addTensor_ok added
  have called : (l.render hashing).call hashing (.addTensor _) = _ :=
    bind_ok_iff.mpr ⟨_, added, rfl⟩
  obtain ⟨-, fits', tensors, ids⟩ := Layout.call_render fits called
  have tensors' : (l.append _).tensors = l.tensors ++ [_] := tensors
  refine ⟨_, rfl, ⟨rfl, fits', ⟨_, tensors', rfl, ?_⟩, ids⟩, l.tensors.length, ?_, ?_⟩
  · intro t member
    obtain rfl := List.mem_singleton.mp member
    exact ⟨tensor, there, rfl, rfl, rfl⟩
  · rw [Layout.length_tensors]
    rfl
  · rw [tensors', List.map_append, List.getElem?_append_right (by simp)]
    simp

def TensorBinding.emittedNames (binding : TensorBinding) : List String :=
  match binding.packedShape with
  | some _ => [scalesName binding.name, biasesName binding.name, binding.name]
  | none => [binding.name]

theorem TensorBinding.emittedNames_packed {binding : TensorBinding} {packed : PackedLinearShapes}
    (described : binding.packedShape = some packed) :
    binding.emittedNames = [scalesName binding.name, biasesName binding.name, binding.name] := by
  simp [emittedNames, described]

theorem TensorBinding.emittedNames_plain {binding : TensorBinding}
    (described : binding.packedShape = none) : binding.emittedNames = [binding.name] := by
  simp [emittedNames, described]

theorem emitBindingSet_ok {binding : TensorBinding} {layer : Option ℕ} (fits : l.Fits)
    (ok : emitBindingSet sourceTensors (l.render hashing) binding layer = .ok (b, id)) :
    ∃ l', b = l'.render hashing ∧ l.Grows sourceTensors l' binding.emittedNames [] ∧
      l'.Names id binding.name := by
  unfold emitBindingSet at ok
  split at ok
  next packed described =>
    rw [TensorBinding.emittedNames_packed described]
    obtain ⟨⟨b₁, scalesId⟩, scales, rest⟩ := bind_ok_iff.mp ok
    obtain ⟨⟨b₂, biasesId⟩, biases, weight⟩ := bind_ok_iff.mp rest
    obtain ⟨l₁, rfl, first, -⟩ := emitTensor_ok fits scales
    obtain ⟨l₂, rfl, second, -⟩ := emitTensor_ok first.fits biases
    obtain ⟨l₃, rfl, third, named⟩ := emitTensor_ok second.fits weight
    exact ⟨l₃, rfl, (first.trans second).trans third, named⟩
  next described =>
    rw [TensorBinding.emittedNames_plain described]
    exact emitTensor_ok fits ok

theorem emits_insert {l' : Layout} {names : List String} {name : String}
    (grows : s.1.Grows sourceTensors l' names []) (named : l'.Names id name) :
    Emits sourceTensors s (l', s.2.insert name id) names [name] [] where
  grows
  numbered numbered other otherId found := by
    by_cases same : other = name
    · subst same
      rw [AList.lookup_insert] at found
      cases found
      exact named
    · rw [AList.lookup_insert_ne same] at found
      exact (numbered other otherId found).grows grows
  keys other := by
    rw [AList.mem_insert, List.mem_singleton, or_comm]

theorem emitBinding_ok {binding : TensorBinding} {layer : Option ℕ} (fits : s.1.Fits)
    (ok : emitBinding sourceTensors layer (s.render hashing) binding = .ok e) :
    ∃ s' : Emitting, e = s'.render hashing ∧
      Emits sourceTensors s s' binding.emittedNames [binding.name] [] := by
  obtain ⟨⟨b, id⟩, emitted, done⟩ := bind_ok_iff.mp ok
  obtain ⟨l', rfl, grows, named⟩ := emitBindingSet_ok fits emitted
  cases done
  exact ⟨(l', s.2.insert binding.name id), rfl, emits_insert grows named⟩

theorem emitBindings_ok {bindings : List TensorBinding} {layer : Option ℕ} (fits : s.1.Fits)
    (ok : bindings.foldlM (emitBinding sourceTensors layer) (s.render hashing) = .ok e) :
    ∃ s' : Emitting, e = s'.render hashing ∧
      Emits sourceTensors s s' (bindings.flatMap TensorBinding.emittedNames)
        (bindings.map TensorBinding.name) [] := by
  obtain ⟨s', same, emits⟩ := emits_foldlM (fun _ _ _ => emitBinding_ok) fits ok
  rw [← List.map_eq_flatMap, List.flatMap_eq_nil_iff.mpr fun _ _ => rfl] at emits
  exact ⟨s', same, emits⟩

/-! ## Segments -/

def Emitting.beginSegment (segment : String) (kind : SegmentKind) (s : Emitting) : Emitting :=
  (s.1.openBlock segment kind, s.2)

theorem beginSegment_render_emitting (segment : String) (kind : SegmentKind) :
    beginSegment hashing segment kind (s.render hashing) =
      (s.beginSegment segment kind).render hashing :=
  congrArg (·, s.2) (Layout.beginSegment_render segment kind)

theorem emits_beginSegment (hashing : Hashing) (segment : String) (kind : SegmentKind)
    (fits : s.1.Fits) :
    Emits sourceTensors s (s.beginSegment segment kind) [] [] [segment] := by
  have called : (s.1.render hashing).call hashing (.beginSegment segment kind) = .ok _ := rfl
  obtain ⟨-, fits', tensors, ids⟩ := Layout.call_render fits called
  have grows : s.1.Grows sourceTensors (s.1.openBlock segment kind) [] [segment] :=
    ⟨rfl, fits', ⟨[], tensors, rfl, by simp⟩, ids⟩
  exact ⟨grows, fun numbered name id found => (numbered name id found).grows grows,
    by simp [Emitting.beginSegment]⟩

theorem emitLayer_ok {label : String} {layer : LayerSpec} (fits : s.1.Fits)
    (ok : emitLayer hashing label sourceTensors (s.render hashing) layer = .ok e) :
    ∃ s' : Emitting, e = s'.render hashing ∧
      Emits sourceTensors s s' (layer.tensors.flatMap TensorBinding.emittedNames)
        (layer.tensors.map TensorBinding.name) [label ++ toString layer.index] := by
  unfold emitLayer at ok
  rw [beginSegment_render_emitting] at ok
  have opened : Emits sourceTensors s _ _ _ _ :=
    emits_beginSegment hashing (label ++ toString layer.index) (.layer layer.index) fits
  obtain ⟨s', same, emits⟩ := emitBindings_ok opened.grows.fits ok
  exact ⟨s', same, opened.trans emits⟩

theorem emitLayers_ok {label : String} {layers : List LayerSpec} (fits : s.1.Fits)
    (ok : layers.foldlM (emitLayer hashing label sourceTensors) (s.render hashing) = .ok e) :
    ∃ s' : Emitting, e = s'.render hashing ∧
      Emits sourceTensors s s'
        ((layers.flatMap LayerSpec.tensors).flatMap TensorBinding.emittedNames)
        ((layers.flatMap LayerSpec.tensors).map TensorBinding.name)
        (layers.map fun layer => label ++ toString layer.index) := by
  obtain ⟨s', same, emits⟩ := emits_foldlM (fun _ _ _ => emitLayer_ok) fits ok
  rw [← List.map_eq_flatMap] at emits
  rw [List.flatMap_assoc, List.map_flatMap]
  exact ⟨s', same, emits⟩

/-! ## Encoders -/

theorem emitEncoderTensor_ok {label role name : String} (fits : s.1.Fits)
    (ok : emitEncoderTensor sourceTensors label role (s.render hashing) name = .ok e) :
    ∃ s' : Emitting, e = s'.render hashing ∧ Emits sourceTensors s s' [name] [name] [] := by
  obtain ⟨tensor, -, rest⟩ := bind_ok_iff.mp ok
  obtain ⟨⟨b, id⟩, emitted, done⟩ := bind_ok_iff.mp rest
  obtain ⟨l', rfl, grows, named⟩ := emitTensor_ok fits emitted
  cases done
  exact ⟨(l', s.2.insert name id), rfl, emits_insert grows named⟩

/-- A change of the manifest, which moves no tensor. -/
def Configures (hashing : Hashing) (change : ImageBuilder → ImageBuilder)
    (changed : Manifest → Manifest) : Prop :=
  ∀ l : Layout, change (l.render hashing) = { l with base := changed l.base }.render hashing

theorem configures_setAudioConfig (audioConfig : Option AudioArchitecture) :
    Configures hashing
      (fun b => match audioConfig with
        | some config => b.setAudioConfig config
        | none => b)
      (fun m => match audioConfig with
        | some config => { m with audioConfig := some config }
        | none => m) := by
  intro l
  cases audioConfig <;> rfl

theorem emits_configure (changed : Manifest → Manifest) (fits : s.1.Fits) :
    Emits sourceTensors s ({ s.1 with base := changed s.1.base }, s.2) [] [] [] where
  grows := ⟨rfl, fits, ⟨[], by simp [Layout.tensors, Layout.blocks]⟩,
    by simp [Layout.blocks]⟩
  numbered numbered := numbered
  keys := by simp

theorem emitEncoder_ok {label role : String} {starts : List String}
    {configure : ImageBuilder → ImageBuilder} {changed : Manifest → Manifest} (fits : s.1.Fits)
    (configures : Configures hashing configure changed)
    (ok : emitEncoder hashing sourceTensors label role starts configure (s.render hashing) =
      .ok e) :
    ∃ (s' : Emitting) (names segments : List String), e = s'.render hashing ∧
      names.Sublist (encoderNames sourceTensors starts) ∧ segments.Sublist [label ++ "_encoder"] ∧
      Emits sourceTensors s s' names names segments := by
  unfold emitEncoder at ok
  dsimp only at ok
  split at ok
  next =>
    cases ok
    exact ⟨s, [], [], rfl, List.nil_sublist _, List.nil_sublist _, .refl fits⟩
  next =>
    rw [beginSegment_render_emitting] at ok
    have opened : Emits sourceTensors s _ _ _ _ :=
      emits_beginSegment hashing (label ++ "_encoder") .persistent fits
    have configured : Emits sourceTensors _ _ _ _ _ := emits_configure changed opened.grows.fits
    have rendered := configures (s.beginSegment (label ++ "_encoder") .persistent).1
    rw [Emitting.render, rendered] at ok
    obtain ⟨s', same, emits⟩ := emits_foldlM (fun _ _ _ => emitEncoderTensor_ok)
      configured.grows.fits ok
    have whole := (opened.trans configured).trans emits
    rw [List.flatMap_singleton', List.flatMap_eq_nil_iff.mpr fun _ _ => rfl] at whole
    exact ⟨s', _, _, same, .refl _, .refl _, whole⟩

/-! ## The compiler -/

theorem emits_aliasLmHead {loaded : LoadedSource} (fits : s.1.Fits)
    (ok : aliasLmHead loaded (s.render hashing) = .ok e) :
    ∃ s' : Emitting, e = s'.render hashing ∧ Emits loaded.sourceTensors s s' [] [] [] := by
  unfold aliasLmHead at ok
  split at ok
  next =>
    obtain ⟨id, -, done⟩ := bind_ok_iff.mp ok
    cases done
    let aliasing : ImageBuilder.Call := .addAlias "lm_head.weight" id "tie_word_embeddings=true"
    have called : (s.1.render hashing).call hashing aliasing = .ok _ := rfl
    obtain ⟨same, fits', tensors, ids⟩ := Layout.call_render fits called
    have grows : s.1.Grows loaded.sourceTensors (s.1.call aliasing) [] [] :=
      ⟨rfl, fits', ⟨[], tensors, rfl, by simp⟩, ids⟩
    exact ⟨(s.1.call aliasing, s.2), congrArg (·, s.2) same, grows, fun numbered => numbered,
      by simp⟩
  next =>
    cases ok
    exact ⟨s, rfl, .refl fits⟩

def ExecutionSpec.segmentIds (spec : ExecutionSpec) : List String :=
  "persistent" :: spec.layers.map fun layer => "layer_" ++ toString layer.index

theorem emitSpec_ok {loaded : LoadedSource} (fits : s.1.Fits)
    (ok : emitSpec hashing loaded (s.render hashing) = .ok e) :
    ∃ s' : Emitting, e = s'.render hashing ∧
      Emits loaded.sourceTensors s s' (loaded.spec.bindings.flatMap TensorBinding.emittedNames)
        (loaded.spec.bindings.map TensorBinding.name) loaded.spec.segmentIds := by
  obtain ⟨state, globals, rest⟩ := bind_ok_iff.mp ok
  obtain ⟨state', aliased, layers⟩ := bind_ok_iff.mp rest
  rw [beginSegment_render_emitting] at globals
  have opened : Emits loaded.sourceTensors s _ _ _ _ :=
    emits_beginSegment hashing "persistent" .persistent fits
  obtain ⟨s₁, rfl, first⟩ := emitBindings_ok opened.grows.fits globals
  obtain ⟨s₂, rfl, second⟩ := emits_aliasLmHead first.grows.fits aliased
  obtain ⟨s₃, rfl, third⟩ := emitLayers_ok second.grows.fits layers
  refine ⟨s₃, rfl, ?_⟩
  have whole := ((opened.trans first).trans second).trans third
  rw [ExecutionSpec.bindings, List.flatMap_append, List.map_append, ExecutionSpec.segmentIds]
  simpa only [List.append_nil, List.nil_append, List.singleton_append] using whole

theorem emitEncoders_ok {loaded : LoadedSource} (fits : s.1.Fits)
    (ok : emitEncoders hashing loaded (s.render hashing) = .ok e) :
    ∃ (s' : Emitting) (vision audio segments : List String), e = s'.render hashing ∧
      vision.Sublist (encoderNames loaded.sourceTensors ["vision_encoder."]) ∧
      audio.Sublist (encoderNames loaded.sourceTensors ["audio_encoder.", "embed_audio."]) ∧
      segments.Sublist ["vision_encoder", "audio_encoder"] ∧
      Emits loaded.sourceTensors s s' (vision ++ audio) (vision ++ audio) segments := by
  obtain ⟨state, seen, heard⟩ := bind_ok_iff.mp ok
  have first : ∃ (s₁ : Emitting) (vision segments : List String), state = s₁.render hashing ∧
      vision.Sublist (encoderNames loaded.sourceTensors ["vision_encoder."]) ∧
      segments.Sublist ["vision_encoder"] ∧
      Emits loaded.sourceTensors s s₁ vision vision segments := by
    split at seen
    next =>
      have unchanged : Configures hashing id id := fun _ => rfl
      exact emitEncoder_ok fits unchanged seen
    next =>
      cases seen
      exact ⟨s, [], [], rfl, List.nil_sublist _, List.nil_sublist _, .refl fits⟩
  obtain ⟨s₁, vision, segments, rfl, sees, inVision, emits⟩ := first
  split at heard
  next =>
    obtain ⟨s', audio, segments', same, hears, inAudio, emits'⟩ :=
      emitEncoder_ok emits.grows.fits (configures_setAudioConfig _) heard
    exact ⟨s', vision, audio, _, same, sees, hears, inVision.append inAudio, emits.trans emits'⟩
  next =>
    cases heard
    refine ⟨s₁, vision, [], segments, rfl, sees, List.nil_sublist _, ?_, ?_⟩
    · exact inVision.trans (List.sublist_append_left ["vision_encoder"] _)
    · rwa [List.append_nil]

end Functions

def Manifest.finish (hashing : Hashing) (metallib : Option (List UInt8))
    (plan : ModelExecutionPlan) (m : Manifest) : Manifest :=
  match metallib with
  | some bytes =>
    { m with
      executionPlan := plan
      metallibHash := some (hashing.sha256Bytes bytes)
      metallibSize := some bytes.length }
  | none => { m with executionPlan := plan }

theorem configures_finish {hashing : Hashing} (metallib : Option (List UInt8))
    (plan : ModelExecutionPlan) :
    Configures hashing (fun b => embedMetallib hashing metallib (b.setExecutionPlan plan))
      (Manifest.finish hashing metallib plan) := by
  intro l
  cases metallib <;> rfl

theorem Manifest.executionPlan_finish {hashing : Hashing} (metallib : Option (List UInt8))
    (plan : ModelExecutionPlan) (m : Manifest) :
    (m.finish hashing metallib plan).executionPlan = plan := by
  cases metallib <;> rfl

def Layout.empty (loaded : LoadedSource) : Layout :=
  ⟨Manifest.new loaded.arch loaded.identity, 0, [], none, []⟩

theorem Layout.fits_empty (loaded : LoadedSource) : (Layout.empty loaded).Fits :=
  fun _ member => by cases member

/-- An image is that of a layout with the tensors of the specification, then those of the
encoders, and with the plan of the ids they got. -/
theorem compileSequential_ok {R : Type} {f32 : F32 R} {hashing : Hashing}
    {metallib : Option (List UInt8)} {site : Site} {loaded : LoadedSource}
    {qmode : Option CompileQuantMode} {image : CompiledImageReader}
    (ok : compileSequential f32 hashing metallib site loaded qmode = .ok image) :
    ∃ (quantized : LoadedSource) (l : Layout) (ids : HashMap ℕ) (vision audio segments : List String),
      quantizeLoaded f32 loaded qmode = .ok quantized ∧ image = l.reader hashing site ∧
      vision.Sublist (encoderNames quantized.sourceTensors ["vision_encoder."]) ∧
      audio.Sublist (encoderNames quantized.sourceTensors ["audio_encoder.", "embed_audio."]) ∧
      segments.Sublist ["vision_encoder", "audio_encoder"] ∧
      Emits quantized.sourceTensors (Layout.empty quantized, ∅) (l, ids)
        (quantized.spec.bindings.flatMap TensorBinding.emittedNames ++ (vision ++ audio))
        (quantized.spec.bindings.map TensorBinding.name ++ (vision ++ audio))
        (quantized.spec.segmentIds ++ segments) ∧
      ((buildExecutionPlan quantized.arch quantized.nameSpace ids).buildAneFusionPlan
        |>.applyFusionPass.optimize) = .ok image.manifest.executionPlan := by
  obtain ⟨quantized, quantize, rest⟩ := bind_ok_iff.mp ok
  obtain ⟨state, spec, rest⟩ := bind_ok_iff.mp rest
  obtain ⟨⟨b, ids⟩, encoders, rest⟩ := bind_ok_iff.mp rest
  obtain ⟨plan, optimized, done⟩ := bind_ok_iff.mp rest
  let start : Emitting := (Layout.empty quantized, ∅)
  have fits : start.1.Fits := Layout.fits_empty quantized
  obtain ⟨s₁, rfl, first⟩ := emitSpec_ok (s := start) fits spec
  obtain ⟨⟨l, ids'⟩, vision, audio, segments, same, sees, hears, inSegments, second⟩ :=
    emitEncoders_ok first.grows.fits encoders
  obtain ⟨rfl, rfl⟩ := Prod.mk.inj same
  cases done
  -- the kernel library and the plan change the manifest, but no segment
  have finished : embedMetallib hashing metallib ((l.render hashing).setExecutionPlan plan) =
      { l with base := l.base.finish hashing metallib plan }.render hashing :=
    configures_finish metallib plan l
  have configured : Emits quantized.sourceTensors _ _ _ _ _ :=
    emits_configure (Manifest.finish hashing metallib plan) second.grows.fits
  have whole := (first.trans second).trans configured
  simp only [List.append_nil] at whole
  refine ⟨quantized, _, ids, vision, audio, segments, quantize, ?_, sees, hears, inSegments, whole,
    ?_⟩
  · exact (congrArg (ImageBuilder.reader hashing site) finished).trans (Layout.reader_render ..)
  · have plans := congrArg (fun b => (b.reader hashing site).manifest.executionPlan) finished
    have read := Layout.reader_render hashing site
      { l with base := l.base.finish hashing metallib plan }
    rw [optimized]
    refine congrArg Except.ok (Eq.symm (plans.trans ?_))
    rw [read]
    exact Manifest.executionPlan_finish metallib plan l.base

end TribunusCompute.ComputeImage
