import TribunusCompute.ComputeImage.EmittedNames

/-!
# Ids of the execution plan

The plan that a compiled image carries can be run exactly where the source has every tensor
that the plan needs and its embedding is stored packed, because an unpacked one gets id 0,
which in a plan means that there is no such tensor.
-/
namespace TribunusCompute.ComputeImage

open Outcome

/-! ## What the ids of a plan stand for -/

def LayerPlan.tensorIds (root : String) (plan : LayerPlan) : List (ℕ × String) :=
  let named (stem : String) (id : ℕ) := (id, layerWeight root plan.layerIndex stem)
  let values := if plan.attentionKind = "full_attention" then "self_attn.k_proj"
    else "self_attn.v_proj"
  [named "self_attn.q_proj" plan.qProjTensorId, named "self_attn.k_proj" plan.kProjTensorId,
    named values plan.vProjTensorId, named "self_attn.o_proj" plan.oProjTensorId,
    named "mlp.gate_proj" plan.gateProjTensorId, named "mlp.up_proj" plan.upProjTensorId,
    named "mlp.down_proj" plan.downProjTensorId,
    named "input_layernorm" plan.inputLayernormTensorId,
    named "post_attention_layernorm" plan.postAttentionLayernormTensorId] ++
  plan.qNormTensorId.toList.map (named "self_attn.q_norm") ++
  plan.kNormTensorId.toList.map (named "self_attn.k_norm") ++
  plan.preFfwLayernormTensorId.toList.map (named "pre_feedforward_layernorm") ++
  plan.postFfwLayernormTensorId.toList.map (named "post_feedforward_layernorm") ++
  plan.layerScalarIds.map (named "layer_scalar")

def ModelExecutionPlan.tensorIds (root : String) (plan : ModelExecutionPlan) :
    List (ℕ × String) :=
  [(plan.prologue.embeddingTensorId, plan.prologue.embeddingName)] ++
  plan.layers.flatMap (LayerPlan.tensorIds root) ++
  [(plan.epilogue.finalNormTensorId, plan.epilogue.finalNormName)] ++
  plan.epilogue.outputProjectionTensorId.toList.map
    fun id => (id, plan.epilogue.outputProjectionName.getD "")

/-- The plan in a manifest can be run: it is valid, its ids are those of the tensors that its
fields stand for, and a head of its own is not taken from the embedding. -/
structure PlanLaw (root : String) (manifest : Manifest) : Prop where
  valid : manifest.executionPlan.validate = .ok ()
  named : ∀ id name, (id, name) ∈ manifest.executionPlan.tensorIds root → id ≠ 0 →
    ∃ entry, Keyed.find TensorEntry.name manifest.tensorTable name = some entry ∧ entry.id = id
  untied : manifest.executionPlan.tieWordEmbeddings = false → ∀ entry,
    Keyed.find TensorEntry.name manifest.tensorTable
      manifest.executionPlan.prologue.embeddingName = some entry →
    manifest.executionPlan.epilogue.outputProjectionTensorId ≠ some entry.id

/-- The stems of the tensors without which a layer's plan is not valid. -/
def requiredStems (kind : AttentionKind) : List String :=
  ["self_attn.q_proj", "self_attn.k_proj", "self_attn.o_proj", "mlp.gate_proj", "mlp.up_proj",
    "mlp.down_proj", "input_layernorm", "post_attention_layernorm"] ++
  match kind with
  | .fullAttention => []
  | .slidingAttention => ["self_attn.v_proj"]

/-- The embedding is stored packed: the configuration says that it is quantized, or it is
quantized on the way. -/
def PackedEmbedding (quant : Option QuantizationMeta) (loaded : LoadedSource)
    (qmode : Option CompileQuantMode) : Prop :=
  quant ≠ none ∨ qmode ≠ none ∧ ∃ t outDim inDim,
    loaded.sourceTensors.lookup loaded.embedName = some t ∧ t.IsMatrix outDim inDim

/-- What a source must have for its plan to be run. -/
structure Complete (quant : Option QuantizationMeta) (loaded : LoadedSource)
    (qmode : Option CompileQuantMode) : Prop where
  tensors : ∀ i kind, loaded.arch.layerTypes[i]? = some kind → ∀ stem ∈ requiredStems kind,
    layerWeight loaded.nameSpace.root i stem ∈ loaded.sourceTensors
  globalHeadDim : .fullAttention ∈ loaded.arch.layerTypes → loaded.arch.globalHeadDim ≠ none
  vocabSize : loaded.arch.vocabSize ≠ 0
  packedEmbedding : PackedEmbedding quant loaded qmode
  head : loaded.arch.tieWordEmbeddings = true ∨
    loaded.nameSpace.root ++ ".lm_head.weight" ∈ loaded.sourceTensors

/-! ## Validation -/

section Validate

variable {plan : ModelExecutionPlan} {layer layer' : LayerPlan} {hiddenSize i : ℕ}

theorem complain_eq_nil_iff {bad : Prop} [Decidable bad] {reason : String} :
    complain bad reason = [] ↔ ¬bad := by
  unfold complain
  split
  next yes => simp [yes]
  next no => simp [no]

structure LayerPlan.Sound (hiddenSize : ℕ) (plan : LayerPlan) (i : ℕ) : Prop where
  index : plan.layerIndex = i
  hidden : plan.hiddenSize = hiddenSize
  projections : plan.HasProjections
  inputNorm : plan.inputLayernormTensorId ≠ 0
  postNorm : plan.postAttentionLayernormTensorId ≠ 0
  attention : plan.attentionKind = "sliding_attention" ∧ plan.vProjTensorId ≠ 0 ∨
    plan.attentionKind = "full_attention" ∧ plan.globalHeadDim ≠ none
  segment : plan.segmentId = "layer_" ++ toString i

theorem LayerPlan.complaints_eq_nil_iff :
    layer.complaints hiddenSize i = [] ↔ layer.Sound hiddenSize i := by
  unfold complaints
  simp only [List.append_eq_nil_iff, complain_eq_nil_iff, not_not, ne_eq]
  constructor
  · rintro ⟨⟨⟨⟨⟨⟨⟨⟨⟨⟨⟨index, hidden⟩, q⟩, k⟩, o⟩, gate⟩, up⟩, down⟩, input⟩, post⟩, kind⟩, segment⟩
    refine ⟨index, hidden, ⟨q, k, o, gate, up, down⟩, input, post, ?_, segment⟩
    split at kind
    next sliding => exact .inl ⟨sliding, complain_eq_nil_iff.mp kind⟩
    next =>
      split at kind
      next full => exact .inr ⟨full, complain_eq_nil_iff.mp kind⟩
      next => cases kind
  · rintro ⟨index, hidden, ⟨q, k, o, gate, up, down⟩, input, post, kind, segment⟩
    refine ⟨⟨⟨⟨⟨⟨⟨⟨⟨⟨⟨index, hidden⟩, q⟩, k⟩, o⟩, gate⟩, up⟩, down⟩, input⟩, post⟩, ?_⟩, segment⟩
    rcases kind with ⟨sliding, v⟩ | ⟨full, dim⟩
    · rw [if_pos sliding]
      exact complain_eq_nil_iff.mpr v
    · rw [if_neg (by rw [full]; decide), if_pos full]
      exact complain_eq_nil_iff.mpr dim

structure ModelExecutionPlan.Sound (plan : ModelExecutionPlan) : Prop where
  nonempty : plan.layers ≠ []
  layers : ∀ (i : ℕ) (layer : LayerPlan), plan.layers[i]? = some layer →
    layer.Sound plan.hiddenSize i
  embedding : plan.prologue.embeddingTensorId ≠ 0
  finalNorm : plan.epilogue.finalNormTensorId ≠ 0
  vocabSize : plan.epilogue.vocabSize ≠ 0

theorem validate_ok_iff : plan.validate = .ok () ↔ plan.Sound := by
  have split : plan.validate = .ok () ↔ plan.complaints = [] := by
    unfold ModelExecutionPlan.validate
    split
    next none_ => simp [none_]
    next some_ => simp [some_]
  rw [split]
  unfold ModelExecutionPlan.complaints
  simp only [List.append_eq_nil_iff, complain_eq_nil_iff, List.flatMap_eq_nil_iff, Prod.forall,
    List.mem_zipIdx_iff_getElem?, LayerPlan.complaints_eq_nil_iff]
  constructor
  · rintro ⟨⟨⟨⟨nonempty, layers⟩, embedding⟩, norm⟩, vocab⟩
    exact ⟨nonempty, fun i layer there => layers layer i there, embedding, norm, vocab⟩
  · rintro ⟨nonempty, layers, embedding, norm, vocab⟩
    exact ⟨⟨⟨⟨nonempty, fun layer i there => layers i layer there⟩, embedding⟩, norm⟩, vocab⟩

/-! ## Optimized plans -/

theorem LayerPlan.Pruned.kept {α : Type} (pruned : layer.Pruned layer') (field : LayerPlan → α)
    (ignores : ∀ p : LayerPlan, field p.withoutProjections.withoutShapes = field p) :
    field layer' = field layer := by
  rw [← ignores layer', pruned.same, ignores]

theorem LayerPlan.Pruned.sound (pruned : layer.Pruned layer') (sound : layer'.Sound hiddenSize i) :
    layer.Sound hiddenSize i := by
  obtain ⟨index, hidden, ⟨q, k, o, gate, up, down⟩, input, post, kind, segment⟩ := sound
  have ids := pruned.ids
  simp only [projectionIds, List.forall₂_cons, List.Forall₂.nil, and_true] at ids
  obtain ⟨q', k', v', o', gate', up', down'⟩ := ids
  have nonzero : ∀ {id id' : ℕ}, id' = id ∨ id' = 0 → id' ≠ 0 → id ≠ 0 := by
    rintro id id' (rfl | rfl) there
    · exact there
    · exact absurd rfl there
  rw [pruned.kept layerIndex fun _ => rfl] at index
  rw [pruned.kept LayerPlan.hiddenSize fun _ => rfl] at hidden
  rw [pruned.kept inputLayernormTensorId fun _ => rfl] at input
  rw [pruned.kept postAttentionLayernormTensorId fun _ => rfl] at post
  rw [pruned.kept segmentId fun _ => rfl] at segment
  rw [pruned.kept attentionKind fun _ => rfl, pruned.kept globalHeadDim fun _ => rfl] at kind
  exact ⟨index, hidden, ⟨nonzero q' q, nonzero k' k, nonzero o' o, nonzero gate' gate,
    nonzero up' up, nonzero down' down⟩, input, post,
    kind.imp (fun sliding => ⟨sliding.1, nonzero v' sliding.2⟩) fun full => full, segment⟩

theorem getElem?_of_pruned {layers layers' : List LayerPlan} (pruned : PrunedLayers layers layers')
    (there : layers[i]? = some layer) :
    ∃ layer', layers'[i]? = some layer' ∧ layer.Pruned layer' := by
  induction pruned generalizing i with
  | nil => cases there
  | cons first _ ih =>
    cases i with
    | zero =>
      cases there
      exact ⟨_, rfl, first⟩
    | succ i => exact ih there

theorem exists_of_pruned {layers layers' : List LayerPlan} (pruned : PrunedLayers layers layers')
    (there : layers'[i]? = some layer') :
    ∃ layer, layers[i]? = some layer ∧ layer.Pruned layer' := by
  induction pruned generalizing i with
  | nil => cases there
  | cons first _ ih =>
    cases i with
    | zero =>
      cases there
      exact ⟨_, rfl, first⟩
    | succ i => exact ih there

/-- Optimizing makes no plan valid that was not, and keeps those that are. -/
theorem sound_optimize_iff {plan' : ModelExecutionPlan} (ok : plan.optimize = .ok plan') :
    plan'.Sound ↔ plan.Sound := by
  constructor
  · intro sound
    obtain ⟨layers, rfl, pruned⟩ := optimize_ok ok
    refine ⟨?_, fun i layer there => ?_, sound.embedding, sound.finalNorm, sound.vocabSize⟩
    · intro empty
      rw [empty] at pruned
      cases pruned
      exact sound.nonempty rfl
    · obtain ⟨layer', there', pruned⟩ := getElem?_of_pruned pruned there
      exact pruned.sound (sound.layers i layer' there')
  · intro sound
    have whole : ∀ layer ∈ plan.layers, layer.HasProjections := by
      intro layer member
      obtain ⟨i, there⟩ := List.getElem?_of_mem member
      exact (sound.layers i layer there).projections
    rw [optimize_of_whole sound.finalNorm whole ok]
    refine ⟨by simpa using sound.nonempty, fun i layer' there => ?_, sound.embedding,
      sound.finalNorm, sound.vocabSize⟩
    rw [List.getElem?_map] at there
    obtain ⟨layer, at_, rfl⟩ := Option.map_eq_some_iff.mp there
    obtain ⟨index, hidden, ⟨q, k, o, gate, up, down⟩, input, post, attention, segment⟩ :=
      sound.layers i layer at_
    exact ⟨index, hidden, ⟨q, k, o, gate, up, down⟩, input, post, attention, segment⟩

theorem tensorIds_of_pruned {root name : String} {id : ℕ} (pruned : layer.Pruned layer')
    (member : (id, name) ∈ layer'.tensorIds root) (nonzero : id ≠ 0) :
    (id, name) ∈ layer.tensorIds root := by
  have ids := pruned.ids
  simp only [LayerPlan.projectionIds, List.forall₂_cons, List.Forall₂.nil, and_true] at ids
  unfold LayerPlan.tensorIds at member ⊢
  rw [pruned.kept LayerPlan.layerIndex fun _ => rfl, pruned.kept LayerPlan.attentionKind fun _ => rfl,
    pruned.kept LayerPlan.inputLayernormTensorId fun _ => rfl,
    pruned.kept LayerPlan.postAttentionLayernormTensorId fun _ => rfl,
    pruned.kept LayerPlan.qNormTensorId fun _ => rfl,
    pruned.kept LayerPlan.kNormTensorId fun _ => rfl,
    pruned.kept LayerPlan.preFfwLayernormTensorId fun _ => rfl,
    pruned.kept LayerPlan.postFfwLayernormTensorId fun _ => rfl,
    pruned.kept LayerPlan.layerScalarIds fun _ => rfl] at member
  simp only [List.append_assoc, List.mem_append, List.mem_cons] at member ⊢
  grind

theorem tensorIds_of_optimize {plan' : ModelExecutionPlan} {root name : String} {id : ℕ}
    (ok : plan.optimize = .ok plan') (member : (id, name) ∈ plan'.tensorIds root)
    (nonzero : id ≠ 0) : (id, name) ∈ plan.tensorIds root := by
  obtain ⟨layers, rfl, pruned⟩ := optimize_ok ok
  have layered : (id, name) ∈ layers.flatMap (LayerPlan.tensorIds root) →
      (id, name) ∈ plan.layers.flatMap (LayerPlan.tensorIds root) := by
    intro member
    obtain ⟨layer', inLayers, member⟩ := List.mem_flatMap.mp member
    obtain ⟨i, there'⟩ := List.getElem?_of_mem inLayers
    obtain ⟨layer, there, prunes⟩ := exists_of_pruned pruned there'
    exact List.mem_flatMap.mpr
      ⟨layer, List.mem_of_getElem? there, tensorIds_of_pruned prunes member nonzero⟩
  unfold ModelExecutionPlan.tensorIds at member ⊢
  simp only [List.mem_append] at member ⊢
  rcases member with ((start | inLayer) | norm) | head
  · exact .inl (.inl (.inl start))
  · exact .inl (.inl (.inr (layered inLayer)))
  · exact .inl (.inr norm)
  · exact .inr head

theorem exists_fuse (layer : LayerPlan) :
    ∃ fusedOperations, layer.fuse = { layer with fusedOperations } := ⟨_, rfl⟩

theorem tensorIds_fused (root : String) :
    plan.buildAneFusionPlan.applyFusionPass.tensorIds root = plan.tensorIds root := by
  have one : ∀ layer : LayerPlan, layer.fuse.tensorIds root = layer.tensorIds root := by
    intro layer
    obtain ⟨fusedOperations, same⟩ := exists_fuse layer
    rw [same]
    rfl
  have fused : (plan.layers.map LayerPlan.fuse).flatMap (LayerPlan.tensorIds root) =
      plan.layers.flatMap (LayerPlan.tensorIds root) := by
    simp only [List.flatMap_map, one]
  unfold ModelExecutionPlan.tensorIds
  rw [← fused]
  rfl

theorem sound_fused_iff : plan.buildAneFusionPlan.applyFusionPass.Sound ↔ plan.Sound := by
  have layers : plan.buildAneFusionPlan.applyFusionPass.layers = plan.layers.map LayerPlan.fuse :=
    rfl
  have same : ∀ {layer : LayerPlan} {i : ℕ},
      layer.fuse.Sound plan.hiddenSize i ↔ layer.Sound plan.hiddenSize i := by
    intro layer i
    obtain ⟨fusedOperations, same⟩ := exists_fuse layer
    rw [same, ← LayerPlan.complaints_eq_nil_iff, ← LayerPlan.complaints_eq_nil_iff]
    rfl
  constructor
  · rintro ⟨nonempty, sound, embedding, norm, vocab⟩
    rw [layers] at nonempty sound
    refine ⟨fun empty => nonempty (by rw [empty]; rfl), fun i layer there => ?_, embedding, norm,
      vocab⟩
    exact same.mp (sound i layer.fuse (by rw [List.getElem?_map, there]; rfl))
  · rintro ⟨nonempty, sound, embedding, norm, vocab⟩
    refine ⟨?_, fun i layer there => ?_, embedding, norm, vocab⟩
    · rw [layers]
      exact fun empty => nonempty (List.map_eq_nil_iff.mp empty)
    · rw [layers, List.getElem?_map, Option.map_eq_some_iff] at there
      obtain ⟨layer, there, rfl⟩ := there
      exact same.mpr (sound i layer there)

end Validate

/-! ## The plan of the emitted ids -/

section Build

variable {arch : TextArchitecture} {nameSpace : NamespaceBinding} {ids : HashMap ℕ}

theorem lookup_of_getD {name : String} {id : ℕ} (same : (ids.lookup name).getD 0 = id)
    (nonzero : id ≠ 0) : ids.lookup name = some id := by
  cases found : ids.lookup name with
  | none => simp [found] at same; exact absurd same.symm nonzero
  | some other => simpa [found] using same

theorem lookup_of_mem_layer {root name : String} {kind : AttentionKind} {i id : ℕ}
    (member : (id, name) ∈ (buildLayerPlan arch root ids kind i).tensorIds root)
    (nonzero : id ≠ 0) : ids.lookup name = some id := by
  have required : ∀ {stem : String},
      id = (ids.lookup (layerWeight root i stem)).getD 0 ∧ name = layerWeight root i stem →
        ids.lookup name = some id := by
    rintro stem ⟨same, rfl⟩
    exact lookup_of_getD same.symm nonzero
  have optional : ∀ {stem : String},
      (∃ found ∈ (ids.lookup (layerWeight root i stem)).toList,
        found = id ∧ layerWeight root i stem = name) → ids.lookup name = some id := by
    rintro stem ⟨found, there, rfl, rfl⟩
    exact Option.mem_toList.mp there
  have sliding : (AttentionKind.slidingAttention == AttentionKind.fullAttention) = false := rfl
  have apart : "sliding_attention" ≠ "full_attention" := by decide
  cases kind
  all_goals
    simp only [LayerPlan.tensorIds, buildLayerPlan, List.mem_append, List.mem_cons,
      List.not_mem_nil, or_false, List.mem_map, Option.toList_none, Prod.mk.injEq, sliding, apart,
      Bool.false_eq_true, beq_self_eq_true, reduceIte, false_and, exists_const] at member
    rcases member with ((q | k | v | o | gate | up | down | input | post) | qNorm) | kNorm
    exacts [required q, required k, required v, required o, required gate, required up,
      required down, required input, required post, optional qNorm, optional kNorm]

theorem lookup_of_mem_tensorIds {name : String} {id : ℕ}
    (member : (id, name) ∈ (buildExecutionPlan arch nameSpace ids).tensorIds nameSpace.root)
    (nonzero : id ≠ 0) : ids.lookup name = some id := by
  unfold ModelExecutionPlan.tensorIds at member
  simp only [List.mem_append] at member
  rcases member with ((start | inLayer) | norm) | head
  · cases List.mem_singleton.mp start
    exact lookup_of_getD rfl nonzero
  · obtain ⟨layer, inLayers, member⟩ := List.mem_flatMap.mp inLayer
    obtain ⟨⟨kind, i⟩, -, rfl⟩ := List.mem_map.mp inLayers
    exact lookup_of_mem_layer member nonzero
  · cases List.mem_singleton.mp norm
    exact lookup_of_getD rfl nonzero
  · obtain ⟨found, member, same⟩ := List.mem_map.mp head
    cases same
    exact Option.mem_toList.mp member

/-- The tensor got an id that does not mean that there is none. -/
def HasId (ids : HashMap ℕ) (name : String) : Prop := (ids.lookup name).getD 0 ≠ 0

theorem sound_buildLayerPlan_iff {root : String} {kind : AttentionKind} {i : ℕ} :
    (buildLayerPlan arch root ids kind i).Sound arch.hiddenSize i ↔
      (∀ stem ∈ requiredStems kind, HasId ids (layerWeight root i stem)) ∧
        (kind = .fullAttention → arch.globalHeadDim ≠ none) := by
  have apart : "sliding_attention" ≠ "full_attention" := by decide
  constructor
  · rintro ⟨-, -, ⟨q, k, o, gate, up, down⟩, input, post, attention, -⟩
    cases kind with
    | slidingAttention =>
      obtain ⟨-, v⟩ | ⟨full, -⟩ := attention
      · refine ⟨?_, nofun⟩
        simp only [requiredStems, List.cons_append, List.nil_append, List.forall_mem_cons]
        exact ⟨q, k, o, gate, up, down, input, post, v, List.forall_mem_nil _⟩
      · exact absurd full apart
    | fullAttention =>
      obtain ⟨sliding, -⟩ | ⟨-, dim⟩ := attention
      · exact absurd sliding apart.symm
      · refine ⟨?_, fun _ => dim⟩
        simp only [requiredStems, List.append_nil, List.forall_mem_cons]
        exact ⟨q, k, o, gate, up, down, input, post, List.forall_mem_nil _⟩
  · rintro ⟨has, dim⟩
    cases kind with
    | slidingAttention =>
      simp only [requiredStems, List.cons_append, List.nil_append, List.forall_mem_cons] at has
      obtain ⟨q, k, o, gate, up, down, input, post, v, -⟩ := has
      exact ⟨rfl, rfl, ⟨q, k, o, gate, up, down⟩, input, post, .inl ⟨rfl, v⟩, rfl⟩
    | fullAttention =>
      simp only [requiredStems, List.append_nil, List.forall_mem_cons] at has
      obtain ⟨q, k, o, gate, up, down, input, post, -⟩ := has
      exact ⟨rfl, rfl, ⟨q, k, o, gate, up, down⟩, input, post, .inr ⟨rfl, dim rfl⟩, rfl⟩

theorem sound_buildExecutionPlan_iff :
    (buildExecutionPlan arch nameSpace ids).Sound ↔ arch.layerTypes ≠ [] ∧
      (∀ i kind, arch.layerTypes[i]? = some kind → ∀ stem ∈ requiredStems kind,
        HasId ids (layerWeight nameSpace.root i stem)) ∧
      (.fullAttention ∈ arch.layerTypes → arch.globalHeadDim ≠ none) ∧
      HasId ids (nameSpace.root ++ ".embed_tokens.weight") ∧
      HasId ids (nameSpace.root ++ ".norm.weight") ∧ arch.vocabSize ≠ 0 := by
  have layers : (buildExecutionPlan arch nameSpace ids).layers = arch.layerTypes.zipIdx.map
      fun typed => buildLayerPlan arch nameSpace.root ids typed.1 typed.2 := rfl
  have there : ∀ (i : ℕ) (kind : AttentionKind), arch.layerTypes[i]? = some kind →
      (buildExecutionPlan arch nameSpace ids).layers[i]? =
        some (buildLayerPlan arch nameSpace.root ids kind i) := by
    intro i kind at_
    rw [layers, List.getElem?_map, List.getElem?_zipIdx, at_]
    simp
  constructor
  · rintro ⟨nonempty, sound, embedding, norm, vocab⟩
    have each := fun i kind at_ => sound_buildLayerPlan_iff.mp (sound i _ (there i kind at_))
    refine ⟨fun empty => nonempty ?_, fun i kind at_ => (each i kind at_).1, fun member => ?_,
      embedding, norm, vocab⟩
    · rw [layers, empty]
      rfl
    · obtain ⟨i, at_⟩ := List.getElem?_of_mem member
      exact (each i _ at_).2 rfl
  · rintro ⟨nonempty, tensors, dim, embedding, norm, vocab⟩
    refine ⟨fun empty => nonempty ?_, fun i layer found => ?_, embedding, norm, vocab⟩
    · rw [layers, List.map_eq_nil_iff, List.zipIdx_eq_nil_iff] at empty
      exact empty
    · have kinds : ∃ kind, arch.layerTypes[i]? = some kind := by
        rw [layers, List.getElem?_map, List.getElem?_zipIdx] at found
        cases at_ : arch.layerTypes[i]? with
        | none => simp [at_] at found
        | some kind => exact ⟨kind, rfl⟩
      obtain ⟨kind, at_⟩ := kinds
      rw [there i kind at_] at found
      cases found
      exact sound_buildLayerPlan_iff.mpr ⟨tensors i kind at_, fun full =>
        dim (full ▸ List.mem_of_getElem? at_)⟩

end Build

/-! ## The ids that the tensors get -/

section Ids

variable {l : Layout} {ids : HashMap ℕ} {first name : String} {rest : List String}

/-- Only the tensor that is emitted first gets an id that means that there is none. -/
theorem hasId_iff (numbered : Emitting.Numbered (l, ids)) (start : l.start = 0)
    (names : l.tensors.map TensorSpec.name = first :: rest) (distinct : (first :: rest).Nodup) :
    HasId ids name ↔ name ∈ ids ∧ name ≠ first := by
  rw [← AList.lookup_isSome]
  unfold HasId
  cases found : ids.lookup name with
  | none => simp
  | some id =>
    obtain ⟨i, same, there⟩ := numbered name id found
    obtain rfl : id = i := by rw [same, start, Nat.zero_add]
    rw [names] at there
    simp only [Option.getD_some, Option.isSome_some, true_and]
    cases id with
    | zero =>
      rw [List.getElem?_cons_zero] at there
      simp [Option.some.inj there]
    | succ i =>
      rw [List.getElem?_cons_succ] at there
      have later := List.mem_of_getElem? there
      have apart : name ≠ first := fun same => (List.nodup_cons.mp distinct).1 (same ▸ later)
      simp [apart]

end Ids

/-! ## Loaded sources -/

section Load

variable {names : List String} {nameSpace : NamespaceBinding} {spec : ExecutionSpec}

theorem resolveNamespace_ok (resolved : resolveNamespace names = some nameSpace) :
    nameSpace.root ∈ candidates ∧ (∀ anchor ∈ anchors, nameSpace.root ++ "." ++ anchor ∈ names) ∧
      nameSpace.lmHeadKey = (if nameSpace.root ++ ".lm_head.weight" ∈ names
        then nameSpace.root ++ ".lm_head.weight" else nameSpace.root ++ ".embed_tokens.weight") := by
  obtain ⟨candidate, member, found⟩ := List.exists_of_findSome?_eq_some resolved
  split at found
  next anchored =>
    cases found
    refine ⟨member, fun anchor there => ?_, ?_⟩
    · simpa using List.all_eq_true.mp anchored anchor there
    · simp
  next => cases found

theorem bindings_filter (existing : List String) :
    (filterSpecToExisting spec existing).bindings =
      spec.bindings.filter fun binding => existing.contains binding.name := by
  simp only [ExecutionSpec.bindings, filterSpecToExisting, List.filter_append,
    List.flatMap_map, List.filter_flatMap]

variable {R : Type} {f32 : F32 R} {loaded quantized : LoadedSource}
  {qmode : Option CompileQuantMode}

theorem storeAll_same (writes : List (String × QuantizedWeight)) :
    (loaded.storeAll writes).arch = loaded.arch ∧
      (loaded.storeAll writes).nameSpace = loaded.nameSpace := by
  induction writes generalizing loaded with
  | nil => exact ⟨rfl, rfl⟩
  | cons write writes ih => exact @ih (loaded.store write.1 write.2)

theorem mem_weightBindings {name : String} {spec : ExecutionSpec} :
    name ∈ weightBindings spec ↔ name ∈ spec.bindings.map TensorBinding.name ∧ IsWeight name := by
  rw [weightBindings, List.mem_filter, Option.isSome_iff_exists]
  simp only [Suffix.strip_eq_some_iff]
  rfl

/-- Quantization describes the weights that it stores, the matrices of halves. -/
theorem quantizeLoaded_ok (ok : quantizeLoaded f32 loaded qmode = .ok quantized) :
    quantized.arch = loaded.arch ∧ quantized.nameSpace = loaded.nameSpace ∧
      ∃ writes : List (String × QuantizedWeight),
        quantized.spec.bindings = loaded.spec.bindings.map (TensorBinding.describeAll · writes) ∧
        (writes.map Prod.fst).Nodup ∧
        ∀ name ∈ weightBindings loaded.spec, name ∈ writes.map Prod.fst ↔
          qmode ≠ none ∧ ∃ t outDim inDim,
            loaded.sourceTensors.lookup name = some t ∧ t.IsMatrix outDim inDim := by
  cases qmode with
  | none =>
    cases ok
    exact ⟨rfl, rfl, [], (List.map_id' _).symm, List.nodup_nil, by simp⟩
  | some qmode =>
    obtain ⟨writes, rfl, distinct, sound, complete⟩ := applyQuantizeToLoaded_ok ok
    obtain ⟨arch, nameSpace⟩ := @storeAll_same loaded writes
    refine ⟨arch, nameSpace, writes, bindings_storeAll, distinct, fun name weight => ⟨?_, ?_⟩⟩
    · intro stored
      obtain ⟨write, member, rfl⟩ := List.mem_map.mp stored
      obtain ⟨-, -, t, outDim, inDim, source, matrix, -⟩ := sound write member
      exact ⟨nofun, t, outDim, inDim, source, matrix⟩
    · rintro ⟨-, t, outDim, inDim, source, matrix⟩
      exact complete name weight t outDim inDim source matrix

end Load

/-! ## Images of loaded sources -/

section Image

variable {quant : Option QuantizationMeta} {loaded quantized : LoadedSource}
  {qmode : Option CompileQuantMode} {l : Layout} {ids : HashMap ℕ} {name : String}

/-- How the tensors of a loaded source lie in its image, and which ids they got. -/
structure Imaged (quant : Option QuantizationMeta) (loaded : LoadedSource)
    (qmode : Option CompileQuantMode) (l : Layout) (ids : HashMap ℕ) : Prop where
  start : l.start = 0
  numbered : Emitting.Numbered (l, ids)
  distinct : (l.tensors.map TensorSpec.name).Nodup
  mem_ids : ∀ name ∈ specNames loaded.arch loaded.nameSpace.root,
    name ∈ ids ↔ name ∈ loaded.sourceTensors
  packed : PackedEmbedding quant loaded qmode →
    ∃ rest, l.tensors.map TensorSpec.name = scalesName loaded.embedName :: rest
  unpacked : ¬PackedEmbedding quant loaded qmode →
    ∃ rest, l.tensors.map TensorSpec.name = loaded.embedName :: rest

theorem embedName_eq : loaded.embedName = globalWeight loaded.nameSpace.root "embed_tokens" := by
  simp [LoadedSource.embedName, globalWeight, String.append_assoc]

theorem isWeight_embedName : IsWeight loaded.embedName := by
  rw [embedName_eq]
  exact isWeight_globalWeight

/-- Of what the specification names, all but an unpacked embedding gets a usable id. -/
theorem Imaged.hasId_iff (imaged : Imaged quant loaded qmode l ids)
    (member : name ∈ specNames loaded.arch loaded.nameSpace.root) :
    HasId ids name ↔ name ∈ loaded.sourceTensors ∧
      (name = loaded.embedName → PackedEmbedding quant loaded qmode) := by
  have distinct := imaged.distinct
  by_cases packed : PackedEmbedding quant loaded qmode
  · obtain ⟨rest, names⟩ := imaged.packed packed
    rw [names] at distinct
    rw [ComputeImage.hasId_iff imaged.numbered imaged.start names distinct, imaged.mem_ids name member]
    have apart : name ≠ scalesName loaded.embedName :=
      (isWeight_of_mem_specNames member).ne_scalesName
    simp [apart, packed]
  · obtain ⟨rest, names⟩ := imaged.unpacked packed
    rw [names] at distinct
    rw [ComputeImage.hasId_iff imaged.numbered imaged.start names distinct, imaged.mem_ids name member]
    simp [packed]

theorem compile_embedding {arch : TextArchitecture} {nameSpace : NamespaceBinding}
    {spec : ExecutionSpec} (ok : compile arch nameSpace quant = .ok spec) :
    ∃ embedding rest, spec.bindings = embedding :: rest ∧
      embedding.name = globalWeight nameSpace.root "embed_tokens" ∧
      (embedding.packedShape = none ↔ quant = none) := by
  obtain ⟨embedding, embeddingOk, rest⟩ := bind_ok_iff.mp ok
  obtain ⟨layers, layersOk, done⟩ := bind_ok_iff.mp rest
  cases done
  refine ⟨embedding, _, rfl, embeddingBinding_ok embeddingOk, ?_⟩
  unfold embeddingBinding at embeddingOk
  cases quant with
  | none =>
    cases embeddingOk
    simp
  | some m =>
    obtain ⟨pack, -, rest⟩ := bind_ok_iff.mp embeddingOk
    obtain ⟨packedIn, -, rest⟩ := bind_ok_iff.mp rest
    obtain ⟨nGroups, -, done⟩ := bind_ok_iff.mp rest
    cases done
    simp

/-- A binding is packed after quantization where it was before, or where its weight is stored. -/
theorem packedShape_describeAll {binding : TensorBinding}
    {writes : List (String × QuantizedWeight)} (distinct : (writes.map Prod.fst).Nodup) :
    (binding.describeAll writes).packedShape ≠ none ↔
      binding.packedShape ≠ none ∨ binding.name ∈ writes.map Prod.fst := by
  cases described : binding.packedShape with
  | some packedShape =>
    rw [describeAll_of_packed described, described]
    simp
  | none =>
    simp only [ne_eq, not_true_eq_false, false_or]
    constructor
    · intro packed
      by_contra absent
      refine packed ?_
      rw [describeAll_of_not_mem absent, described]
    · intro stored
      obtain ⟨⟨_, q⟩, member, same⟩ := List.mem_map.mp stored
      obtain rfl : _ = binding.name := same
      rw [describeAll_of_mem distinct member described]
      simp

variable {R : Type} {f32 : F32 R} {hashing : Hashing} {metallib : Option (List UInt8)}
  {site : Site} {validate : LoadedSource → Outcome Unit} {skipValidation : Bool}
  {checkpoint : Checkpoint} {image : CompiledImageReader}

/-- The embedding and the final norm are there, or there would be no namespace. -/
theorem global_mem_source {stem : String}
    (resolved : resolveNamespace loaded.sourceTensors.keys = some loaded.nameSpace)
    (anchored : stem ++ ".weight" ∈ anchors) :
    globalWeight loaded.nameSpace.root stem ∈ loaded.sourceTensors := by
  have anchor := (resolveNamespace_ok resolved).2.1 _ anchored
  rwa [globalWeight, String.append_assoc, AList.mem_keys]

theorem names_loadSource (loads : loadSource validate skipValidation checkpoint = .ok loaded) :
    loaded.spec.bindings.map TensorBinding.name =
      (specNames loaded.arch loaded.nameSpace.root).filter loaded.sourceTensors.keys.contains := by
  obtain ⟨-, -, -, -, spec, compiled, filtered⟩ := loadSource_ok loads
  rw [filtered, bindings_filter, ← (compile_names compiled).1, List.filter_map]
  rfl

/-- What compiling a loaded source makes of it. -/
theorem exists_imaged (loads : loadSource validate skipValidation checkpoint = .ok loaded)
    (compiles : compileSequential f32 hashing metallib site loaded qmode = .ok image) :
    ∃ l ids, image = l.reader hashing site ∧
      Imaged checkpoint.config.2.1 loaded qmode l ids ∧
      ((buildExecutionPlan loaded.arch loaded.nameSpace ids).buildAneFusionPlan
        |>.applyFusionPass.optimize) = .ok image.manifest.executionPlan := by
  obtain ⟨quantized, l, ids, vision, audio, segments, quantize, read, sees, hears, -, emits, plan⟩ :=
    compileSequential_ok compiles
  obtain ⟨sameArch, sameNameSpace, writes, bindings, distinct, stored⟩ := quantizeLoaded_ok quantize
  obtain ⟨-, -, -, resolved, spec, compiled, filtered⟩ := loadSource_ok loads
  have rooted := (resolveNamespace_ok resolved).1
  rw [sameArch, sameNameSpace] at plan
  refine ⟨l, ids, read, ?_, plan⟩
  have names : quantized.spec.bindings.map TensorBinding.name =
      (specNames loaded.arch loaded.nameSpace.root).filter loaded.sourceTensors.keys.contains := by
    rw [bindings, List.map_map, ← names_loadSource loads]
    exact List.map_congr_left fun binding _ => describeAll_name
  have sublist : (quantized.spec.bindings.map TensorBinding.name).Sublist
      (specNames loaded.arch loaded.nameSpace.root) := names ▸ List.filter_sublist
  obtain ⟨added, tensors, named, -⟩ := emits.grows.tensors
  have emitted : l.tensors.map TensorSpec.name = _ := (congrArg _ tensors).trans named
  -- The embedding comes first, before and after the quantization.
  have embedded : ∃ embedding rest, quantized.spec.bindings = embedding :: rest ∧
      embedding.name = loaded.embedName ∧
      (embedding.packedShape ≠ none ↔ PackedEmbedding checkpoint.config.2.1 loaded qmode) := by
    obtain ⟨embedding, rest, first, embedName, packs⟩ := compile_embedding compiled
    rw [← embedName_eq] at embedName
    have there : loaded.embedName ∈ loaded.sourceTensors.keys := by
      rw [embedName_eq, ← AList.mem_keys]
      exact global_mem_source resolved (by decide)
    have loadedFirst : ∃ rest, loaded.spec.bindings = embedding :: rest := by
      rw [filtered, bindings_filter, first]
      exact ⟨_, List.filter_cons_of_pos (by simpa [embedName] using there)⟩
    obtain ⟨rest, loadedFirst⟩ := loadedFirst
    have weight : loaded.embedName ∈ weightBindings loaded.spec := by
      rw [mem_weightBindings, loadedFirst, List.map_cons, embedName]
      exact ⟨List.mem_cons_self, isWeight_embedName⟩
    refine ⟨embedding.describeAll writes, _, by rw [bindings, loadedFirst]; rfl,
      describeAll_name.trans embedName, ?_⟩
    rw [packedShape_describeAll distinct, embedName, stored _ weight, ne_eq, packs]
    rfl
  obtain ⟨embedding, rest, first, embedName, packs⟩ := embedded
  refine ⟨emits.grows.start, emits.numbered (by simp [Emitting.Numbered]), ?_, fun name member => ?_,
    fun packed => ?_, fun unpacked => ?_⟩
  · rw [emitted]
    exact nodup_imageNames rooted sublist sees hears
  · -- An id is of a binding or of an encoder, and no name of the specification is an encoder's.
    have outside : name ∉ vision ++ audio :=
      not_mem_encoders rooted member (.inl rfl) sees hears
    have keys : name ∈ ids ↔ name ∈ (∅ : HashMap ℕ) ∨
        name ∈ quantized.spec.bindings.map TensorBinding.name ++ (vision ++ audio) :=
      emits.keys name
    rw [keys, List.mem_append, names, List.mem_filter, List.contains_iff_mem]
    simp [outside, member, AList.mem_keys]
  · have described := packs.mpr packed
    obtain ⟨packedShape, described⟩ := Option.ne_none_iff_exists'.mp described
    rw [emitted, first, List.flatMap_cons, TensorBinding.emittedNames, described, embedName]
    exact ⟨_, rfl⟩
  · have described : embedding.packedShape = none := by
      by_contra described
      exact unpacked (packs.mp described)
    rw [emitted, first, List.flatMap_cons, TensorBinding.emittedNames, described, embedName]
    exact ⟨_, rfl⟩

theorem requiredStems_subset (kind : AttentionKind) : requiredStems kind ⊆ layerStems kind := by
  cases kind <;> decide

theorem layerWeight_mem_specNames {arch : TextArchitecture} {root stem : String} {i : ℕ}
    {kind : AttentionKind} (there : arch.layerTypes[i]? = some kind)
    (required : stem ∈ requiredStems kind) : layerWeight root i stem ∈ specNames arch root :=
  List.mem_append_right _ (List.mem_flatMap.mpr ⟨(kind, i), List.mem_zipIdx_iff_getElem?.mpr there,
    List.mem_map_of_mem (requiredStems_subset kind required)⟩)

theorem globalWeight_mem_specNames {arch : TextArchitecture} {root stem : String}
    (global : stem ∈ globalStemsOf arch) : globalWeight root stem ∈ specNames arch root :=
  List.mem_append_left _ (List.mem_map_of_mem global)

theorem Imaged.find_of_lookup (imaged : Imaged quant loaded qmode l ids) {id : ℕ}
    (found : ids.lookup name = some id) :
    ∃ entry, Keyed.find TensorEntry.name l.table name = some entry ∧ entry.id = id :=
  Layout.find_of_names imaged.distinct (imaged.numbered name id found)

theorem Imaged.lookup_inj (imaged : Imaged quant loaded qmode l ids) {other : String} {id : ℕ}
    (found : ids.lookup name = some id) (found' : ids.lookup other = some id) : name = other := by
  obtain ⟨i, same, there⟩ := imaged.numbered name id found
  obtain ⟨j, same', there'⟩ := imaged.numbered other id found'
  obtain rfl : i = j := Nat.add_left_cancel (same.symm.trans same')
  exact Option.some.inj (there.symm.trans there')

/-- The head is not taken from the embedding exactly where it is tied or there is one. -/
theorem Imaged.untied_iff (imaged : Imaged quant loaded qmode l ids)
    (resolved : resolveNamespace loaded.sourceTensors.keys = some loaded.nameSpace) :
    (loaded.arch.tieWordEmbeddings = false → ∀ entry,
      Keyed.find TensorEntry.name l.table loaded.embedName = some entry →
        ids.lookup loaded.nameSpace.lmHeadKey ≠ some entry.id) ↔
      (loaded.arch.tieWordEmbeddings = true ∨
        loaded.nameSpace.root ++ ".lm_head.weight" ∈ loaded.sourceTensors) := by
  obtain ⟨-, -, headKey⟩ := resolveNamespace_ok resolved
  have headName : loaded.nameSpace.root ++ ".lm_head.weight" =
      globalWeight loaded.nameSpace.root "lm_head" := by
    simp [globalWeight, String.append_assoc]
  have embedSource : loaded.embedName ∈ loaded.sourceTensors := by
    rw [embedName_eq]
    exact global_mem_source resolved (by decide)
  have embedIds : loaded.embedName ∈ ids := by
    refine (imaged.mem_ids _ ?_).mpr embedSource
    rw [embedName_eq]
    exact globalWeight_mem_specNames (by simp [globalStemsOf])
  obtain ⟨embedId, embedFound⟩ := Option.isSome_iff_exists.mp (AList.lookup_isSome.mpr embedIds)
  obtain ⟨embedEntry, embedAt, embedSame⟩ := imaged.find_of_lookup embedFound
  cases tied : loaded.arch.tieWordEmbeddings with
  | true => simp
  | false =>
    by_cases there : loaded.nameSpace.root ++ ".lm_head.weight" ∈ loaded.sourceTensors
    · rw [if_pos (AList.mem_keys.mp there)] at headKey
      simp only [there, or_true, iff_true]
      rintro - entry found same
      rw [embedAt] at found
      cases found
      rw [embedSame, headKey] at same
      have names := imaged.lookup_inj same embedFound
      rw [headName, embedName_eq] at names
      exact absurd (globalWeight_inj names) (by decide)
    · rw [if_neg (there ∘ AList.mem_keys.mpr)] at headKey
      simp only [there, or_false, Bool.false_eq_true, iff_false, not_forall]
      refine ⟨trivial, embedEntry, embedAt, fun apart => apart ?_⟩
      rw [embedSame, headKey]
      exact embedFound

theorem untied_iff_head (loads : loadSource validate skipValidation checkpoint = .ok loaded)
    (compiles : compileSequential f32 hashing metallib site loaded qmode = .ok image) :
    (image.manifest.executionPlan.tieWordEmbeddings = false → ∀ entry,
      Keyed.find TensorEntry.name image.manifest.tensorTable
        image.manifest.executionPlan.prologue.embeddingName = some entry →
      image.manifest.executionPlan.epilogue.outputProjectionTensorId ≠ some entry.id) ↔
      (loaded.arch.tieWordEmbeddings = true ∨
        loaded.nameSpace.root ++ ".lm_head.weight" ∈ loaded.sourceTensors) := by
  obtain ⟨l, ids, read, imaged, optimized⟩ := exists_imaged loads compiles
  obtain ⟨-, -, -, resolved, -⟩ := loadSource_ok loads
  obtain ⟨planLayers, planned, -⟩ := optimize_ok optimized
  have table : image.manifest.tensorTable = l.table := by
    rw [read]
    rfl
  have embedding : image.manifest.executionPlan.prologue.embeddingName = loaded.embedName := by
    rw [planned]
    rfl
  have projection : image.manifest.executionPlan.epilogue.outputProjectionTensorId =
      ids.lookup loaded.nameSpace.lmHeadKey := by
    rw [planned]
    rfl
  have tied : image.manifest.executionPlan.tieWordEmbeddings =
      loaded.arch.tieWordEmbeddings := by
    rw [planned]
    rfl
  rw [embedding, projection, tied, table]
  exact imaged.untied_iff resolved

/-- The plan of a compiled image can be run exactly where its source is complete. -/
theorem planLaw_iff (loads : loadSource validate skipValidation checkpoint = .ok loaded)
    (compiles : compileSequential f32 hashing metallib site loaded qmode = .ok image)
    (layers : loaded.arch.layerTypes ≠ []) :
    PlanLaw loaded.nameSpace.root image.manifest ↔
      Complete checkpoint.config.2.1 loaded qmode := by
  obtain ⟨l, ids, read, imaged, optimized⟩ := exists_imaged loads compiles
  obtain ⟨-, -, -, resolved, -⟩ := loadSource_ok loads
  have valid : image.manifest.executionPlan.validate = .ok () ↔ _ := validate_ok_iff.trans <|
    (sound_optimize_iff optimized).trans <| sound_fused_iff.trans sound_buildExecutionPlan_iff
  have untied := untied_iff_head loads compiles
  constructor
  · intro law
    obtain ⟨-, tensors, dim, embedded, -, vocab⟩ := valid.mp law.valid
    refine ⟨fun i kind there stem required => ?_, dim, vocab, ?_, untied.mp law.untied⟩
    · exact ((imaged.hasId_iff (layerWeight_mem_specNames there required)).mp
        (tensors i kind there stem required)).1
    · have member : loaded.embedName ∈ specNames loaded.arch loaded.nameSpace.root := by
        rw [embedName_eq]
        exact globalWeight_mem_specNames (by simp [globalStemsOf])
      exact ((imaged.hasId_iff member).mp embedded).2 rfl
  · rintro ⟨tensors, dim, vocab, packed, head⟩
    have hasId : ∀ name ∈ specNames loaded.arch loaded.nameSpace.root,
        name ∈ loaded.sourceTensors → HasId ids name := fun name member there =>
      (imaged.hasId_iff member).mpr ⟨there, fun _ => packed⟩
    have globals : ∀ stem, stem ++ ".weight" ∈ anchors → stem ∈ globalStemsOf loaded.arch →
        HasId ids (globalWeight loaded.nameSpace.root stem) := fun stem anchored global =>
      hasId _ (globalWeight_mem_specNames global) (global_mem_source resolved anchored)
    refine ⟨valid.mpr ⟨layers, fun i kind there stem required => ?_, dim, ?_, ?_, vocab⟩,
      fun id name member nonzero => ?_, untied.mpr head⟩
    · exact hasId _ (layerWeight_mem_specNames there required) (tensors i kind there stem required)
    · have embedded := globals "embed_tokens" (by decide) (by simp [globalStemsOf])
      rwa [← embedName_eq] at embedded
    · have norm := globals "norm" (by decide) (by simp [globalStemsOf])
      simpa [globalWeight, String.append_assoc] using norm
    · have before := tensorIds_of_optimize optimized member nonzero
      rw [tensorIds_fused] at before
      rw [read]
      exact imaged.find_of_lookup (lookup_of_mem_tensorIds before nonzero)

/-! ### One layer, with its head inside the namespace and outside -/

def plainHashing : Hashing := ⟨fun _ => "", fun _ => []⟩

def planCheckpoint (head : String) : Checkpoint where
  config := ({ smallArchitecture [.slidingAttention] with tieWordEmbeddings := false }, none,
    ⟨"", "small", none, none, none, none, none⟩)
  shards := [⟨"model.safetensors", "", [
    ⟨"model.embed_tokens.weight", "F16", [4, 2], 0, List.replicate 16 0⟩,
    ⟨"model.norm.weight", "F16", [2], 16, List.replicate 4 0⟩,
    ⟨head, "F16", [4, 2], 20, List.replicate 16 0⟩] ++
    ["input_layernorm", "post_attention_layernorm"].map (fun stem =>
      ⟨layerWeight "model" 0 stem, "F16", [2], 36, List.replicate 4 0⟩) ++
    ["self_attn.q_proj", "self_attn.k_proj", "self_attn.v_proj", "self_attn.o_proj",
      "mlp.gate_proj", "mlp.up_proj", "mlp.down_proj"].map fun stem =>
      ⟨layerWeight "model" 0 stem, "F16", [2, 2], 44, List.replicate 8 0⟩⟩]
  tokenizerHashes := []
  auxiliaryHashes := []

def planLoaded (head : String) : Outcome LoadedSource :=
  loadSource (fun _ => .ok ()) true (planCheckpoint head)

def planImage (loaded : LoadedSource) : Outcome CompiledImageReader :=
  compileSequential .machine plainHashing none smallSite loaded (some (.nf4 64))

/-- With a head inside the namespace the plan can be run. -/
theorem modelHead_planLaw : ∃ loaded image, planLoaded "model.lm_head.weight" = .ok loaded ∧
    planImage loaded = .ok image ∧ loaded.arch.layerTypes ≠ [] ∧
    PlanLaw loaded.nameSpace.root image.manifest := by
  have run : ((planLoaded "model.lm_head.weight").bind planImage).toOption.isSome = true := by
    decide +kernel
  have sources : (planLoaded "model.lm_head.weight").toOption.all (fun loaded =>
      ((requiredStems .slidingAttention).all fun stem =>
        (loaded.sourceTensors.lookup (layerWeight loaded.nameSpace.root 0 stem)).isSome) &&
      (loaded.sourceTensors.lookup (loaded.nameSpace.root ++ ".lm_head.weight")).isSome &&
      (loaded.sourceTensors.lookup loaded.embedName).any fun t =>
        t.dtype == "F16" && t.shape == [4, 2]) = true := by
    decide +kernel
  obtain ⟨image, whole⟩ := Outcome.exists_ok_of_isSome run
  obtain ⟨loaded, loads, compiles⟩ := Outcome.bind_ok_iff.mp whole
  obtain ⟨sameArch, -⟩ := loadSource_ok loads
  have layers : loaded.arch.layerTypes = [.slidingAttention] := by
    rw [sameArch]
    rfl
  rw [loads] at sources
  simp only [Except.toOption, Option.all_some, Bool.and_eq_true, List.all_eq_true,
    AList.lookup_isSome, Option.any_eq_true, beq_iff_eq] at sources
  obtain ⟨⟨tensors, head⟩, t, source, dtype, shape⟩ := sources
  refine ⟨loaded, image, loads, compiles, by simp [layers], (planLaw_iff loads compiles
    (by simp [layers])).mpr ⟨fun i kind there => ?_, ?_, ?_, .inr ⟨nofun, t, 4, 2, source,
      .inl dtype, shape⟩, .inr head⟩⟩
  · rw [layers, List.getElem?_singleton] at there
    split at there
    next zero =>
      cases there
      subst zero
      exact tensors
    next => cases there
  · simp [layers]
  · rw [sameArch]
    decide

/-- With a head outside, as checkpoints usually have it, the output is projected through the
embedding although the two are not tied. -/
theorem outerHead_not_planLaw : ∃ loaded image, planLoaded "lm_head.weight" = .ok loaded ∧
    planImage loaded = .ok image ∧ loaded.arch.layerTypes ≠ [] ∧
    ¬PlanLaw loaded.nameSpace.root image.manifest := by
  have run : ((planLoaded "lm_head.weight").bind planImage).toOption.isSome = true := by
    decide +kernel
  have headless : (planLoaded "lm_head.weight").toOption.all (fun loaded =>
      (loaded.sourceTensors.lookup (loaded.nameSpace.root ++ ".lm_head.weight")).isNone) = true := by
    decide +kernel
  obtain ⟨image, whole⟩ := Outcome.exists_ok_of_isSome run
  obtain ⟨loaded, loads, compiles⟩ := Outcome.bind_ok_iff.mp whole
  obtain ⟨sameArch, -⟩ := loadSource_ok loads
  rw [loads] at headless
  refine ⟨loaded, image, loads, compiles, by simp [sameArch, planCheckpoint, smallArchitecture],
    fun law => ?_⟩
  rcases (untied_iff_head loads compiles).mp law.untied with tied | there
  · rw [sameArch] at tied
    exact absurd tied (by decide)
  · rw [← AList.lookup_isSome] at there
    simp [Option.isNone_iff_eq_none.mp headless] at there

end Image

end TribunusCompute.ComputeImage
