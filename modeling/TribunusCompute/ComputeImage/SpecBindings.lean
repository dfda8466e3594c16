import TribunusCompute.ComputeImage.Config

/-!
# The bindings of a compiled specification

Names, roles and packing of the tensors that `compile` expects.
-/
namespace TribunusCompute.ComputeImage

/-- A linear projection of a layer; these are packed whatever the source says. -/
def TensorRole.isProjection : TensorRole → Bool
  | qProj | kProj | vProj | oProj | globalKProj | globalVProj | gateProj | upProj | downProj => true
  | embedding | finalNorm | lmHead | attentionNorm | ffnNorm | qNorm | kNorm => false

def TensorBinding.PackedAs (binding : TensorBinding) (gs bits : ℕ) : Prop :=
  if binding.role.isProjection then
    ∃ packed, binding.packedShape = some packed ∧ packed.bits = bits ∧ packed.groupSize = gs
  else binding.packedShape = none

def layerStems (kind : AttentionKind) : List String :=
  ["input_layernorm", "post_attention_layernorm", "self_attn.q_norm", "self_attn.k_norm",
    "self_attn.q_proj", "self_attn.k_proj"] ++
  (match kind with
    | .fullAttention => []
    | .slidingAttention => ["self_attn.v_proj"]) ++
  ["self_attn.o_proj", "mlp.gate_proj", "mlp.up_proj", "mlp.down_proj"]

section Layers

variable {arch : TextArchitecture} {root : String} {gs bits layer : ℕ} {kind : AttentionKind}
  {spec : LayerSpec}

theorem quantizedLinear_ok {projName : String} {role : TensorRole} {outDim inDim : ℕ}
    {binding : TensorBinding} (projection : role.isProjection = true)
    (ok : quantizedLinear root layer projName role outDim inDim gs bits = .ok binding) :
    binding.name = layerWeight root layer projName ∧ binding.PackedAs gs bits := by
  obtain ⟨pack, -, rest⟩ := Outcome.bind_ok_iff.mp ok
  obtain ⟨packedIn, -, rest⟩ := Outcome.bind_ok_iff.mp rest
  obtain ⟨nGroups, -, done⟩ := Outcome.bind_ok_iff.mp rest
  cases done
  refine ⟨rfl, ?_⟩
  rw [TensorBinding.PackedAs, if_pos projection]
  exact ⟨_, rfl, rfl, rfl⟩

theorem packedAs_normBinding {name : String} {role : TensorRole} {dim : ℕ}
    (norm : role.isProjection = false) : (normBinding root layer name role dim).PackedAs gs bits := by
  have notProjection : ¬(normBinding root layer name role dim).role.isProjection = true := by
    rw [show (normBinding root layer name role dim).role = role from rfl, norm]
    decide
  rw [TensorBinding.PackedAs, if_neg notProjection]
  rfl

theorem compileLayer_ok (ok : compileLayer arch root gs bits kind layer = .ok spec) :
    spec.index = layer ∧ spec.attentionKind = kind ∧
      spec.tensors.map TensorBinding.name = (layerStems kind).map (layerWeight root layer) ∧
      ∀ binding ∈ spec.tensors, binding.PackedAs gs bits := by
  obtain ⟨kvOut, -, rest⟩ := Outcome.bind_ok_iff.mp ok
  obtain ⟨qOut, -, rest⟩ := Outcome.bind_ok_iff.mp rest
  obtain ⟨qProj, qOk, rest⟩ := Outcome.bind_ok_iff.mp rest
  obtain ⟨kProj, kOk, rest⟩ := Outcome.bind_ok_iff.mp rest
  obtain ⟨vProj, vOk, rest⟩ := Outcome.bind_ok_iff.mp rest
  obtain ⟨oProj, oOk, rest⟩ := Outcome.bind_ok_iff.mp rest
  obtain ⟨gateProj, gateOk, rest⟩ := Outcome.bind_ok_iff.mp rest
  obtain ⟨upProj, upOk, rest⟩ := Outcome.bind_ok_iff.mp rest
  obtain ⟨downProj, downOk, done⟩ := Outcome.bind_ok_iff.mp rest
  cases done
  obtain ⟨qName, qPacked⟩ := quantizedLinear_ok rfl qOk
  obtain ⟨kName, kPacked⟩ := quantizedLinear_ok rfl kOk
  obtain ⟨oName, oPacked⟩ := quantizedLinear_ok rfl oOk
  obtain ⟨gateName, gatePacked⟩ := quantizedLinear_ok rfl gateOk
  obtain ⟨upName, upPacked⟩ := quantizedLinear_ok rfl upOk
  obtain ⟨downName, downPacked⟩ := quantizedLinear_ok rfl downOk
  have norm : ∀ name role dim, TensorRole.isProjection role = false →
      (normBinding root layer name role dim).PackedAs gs bits :=
    fun _ _ _ norm => packedAs_normBinding norm
  -- full attention has no value projection of its own
  have values : vProj.map TensorBinding.name = (match kind with
        | .fullAttention => []
        | .slidingAttention => ["self_attn.v_proj"]).map (layerWeight root layer) ∧
      ∀ binding ∈ vProj, binding.PackedAs gs bits := by
    cases kind with
    | fullAttention =>
      cases vOk
      simp
    | slidingAttention =>
      obtain ⟨v, linear, done⟩ := Outcome.bind_ok_iff.mp vOk
      cases done
      obtain ⟨vName, vPacked⟩ := quantizedLinear_ok rfl linear
      simp [vName, vPacked]
  refine ⟨rfl, rfl, ?_, ?_⟩
  · simp only [List.map_append, List.map_cons, List.map_nil, layerStems, values.1, qName, kName,
      oName, gateName, upName, downName]
    rfl
  · simp only [List.mem_append, or_imp, forall_and, List.forall_mem_cons]
    exact ⟨⟨⟨norm _ _ _ rfl, norm _ _ _ rfl, norm _ _ _ rfl, norm _ _ _ rfl, qPacked, kPacked,
      by simp⟩, values.2⟩, oPacked, gatePacked, upPacked, downPacked, by simp⟩

end Layers

section Compile

variable {arch : TextArchitecture} {nameSpace : NamespaceBinding} {spec : ExecutionSpec}

/-- Without quantization metadata the projections are described as 16-bit. -/
theorem compile_packedAs (ok : compile arch nameSpace none = .ok spec) :
    ∀ binding ∈ spec.bindings, binding.PackedAs 64 16 := by
  obtain ⟨embedding, embeddingOk, rest⟩ := Outcome.bind_ok_iff.mp ok
  obtain ⟨layers, layersOk, done⟩ := Outcome.bind_ok_iff.mp rest
  cases done
  cases embeddingOk
  intro binding member
  rcases List.mem_append.mp member with global | layered
  · have unpacked : binding.role.isProjection = false ∧ binding.packedShape = none := by
      rw [List.mem_append, List.mem_cons, List.mem_singleton] at global
      rcases global with (rfl | rfl) | lmHead
      · exact ⟨rfl, rfl⟩
      · exact ⟨rfl, rfl⟩
      · split at lmHead
        · cases lmHead
        · rw [List.mem_singleton] at lmHead
          subst lmHead
          exact ⟨rfl, rfl⟩
    rw [TensorBinding.PackedAs, unpacked.1]
    exact unpacked.2
  · obtain ⟨layer, inLayers, inLayer⟩ := List.mem_flatMap.mp layered
    obtain ⟨_, -, layerOk⟩ := Outcome.exists_of_mapM_ok layersOk inLayers
    exact (compileLayer_ok layerOk).2.2.2 binding inLayer

theorem mem_bindings_filter {existing : List String} {binding : TensorBinding} :
    binding ∈ (filterSpecToExisting spec existing).bindings ↔
      binding ∈ spec.bindings ∧ binding.name ∈ existing := by
  simp only [ExecutionSpec.bindings, filterSpecToExisting, List.mem_append, List.mem_filter,
    List.mem_flatMap, List.mem_map, List.contains_iff_mem]
  constructor
  · rintro (⟨member, exists_⟩ | ⟨_, ⟨layer, inLayers, rfl⟩, member⟩)
    · exact ⟨.inl member, exists_⟩
    · obtain ⟨inLayer, exists_⟩ := List.mem_filter.mp member
      exact ⟨.inr ⟨layer, inLayers, inLayer⟩, by simpa using exists_⟩
  · rintro ⟨member | ⟨layer, inLayers, inLayer⟩, exists_⟩
    · exact .inl ⟨member, exists_⟩
    · exact .inr ⟨_, ⟨layer, inLayers, rfl⟩, List.mem_filter.mpr ⟨inLayer, by simpa using exists_⟩⟩

end Compile

end TribunusCompute.ComputeImage
