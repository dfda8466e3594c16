import TribunusCompute.ComputeImage.ParseConfig

/-!
# Room in packed rows

The widths of packed rows are quotients that are cut off, so that a row has room exactly where the
divisions come out even.
-/
namespace TribunusCompute.ComputeImage

open Outcome

/-! ## Compilation without overflow checks -/

/-- A product of 32 bits. -/
def wrappingMul (a b : ℕ) : ℕ := a * b % 2 ^ 32

def TextArchitecture.normDim (arch : TextArchitecture) (kind : AttentionKind) : ℕ :=
  if kind = .fullAttention then arch.globalHeadDim.getD arch.headDim else arch.headDim

def TextArchitecture.qOut (arch : TextArchitecture) (kind : AttentionKind) : ℕ :=
  wrappingMul arch.numAttentionHeads (arch.normDim kind)

def TextArchitecture.kvOut (arch : TextArchitecture) (kind : AttentionKind) : ℕ :=
  if kind = .fullAttention then
    wrappingMul (arch.numGlobalKeyValueHeads.getD 1) (arch.globalHeadDim.getD arch.headDim)
  else wrappingMul arch.numKeyValueHeads arch.headDim

/-- A packed projection: its name, its role and its dimensions, outputs first. -/
structure Projection where
  name : String
  role : TensorRole
  outDim : ℕ
  inDim : ℕ
  deriving DecidableEq, Repr

/-- The projections of a layer in the order of `compile`. -/
def TextArchitecture.projections (arch : TextArchitecture) (kind : AttentionKind) :
    List Projection :=
  [⟨"self_attn.q_proj", .qProj, arch.qOut kind, arch.hiddenSize⟩,
    ⟨"self_attn.k_proj", .kProj, arch.kvOut kind, arch.hiddenSize⟩] ++
  (if kind = .fullAttention then []
    else [⟨"self_attn.v_proj", .vProj, arch.kvOut kind, arch.hiddenSize⟩]) ++
  [⟨"self_attn.o_proj", .oProj, arch.hiddenSize, arch.qOut kind⟩,
    ⟨"mlp.gate_proj", .gateProj, arch.intermediateSize, arch.hiddenSize⟩,
    ⟨"mlp.up_proj", .upProj, arch.intermediateSize, arch.hiddenSize⟩,
    ⟨"mlp.down_proj", .downProj, arch.hiddenSize, arch.intermediateSize⟩]

def compileLayerBindings (arch : TextArchitecture) (root : String) (gs bits : ℕ)
    (kind : AttentionKind) (layer : ℕ) : Outcome (List TensorBinding) := do
  let packed ← (arch.projections kind).mapM fun p =>
    quantizedLinear root layer p.name p.role p.outDim p.inDim gs bits
  return [normBinding root layer "input_layernorm" .attentionNorm arch.hiddenSize,
    normBinding root layer "post_attention_layernorm" .ffnNorm arch.hiddenSize,
    normBinding root layer "self_attn.q_norm" .qNorm (arch.normDim kind),
    normBinding root layer "self_attn.k_norm" .kNorm (arch.normDim kind)] ++ packed

/-- The bindings that `compile` emits in a build without overflow checks: what panics is a
division by zero. -/
def compileBindings (arch : TextArchitecture) (nameSpace : NamespaceBinding)
    (q : Option QuantizationMeta) : Outcome (List TensorBinding) := do
  let root := nameSpace.root
  let bits := (q.map (·.bits)).getD 16
  let gs := (q.map (·.groupSize)).getD 64
  let embedding ← embeddingBinding arch root q
  let layers ← arch.layerTypes.zipIdx.mapM fun (kind, i) =>
    compileLayerBindings arch root gs bits kind i
  return [embedding,
      { name := root ++ ".norm.weight", role := .finalNorm, logicalShape := [arch.hiddenSize]
        packedShape := none }] ++
    (if arch.tieWordEmbeddings then []
      else [{
        name := root ++ ".lm_head.weight", role := .lmHead
        logicalShape := [arch.vocabSize, arch.hiddenSize], packedShape := none }]) ++
    layers.flatten

variable {arch : TextArchitecture} {root : String} {gs bits layer : ℕ} {kind : AttentionKind}

/-- Where no product overflows, the bindings of a layer are those of `compile`. -/
theorem compileLayerBindings_of_ok {spec : LayerSpec}
    (ok : compileLayer arch root gs bits kind layer = .ok spec) :
    compileLayerBindings arch root gs bits kind layer = .ok spec.tensors := by
  obtain ⟨kvOut, kvFits, rest⟩ := bind_ok_iff.mp ok
  obtain ⟨qOut, qFits, rest⟩ := bind_ok_iff.mp rest
  obtain ⟨qProj, qOk, rest⟩ := bind_ok_iff.mp rest
  obtain ⟨kProj, kOk, rest⟩ := bind_ok_iff.mp rest
  obtain ⟨vProj, vOk, rest⟩ := bind_ok_iff.mp rest
  obtain ⟨oProj, oOk, rest⟩ := bind_ok_iff.mp rest
  obtain ⟨gateProj, gateOk, rest⟩ := bind_ok_iff.mp rest
  obtain ⟨upProj, upOk, rest⟩ := bind_ok_iff.mp rest
  obtain ⟨downProj, downOk, done⟩ := bind_ok_iff.mp rest
  cases done
  obtain ⟨qSmall, rfl⟩ := fit_ok_iff.mp qFits
  obtain ⟨kvSmall, rfl⟩ := fit_ok_iff.mp kvFits
  cases kind with
  | fullAttention =>
    have qSame : arch.qOut .fullAttention =
        arch.numAttentionHeads * arch.globalHeadDim.getD arch.headDim := Nat.mod_eq_of_lt qSmall
    have kvSame : arch.kvOut .fullAttention = arch.numGlobalKeyValueHeads.getD 1 *
        arch.globalHeadDim.getD arch.headDim := Nat.mod_eq_of_lt kvSmall
    cases vOk
    refine bind_ok_iff.mpr ⟨[qProj, kProj, oProj, gateProj, upProj, downProj], ?_, rfl⟩
    refine mapM_ok_iff.mpr ?_
    rw [TextArchitecture.projections, qSame, kvSame]
    exact .cons qOk (.cons kOk (.cons oOk (.cons gateOk (.cons upOk (.cons downOk .nil)))))
  | slidingAttention =>
    have qSame : arch.qOut .slidingAttention = arch.numAttentionHeads * arch.headDim :=
      Nat.mod_eq_of_lt qSmall
    have kvSame : arch.kvOut .slidingAttention = arch.numKeyValueHeads * arch.headDim :=
      Nat.mod_eq_of_lt kvSmall
    obtain ⟨v, linear, done⟩ := bind_ok_iff.mp vOk
    cases done
    refine bind_ok_iff.mpr ⟨[qProj, kProj, v, oProj, gateProj, upProj, downProj], ?_, rfl⟩
    refine mapM_ok_iff.mpr ?_
    rw [TextArchitecture.projections, qSame, kvSame]
    exact .cons qOk
      (.cons kOk (.cons linear (.cons oOk (.cons gateOk (.cons upOk (.cons downOk .nil))))))

/-- Where no product overflows, the bindings are those of `compile`. -/
theorem compileBindings_of_ok {nameSpace : NamespaceBinding} {q : Option QuantizationMeta}
    {spec : ExecutionSpec} (ok : compile arch nameSpace q = .ok spec) :
    compileBindings arch nameSpace q = .ok spec.bindings := by
  obtain ⟨embedding, embeddingOk, rest⟩ := bind_ok_iff.mp ok
  obtain ⟨layers, layersOk, done⟩ := bind_ok_iff.mp rest
  cases done
  refine bind_ok_iff.mpr ⟨embedding, embeddingOk, ?_⟩
  refine bind_ok_iff.mpr ⟨layers.map LayerSpec.tensors, ?_, ?_⟩
  · refine mapM_ok_iff.mpr (List.forall₂_map_right_iff.mpr ?_)
    exact (mapM_ok_iff.mp layersOk).imp fun _ _ layerOk => compileLayerBindings_of_ok layerOk
  · rw [ExecutionSpec.bindings, List.flatMap_def]
    rfl

/-! ## Room -/

/-- The packed words and the groups of a row cover its logical width. -/
def TensorBinding.HasRoom (binding : TensorBinding) : Prop :=
  ∀ packed, binding.packedShape = some packed →
    binding.logicalShape.getD 1 0 ≤ packed.weight.getD 1 0 * (32 / packed.bits) ∧
      binding.logicalShape.getD 1 0 ≤ packed.groups * packed.groupSize

/-- Words of as many numbers of `bits` bits as they hold, and groups, come out even. -/
def Packs (bits gs inDim : ℕ) : Prop :=
  bits ≠ 0 ∧ bits ≤ 32 ∧ gs ≠ 0 ∧ 32 / bits ∣ inDim ∧ gs ∣ inDim

instance : Decidable (Packs bits gs layer) :=
  inferInstanceAs (Decidable (_ ∧ _ ∧ _ ∧ _ ∧ _))

/-- A quotient that is cut off covers a number exactly where it is even. -/
theorem le_div_mul_iff {n d : ℕ} : n ≤ n / d * d ↔ d ∣ n := by
  constructor
  · intro covers
    exact ⟨n / d, by rw [Nat.mul_comm]; exact Nat.le_antisymm covers (Nat.div_mul_le_self n d)⟩
  · intro even
    exact (Nat.div_mul_cancel even).ge

/-- The divisions of a packed shape succeed and leave room exactly where they come out even. -/
theorem exists_packed_iff {α : Type} {inDim : ℕ} {make : ℕ → ℕ → α} {room : α → Prop}
    (spec : ∀ words groups, room (make words groups) ↔
      inDim ≤ words * (32 / bits) ∧ inDim ≤ groups * gs) :
    (∃ a, (do
        let pack ← quotient 32 bits
        let packedIn ← quotient inDim pack
        let nGroups ← quotient inDim gs
        return make packedIn nGroups) = Except.ok a ∧ room a) ↔ Packs bits gs inDim := by
  unfold quotient Packs
  by_cases zero : bits = 0
  · simp [zero, panics, bind, Except.bind]
  · by_cases wide : 32 / bits = 0
    · have large : ¬bits ≤ 32 := by
        intro small
        have := Nat.div_pos small (Nat.pos_of_ne_zero zero)
        omega
      simp [zero, wide, large, panics, bind, Except.bind]
    · have small : bits ≤ 32 := by
        by_contra large
        exact wide (Nat.div_eq_of_lt (by omega))
      by_cases empty : gs = 0
      · simp [zero, wide, empty, panics, bind, Except.bind]
      · simp [zero, wide, empty, small, bind, Except.bind, pure, Except.pure, spec, le_div_mul_iff]

theorem quantizedLinear_room_iff {projName : String} {role : TensorRole} {outDim inDim : ℕ} :
    (∃ b, quantizedLinear root layer projName role outDim inDim gs bits = .ok b ∧ b.HasRoom) ↔
      Packs bits gs inDim :=
  @exists_packed_iff _ _ _ _ _ TensorBinding.HasRoom fun words groups => by
    simp [TensorBinding.HasRoom]

theorem embeddingBinding_room_iff {q : Option QuantizationMeta} :
    (∃ b, embeddingBinding arch root q = .ok b ∧ b.HasRoom) ↔
      ∀ m, q = some m → Packs m.bits m.groupSize arch.hiddenSize := by
  cases q with
  | none =>
    refine iff_of_true ⟨_, rfl, ?_⟩ (by simp)
    intro packed shape
    simp at shape
  | some m =>
    have packs := @exists_packed_iff m.groupSize m.bits _ arch.hiddenSize
      (fun packedIn nGroups => {
        name := root ++ ".embed_tokens.weight"
        role := .embedding
        logicalShape := [arch.vocabSize, arch.hiddenSize]
        packedShape := some {
          weight := [arch.vocabSize, packedIn]
          scales := [arch.vocabSize, nGroups]
          biases := [arch.vocabSize, nGroups]
          bits := m.bits
          groupSize := m.groupSize
          groups := nGroups } })
      TensorBinding.HasRoom fun words groups => by simp [TensorBinding.HasRoom]
    simp only [Option.some.injEq, forall_eq', ← packs]
    simp only [embeddingBinding, pure_bind]

theorem compileLayerBindings_room_iff :
    (∃ bs, compileLayerBindings arch root gs bits kind layer = .ok bs ∧ ∀ b ∈ bs, b.HasRoom) ↔
      Packs bits gs arch.hiddenSize ∧ Packs bits gs (arch.qOut kind) ∧
        Packs bits gs arch.intermediateSize := by
  have norms : ∀ name role dim, (normBinding root layer name role dim).HasRoom := by
    intro name role dim packed shape
    cases shape
  have packed : (∃ bs, compileLayerBindings arch root gs bits kind layer = .ok bs ∧
      ∀ b ∈ bs, b.HasRoom) ↔
        ∃ bs, ((arch.projections kind).mapM fun p =>
          quantizedLinear root layer p.name p.role p.outDim p.inDim gs bits) = .ok bs ∧
            ∀ b ∈ bs, b.HasRoom := by
    constructor
    · rintro ⟨_, ok, room⟩
      obtain ⟨bs, linear, done⟩ := bind_ok_iff.mp ok
      cases done
      exact ⟨bs, linear, fun b member => room b (List.mem_append_right _ member)⟩
    · rintro ⟨bs, linear, room⟩
      refine ⟨_, bind_ok_iff.mpr ⟨bs, linear, rfl⟩, ?_⟩
      simp only [List.mem_append, or_imp, forall_and, List.forall_mem_cons, norms, true_and]
      exact ⟨by simp, room⟩
  rw [packed, exists_mapM_ok_iff]
  simp only [quantizedLinear_room_iff]
  cases kind with
  | fullAttention =>
    simp [TextArchitecture.projections]
    tauto
  | slidingAttention =>
    simp [TextArchitecture.projections]
    tauto

/-- Only the embedding and the projections of the layers can be packed. -/
theorem compileBindings_room_iff_parts {nameSpace : NamespaceBinding}
    {q : Option QuantizationMeta} (bitsOf : (q.map (·.bits)).getD 16 = bits)
    (gsOf : (q.map (·.groupSize)).getD 64 = gs) :
    (∃ bs, compileBindings arch nameSpace q = .ok bs ∧ ∀ b ∈ bs, b.HasRoom) ↔
      (∃ b, embeddingBinding arch nameSpace.root q = .ok b ∧ b.HasRoom) ∧
        ∃ layers, (arch.layerTypes.zipIdx.mapM fun (kind, i) =>
            compileLayerBindings arch nameSpace.root gs bits kind i) = .ok layers ∧
          ∀ bs ∈ layers, ∀ b ∈ bs, b.HasRoom := by
  subst bitsOf gsOf
  constructor
  · rintro ⟨_, ok, room⟩
    obtain ⟨embedding, embeddingOk, rest⟩ := bind_ok_iff.mp ok
    obtain ⟨layers, layersOk, done⟩ := bind_ok_iff.mp rest
    cases done
    refine ⟨⟨embedding, embeddingOk, room _ (by simp)⟩, layers, layersOk, ?_⟩
    intro bs there b member
    exact room b (List.mem_append_right _ (List.mem_flatten.mpr ⟨bs, there, member⟩))
  · rintro ⟨⟨embedding, embeddingOk, room⟩, layers, layersOk, rooms⟩
    refine ⟨_, bind_ok_iff.mpr ⟨embedding, embeddingOk,
      bind_ok_iff.mpr ⟨layers, layersOk, rfl⟩⟩, ?_⟩
    intro b member
    rcases List.mem_append.mp member with global | layered
    · rw [List.mem_append, List.mem_cons, List.mem_singleton] at global
      -- the final norm and the output head are not packed
      rcases global with (rfl | rfl) | lmHead
      · exact room
      · intro packed shape
        cases shape
      · split at lmHead
        · cases lmHead
        · rw [List.mem_singleton] at lmHead
          subst lmHead
          intro packed shape
          cases shape
    · obtain ⟨bs, there, inLayer⟩ := List.mem_flatten.mp layered
      exact rooms bs there b inLayer

theorem forall_mem_layers {kinds : List AttentionKind} {P : AttentionKind → Prop} :
    (∀ entry ∈ kinds.zipIdx, P entry.1) ↔ ∀ kind ∈ kinds, P kind := by
  constructor
  · intro each kind member
    obtain ⟨i, there⟩ := List.mem_iff_getElem?.mp member
    exact each (kind, i) (List.mem_zipIdx_iff_getElem?.mpr there)
  · intro each entry member
    exact each entry.1 (List.mem_of_getElem? (List.mem_zipIdx_iff_getElem?.mp member))

/-- The bindings have room exactly where the width of the embedding, if it is packed, and those
of every layer come out even. -/
theorem compileBindings_room_iff {nameSpace : NamespaceBinding} {q : Option QuantizationMeta}
    (bitsOf : (q.map (·.bits)).getD 16 = bits) (gsOf : (q.map (·.groupSize)).getD 64 = gs) :
    (∃ bs, compileBindings arch nameSpace q = .ok bs ∧ ∀ b ∈ bs, b.HasRoom) ↔
      (q.isSome → Packs bits gs arch.hiddenSize) ∧
        ∀ kind ∈ arch.layerTypes, Packs bits gs arch.hiddenSize ∧
          Packs bits gs (arch.qOut kind) ∧ Packs bits gs arch.intermediateSize := by
  have rows := @exists_mapM_ok_iff _ _
    (fun entry => compileLayerBindings arch nameSpace.root gs bits entry.1 entry.2)
    arch.layerTypes.zipIdx (fun bs => ∀ b ∈ bs, b.HasRoom)
  simp only [compileLayerBindings_room_iff] at rows
  have layers := @forall_mem_layers arch.layerTypes fun kind =>
    Packs bits gs arch.hiddenSize ∧ Packs bits gs (arch.qOut kind) ∧
      Packs bits gs arch.intermediateSize
  rw [compileBindings_room_iff_parts bitsOf gsOf, embeddingBinding_room_iff]
  refine and_congr ?_ (rows.trans layers)
  cases q with
  | none => simp
  | some m =>
    subst bitsOf gsOf
    simp

/-! ## Accepted configurations -/

def RawTextConfig.normDim (text : RawTextConfig) (kind : AttentionKind) : ℕ :=
  if kind = .fullAttention then text.globalHeadDim.getD text.headDim else text.headDim

/-- The widths that the config gives to packed rows come out even: that of the embedding where
the metadata are there, and those of every layer. -/
def RawConfig.PacksEvenly (raw : RawConfig) (text : RawTextConfig) : Prop :=
  let bits := (raw.quant.map (·.bits)).getD 16
  let gs := (raw.quant.map (·.groupSize)).getD 64
  (raw.quant.isSome → Packs bits gs text.hiddenSize) ∧
    ∀ kind ∈ text.layerKinds, Packs bits gs text.hiddenSize ∧
      Packs bits gs (wrappingMul text.numAttentionHeads (text.normDim kind)) ∧
      Packs bits gs text.intermediateSize

theorem parseConfig_ok {fromStr : String → Except String RawConfig} {sha256 : String → String}
    {configJson : String} {raw : RawConfig} {q : Option QuantizationMeta}
    {manifest : ModelManifest} (read : fromStr configJson = .ok raw)
    (accepted : parseConfig fromStr sha256 (.ok configJson) = .ok (arch, q, manifest)) :
    ∃ text, raw.text = .ok text ∧ q = raw.quant ∧ arch.hiddenSize = text.hiddenSize ∧
      arch.intermediateSize = text.intermediateSize ∧ arch.layerTypes = text.layerKinds ∧
      ∀ kind, arch.qOut kind = wrappingMul text.numAttentionHeads (text.normDim kind) := by
  obtain ⟨_, known, rest⟩ := bind_ok_iff.mp accepted
  obtain rfl := Except.ok.inj (reportIn_ok_iff.mp known)
  obtain ⟨raw', same, rest⟩ := bind_ok_iff.mp rest
  obtain rfl : raw = raw' := by
    rw [reportIn_ok_iff, read] at same
    exact Except.ok.inj same
  obtain ⟨text, textOk, rest⟩ := bind_ok_iff.mp rest
  obtain ⟨_, -, done⟩ := bind_ok_iff.mp rest
  cases done
  exact ⟨text, textOk, rfl, rfl, rfl, rfl, fun kind => rfl⟩

/-- For an accepted config, compilation divides by nothing but positive numbers and its packed rows
have room exactly where the widths come out even. -/
theorem room_iff_packsEvenly (fromStr : String → Except String RawConfig)
    (sha256 : String → String) (configJson : String) (raw : RawConfig) (text : RawTextConfig)
    (arch : TextArchitecture) (q : Option QuantizationMeta) (manifest : ModelManifest)
    (nameSpace : NamespaceBinding) (read : fromStr configJson = .ok raw)
    (normalized : raw.text = .ok text)
    (accepted : parseConfig fromStr sha256 (.ok configJson) = .ok (arch, q, manifest)) :
    (∃ bindings, compileBindings arch nameSpace q = .ok bindings ∧ ∀ b ∈ bindings, b.HasRoom) ↔
      raw.PacksEvenly text := by
  obtain ⟨text', same, rfl, hidden, intermediate, kinds, qOut⟩ := parseConfig_ok read accepted
  obtain rfl := Except.ok.inj (normalized.symm.trans same)
  rw [compileBindings_room_iff rfl rfl, hidden, intermediate, kinds]
  simp only [qOut]
  rfl

/-! ## Configurations of one layer -/

/-- A flat config of one layer with weights of `bits` bits in groups of 64. -/
def quantizedConfig (bits : ℕ) : RawConfig :=
  { numHiddenLayers := some 1
    quantization := some { groupSize := some 64, bits := some bits, mode := none } }

def quantizedJson (bits : String) : String :=
  "\x7b\"num_hidden_layers\":1,\"quantization\":\x7b\"group_size\":64,\"bits\":" ++ bits ++
    "\x7d\x7d"

/-- What reading three such texts gives. -/
def readQuantized (text : String) : Except String RawConfig :=
  if text = quantizedJson "4" then .ok (quantizedConfig 4)
  else if text = quantizedJson "3" then .ok (quantizedConfig 3)
  else if text = quantizedJson "0" then .ok (quantizedConfig 0)
  else .error "another text"

def digestQuantized (text : String) : String :=
  if text = quantizedJson "4" then
    "bbf30cfde8a5533df13074d5a21d530ecb5405752c3a6d564df376bb3c6a271c"
  else if text = quantizedJson "3" then
    "afb757b062606e35b07b95e96da558c17c79646785672ed83a7f64d2eba93061"
  else "71899caf5e5e7b60c89d4c35e5cefe441d46ff4bc22660d0b76a54361fa46f8f"

def modelNamespace : NamespaceBinding :=
  ⟨"model", "matched 4 anchors under 'model'", "model.embed_tokens.weight", true⟩

/-- Four bits: eight numbers to a word. -/
theorem fourBits_room : ∃ arch q manifest,
    parseConfig readQuantized digestQuantized (.ok (quantizedJson "4")) =
      .ok (arch, q, manifest) ∧
    ∃ bindings, compileBindings arch modelNamespace q = .ok bindings ∧
      ∀ b ∈ bindings, b.HasRoom := by
  obtain ⟨arch, q, manifest, accepted⟩ : ∃ arch q manifest,
      parseConfig readQuantized digestQuantized (.ok (quantizedJson "4")) =
        .ok (arch, q, manifest) := ⟨_, _, _, rfl⟩
  refine ⟨arch, q, manifest, accepted, ?_⟩
  refine (room_iff_packsEvenly readQuantized digestQuantized (quantizedJson "4") (quantizedConfig 4)
    _ arch q manifest modelNamespace rfl rfl accepted).mpr ?_
  exact ⟨fun _ => by decide, by decide⟩

/-- Three bits: ten numbers to a word, which do not come out even; and no bits, which nothing is
divided by. -/
theorem threeBits_no_room :
    (∃ arch q manifest spec,
      parseConfig readQuantized digestQuantized (.ok (quantizedJson "3")) =
        .ok (arch, q, manifest) ∧
      compile arch modelNamespace q = .ok spec ∧ ¬∀ b ∈ spec.bindings, b.HasRoom) ∧
    ∃ arch q manifest,
      parseConfig readQuantized digestQuantized (.ok (quantizedJson "0")) =
        .ok (arch, q, manifest) ∧
      compile arch modelNamespace q = panics := by
  constructor
  · refine ⟨_, _, _, _, rfl, rfl, ?_⟩
    intro room
    -- 204 words of ten numbers for the 2048 of a row of the embedding
    have row := (room _ List.mem_cons_self _ rfl).1
    exact absurd row (by decide)
  · exact ⟨_, _, _, rfl, rfl⟩

end TribunusCompute.ComputeImage
