import TribunusCompute.ComputeImage.QuantizedSource
import TribunusCompute.ComputeImage.SpecBindings
import TribunusCompute.ComputeImage.Verification

/-!
# Packed shapes after quantization

When the packing that a specification states is the one its weights were quantized with, and
when the bytes of the rewritten tensors are those of their shapes.
-/
namespace TribunusCompute.ComputeImage

/-! ## What should hold -/

def dtypeSize : String → Option ℕ
  | "BOOL" | "U8" | "I8" => some 1
  | "U16" | "I16" | "F16" | "BF16" => some 2
  | "U32" | "I32" | "F32" => some 4
  | "U64" | "I64" | "F64" => some 8
  | _ => none

/-- As many bytes as the shape has elements, times the bytes of each. -/
def SourceTensor.Sized (t : SourceTensor) : Prop :=
  (dtypeSize t.dtype).map (t.shape.prod * ·) = some t.data.length

instance (t : SourceTensor) : Decidable t.Sized := inferInstanceAs (Decidable (_ = _))

/-- A description states the bits, the group size and the dimensions of the quantized data. -/
def PackedLinearShapes.States (packed : PackedLinearShapes) (qmode : CompileQuantMode)
    (outDim inDim : ℕ) : Prop :=
  packed.bits = qmode.bits ∧ packed.groupSize = qmode.groupSize ∧
    packed.weight = [outDim, qmode.packedIn inDim] ∧
    packed.scales = [outDim, qmode.groupsPerRow inDim] ∧
    packed.biases = [outDim, qmode.groupsPerRow inDim]

/-- After quantization the bindings of the quantized weights state the packing of their data,
and the tensors that were rewritten or added have the bytes of their shapes. -/
structure Agrees (qmode : CompileQuantMode) (loaded loaded' : LoadedSource) : Prop where
  states : ∀ binding ∈ loaded'.spec.bindings, ∀ t outDim inDim,
    binding.name ∈ weightBindings loaded.spec →
    loaded.sourceTensors.lookup binding.name = some t → t.IsMatrix outDim inDim →
    ∃ packed, binding.packedShape = some packed ∧ packed.States qmode outDim inDim
  sized : ∀ name t, loaded'.sourceTensors.lookup name = some t →
    loaded.sourceTensors.lookup name ≠ some t → t.Sized

/-! ## Sizes -/

section Sizes

variable {R : Type} {f32 : F32 R} {qmode : CompileQuantMode} {t : SourceTensor}
  {q : QuantizedWeight} {dtype : String} {raw : List UInt8} {outDim inDim : ℕ}

theorem sized_requantized_iff
    (quantized : quantizeMatrix f32 qmode dtype raw outDim inDim = .ok q) :
    (t.requantized q).Sized ↔ ∀ gs, qmode = .af8 gs → outDim * inDim = 0 := by
  have data := (quantizeMatrix_data quantized).1
  have stored := (quantizeMatrix_data quantized).2
  have shape := quantizeMatrix_packedShape quantized
  simp only [SourceTensor.Sized, SourceTensor.requantized, data, stored, shape,
    CompileQuantMode.shapes, List.prod_cons, List.prod_nil, mul_one]
  cases qmode with
  | nf4 groupSize => simp [CompileQuantMode.storedDtype, dtypeSize, CompileQuantMode.packedIn,
      CompileQuantMode.storedLength]
  | af8 groupSize =>
    -- The shape counts words of four codes, the data type single codes.
    simp only [CompileQuantMode.storedDtype, dtypeSize, CompileQuantMode.packedIn,
      CompileQuantMode.storedLength, Option.map_some, mul_one, Option.some.injEq,
      CompileQuantMode.af8.injEq, forall_eq']
    constructor
    · intro same
      rcases Nat.eq_zero_or_pos outDim with zero | positive
      · rw [zero, Nat.zero_mul]
      · have row : inDim / 4 = inDim := Nat.eq_of_mul_eq_mul_left positive same
        have zero : inDim = 0 := by omega
        rw [zero, Nat.mul_zero]
    · intro empty
      rcases Nat.mul_eq_zero.mp empty with zero | zero
      · simp [zero]
      · simp [zero]

theorem sized_companion {name : String} {data : List UInt8} {shape : List ℕ}
    (length : data.length = shape.prod * 4) : (companion name shape data).Sized := by
  simp [SourceTensor.Sized, companion, dtypeSize, length]

end Sizes

/-! ## The law -/

section Law

variable {R : Type} {f32 : F32 R} {qmode : CompileQuantMode} {loaded loaded' : LoadedSource}
  {name : String}

/-- Only stored weights and their companions differ from the source. -/
theorem sized_of_changed {writes : List (String × QuantizedWeight)} {t : SourceTensor}
    (width : ∀ x, (f32.toLeBytes x).length = 4) (distinct : (writes.map Prod.fst).Nodup)
    (sound : ∀ write ∈ writes, IsWeight write.1 ∧ write.1 ∈ weightBindings loaded.spec ∧
      Quantizes f32 qmode loaded write.1 write.2)
    (empty : ∀ write ∈ writes, ∀ gs, qmode = .af8 gs → ∀ t outDim inDim,
      loaded.sourceTensors.lookup write.1 = some t → t.IsMatrix outDim inDim → outDim * inDim = 0)
    (there : (loaded.storeAll writes).sourceTensors.lookup name = some t)
    (changed : loaded.sourceTensors.lookup name ≠ some t) : t.Sized := by
  have touched : ∃ write ∈ writes, Touches write.1 name := by
    by_contra none
    push Not at none
    rw [lookup_storeAll_of_not_touches none] at there
    exact changed there
  obtain ⟨⟨weight, q⟩, member, touches⟩ := touched
  obtain ⟨-, -, t', outDim, inDim, source, matrix, quantized⟩ := sound _ member
  have stored := stored_of_mem (fun write member => (sound write member).1) distinct member source
  have shape : q.packedShape = qmode.shapes outDim inDim := quantizeMatrix_packedShape quantized
  have companions : q.scales.length = outDim * qmode.groupsPerRow inDim * 4 ∧
      q.biases.length = outDim * qmode.groupsPerRow inDim * 4 :=
    quantizeMatrix_companions width quantized
  rcases touches with rfl | rfl | rfl
  · rw [stored.weight] at there
    cases there
    rw [sized_requantized_iff quantized]
    intro gs mode
    exact empty _ member gs mode t' outDim inDim source matrix
  · rw [stored.scales] at there
    cases there
    apply sized_companion
    simp [shape, CompileQuantMode.shapes, companions]
  · rw [stored.biases] at there
    cases there
    apply sized_companion
    simp [shape, CompileQuantMode.shapes, companions]

/-- A projection keeps the description it came with, of 16 bits. -/
theorem not_agrees_of_isProjection {binding : TensorBinding} {t : SourceTensor}
    {outDim inDim : ℕ} (ok : applyQuantizeToLoaded f32 loaded qmode = .ok loaded')
    (described : binding.PackedAs 64 16) (projection : binding.role.isProjection = true)
    (member : binding ∈ loaded.spec.bindings) (weight : binding.name ∈ weightBindings loaded.spec)
    (source : loaded.sourceTensors.lookup binding.name = some t)
    (matrix : t.IsMatrix outDim inDim) : ¬Agrees qmode loaded loaded' := by
  intro agrees
  obtain ⟨writes, rfl, -⟩ := applyQuantizeToLoaded_ok ok
  rw [TensorBinding.PackedAs, if_pos projection] at described
  obtain ⟨packed, described, bits, -⟩ := described
  have kept : binding ∈ (loaded.storeAll writes).spec.bindings := by
    rw [bindings_storeAll]
    exact List.mem_map.mpr ⟨binding, member, describeAll_of_packed described⟩
  obtain ⟨packed', described', states⟩ :=
    agrees.states binding kept t outDim inDim weight source matrix
  rw [described] at described'
  cases described'
  have stated : qmode.bits = 16 := states.1.symm.trans bits
  cases qmode <;> cases stated

/-- The packing stated for the quantized weights is theirs exactly when none of them is a
projection of a layer, which `compile` described beforehand, and, for 8-bit codes, each is
empty. -/
theorem agrees_iff {arch : TextArchitecture} {nameSpace : NamespaceBinding} {spec : ExecutionSpec}
    (width : ∀ x, (f32.toLeBytes x).length = 4) (compiled : compile arch nameSpace none = .ok spec)
    (filtered : loaded.spec = filterSpecToExisting spec loaded.sourceTensors.keys)
    (ok : applyQuantizeToLoaded f32 loaded qmode = .ok loaded') :
    Agrees qmode loaded loaded' ↔
      ∀ binding ∈ loaded.spec.bindings, ∀ t outDim inDim,
        binding.name ∈ weightBindings loaded.spec →
        loaded.sourceTensors.lookup binding.name = some t → t.IsMatrix outDim inDim →
        binding.role.isProjection = false ∧ ∀ gs, qmode = .af8 gs → outDim * inDim = 0 := by
  obtain ⟨writes, rfl, distinct, sound, complete⟩ := applyQuantizeToLoaded_ok ok
  have packedAs : ∀ binding ∈ loaded.spec.bindings, binding.PackedAs 64 16 := by
    intro binding member
    rw [filtered] at member
    exact compile_packedAs compiled binding (mem_bindings_filter.mp member).1
  constructor
  · intro agrees binding member t outDim inDim weight source matrix
    constructor
    · by_contra projection
      rw [Bool.not_eq_false] at projection
      exact not_agrees_of_isProjection ok (packedAs binding member) projection member weight source
        matrix agrees
    · -- 8-bit codes are stored with a size that only an empty matrix has.
      intro gs mode
      obtain ⟨q, quantized, stored⟩ := stored_of_isMatrix ok weight source matrix
      have rewritten : loaded.sourceTensors.lookup binding.name ≠ some (t.requantized q) := by
        rw [source]
        intro same
        apply not_isMatrix_requantized quantized outDim inDim
        rwa [← Option.some.inj same]
      have sized := agrees.sized binding.name (t.requantized q) stored.weight rewritten
      exact (sized_requantized_iff quantized).mp sized gs mode
  · intro safe
    refine ⟨?_, ?_⟩
    · intro binding' member' t outDim inDim weight source matrix
      rw [bindings_storeAll] at member'
      obtain ⟨binding, member, rfl⟩ := List.mem_map.mp member'
      rw [describeAll_name] at weight source
      -- Without a projection the shape is stated by the quantization, which knows its width.
      have open_ : binding.packedShape = none := by
        have described := packedAs binding member
        rwa [TensorBinding.PackedAs, (safe binding member t outDim inDim weight source matrix).1,
          if_neg (by decide)] at described
      obtain ⟨⟨_, q⟩, written, named⟩ :=
        List.mem_map.mp (complete _ weight t outDim inDim source matrix)
      obtain rfl : _ = binding.name := named
      obtain ⟨-, -, t', rows, columns, source', matrix', quantized⟩ := sound _ written
      have shape : q.packedShape = qmode.shapes rows columns :=
        quantizeMatrix_packedShape quantized
      rw [source] at source'
      cases source'
      have dims := matrix.2.symm.trans matrix'.2
      simp only [List.cons.injEq, and_true] at dims
      obtain ⟨rfl, rfl⟩ := dims
      refine ⟨_, describeAll_of_mem distinct written open_, ?_⟩
      rw [shape]
      exact ⟨rfl, rfl, rfl, rfl, rfl⟩
    · intro name t there changed
      apply sized_of_changed width distinct sound _ there changed
      intro write member gs mode t outDim inDim source matrix
      obtain ⟨-, weight, -⟩ := sound write member
      obtain ⟨binding, bound, named⟩ := List.mem_map.mp (List.mem_filter.mp weight).1
      rw [← named] at weight source
      exact (safe binding bound t outDim inDim weight source matrix).2 gs mode

end Law

/-! ## A source of one layer -/

/-- The least tensors among which a namespace is found, with this projection of the queries. -/
def smallCheckpoint (dtype : String) (projection : List UInt8) : Checkpoint where
  config := (smallArchitecture [.slidingAttention], none,
    ⟨"", "small", none, none, none, none, none⟩)
  shards := [⟨"model.safetensors", "", [
    ⟨"model.embed_tokens.weight", "F16", [4, 2], 0, List.replicate 16 0⟩,
    ⟨"model.norm.weight", "F16", [2], 16, List.replicate 4 0⟩,
    ⟨"model.layers.0.input_layernorm.weight", "F16", [2], 20, List.replicate 4 0⟩,
    ⟨"model.layers.0.self_attn.q_proj.weight", dtype, [2, 2], 24, projection⟩]⟩]
  tokenizerHashes := []
  auxiliaryHashes := []

def smallLoaded (dtype : String) (projection : List UInt8) : Outcome LoadedSource :=
  loadSource (fun _ => .ok ()) true (smallCheckpoint dtype projection)

/-- Where the projection is not of halves, the packing that is stated is right. -/
theorem smallLoaded_agrees : ∃ loaded loaded',
    smallLoaded "F32" (List.replicate 16 0) = .ok loaded ∧
      applyQuantizeToLoaded .machine loaded (.nf4 64) = .ok loaded' ∧
      Agrees (.nf4 64) loaded loaded' := by
  have run : ((smallLoaded "F32" (List.replicate 16 0)).bind fun loaded =>
      applyQuantizeToLoaded .machine loaded (.nf4 64)).toOption.isSome = true := by
    decide +kernel
  have singles : (smallLoaded "F32" (List.replicate 16 0)).toOption.all (fun loaded =>
      loaded.spec.bindings.all fun binding => !binding.role.isProjection ||
        (loaded.sourceTensors.lookup binding.name).all fun t => t.dtype == "F32") = true := by
    decide +kernel
  obtain ⟨loaded', whole⟩ := Outcome.exists_ok_of_isSome run
  obtain ⟨loaded, read, ok⟩ := Outcome.bind_ok_iff.mp whole
  obtain ⟨-, -, -, -, spec, compiled, filtered⟩ := loadSource_ok read
  rw [read] at singles
  refine ⟨loaded, loaded', read, ok, (agrees_iff (fun x => LittleEndian.length_encode 4 _) compiled
    filtered ok).mpr fun binding member t outDim inDim weight source matrix => ⟨?_, ?_⟩⟩
  · have single := List.all_eq_true.mp singles binding member
    rw [source] at single
    by_contra projection
    rw [Bool.not_eq_false] at projection
    have dtype : t.dtype = "F32" := by simpa [projection] using single
    rcases matrix.1 with half | half
    · rw [dtype] at half
      exact absurd half (by decide)
    · rw [dtype] at half
      exact absurd half (by decide)
  · intro gs mode
    cases mode

/-- Where it is of halves, its codes have four bits and its description says 16. -/
theorem projection_not_described : ∃ loaded loaded',
    smallLoaded "BF16" (List.replicate 8 0) = .ok loaded ∧
      applyQuantizeToLoaded .machine loaded (.nf4 64) = .ok loaded' ∧
      ¬Agrees (.nf4 64) loaded loaded' := by
  have run : ((smallLoaded "BF16" (List.replicate 8 0)).bind fun loaded =>
      applyQuantizeToLoaded .machine loaded (.nf4 64)).toOption.isSome = true := by
    decide +kernel
  have projections : (smallLoaded "BF16" (List.replicate 8 0)).toOption.all (fun loaded =>
      loaded.spec.bindings.any fun binding => binding.role.isProjection &&
        (weightBindings loaded.spec).contains binding.name &&
        (loaded.sourceTensors.lookup binding.name).any fun t =>
          t.dtype == "BF16" && t.shape == [2, 2]) = true := by
    decide +kernel
  obtain ⟨loaded', whole⟩ := Outcome.exists_ok_of_isSome run
  obtain ⟨loaded, read, ok⟩ := Outcome.bind_ok_iff.mp whole
  obtain ⟨-, -, -, -, spec, compiled, filtered⟩ := loadSource_ok read
  rw [read] at projections
  obtain ⟨binding, member, found⟩ := List.any_eq_true.mp projections
  simp only [Bool.and_eq_true, List.contains_iff_mem, Option.any_eq_true, beq_iff_eq] at found
  obtain ⟨⟨projection, weight⟩, t, source, dtype, shape⟩ := found
  have packedAs : binding.PackedAs 64 16 := by
    rw [filtered] at member
    exact compile_packedAs compiled binding (mem_bindings_filter.mp member).1
  exact ⟨loaded, loaded', read, ok,
    not_agrees_of_isProjection ok packedAs projection member weight source ⟨.inr dtype, shape⟩⟩

end TribunusCompute.ComputeImage
