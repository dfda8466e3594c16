import TribunusCompute.ComputeImage.Quantize

/-!
# What quantization leaves in the source

The loops of the quantizers as single writes, the shapes of what they store, and the loaded
source after the loop over the weights.
-/
namespace TribunusCompute.ComputeImage

section Packing

variable {R α : Type} {q : Quantizer R α} {values : List R} {inDim gs : ℕ}

def groupStart (inDim gs : ℕ) (group : ℕ × ℕ) : ℕ := group.1 * inDim + group.2 * gs

def groupEnd (inDim gs : ℕ) (group : ℕ × ℕ) : ℕ :=
  min (groupStart inDim gs group + gs) (group.1 * inDim + inDim)

def groupValues (values : List R) (inDim gs : ℕ) (group : ℕ × ℕ) : List R :=
  (values.drop (groupStart inDim gs group)).take
    (groupEnd inDim gs group - groupStart inDim gs group)

def groupWrites (q : Quantizer R α) (values : List R) (inDim gs : ℕ) (group : ℕ × ℕ) :
    List (ℕ × α) :=
  (q.quantize (groupValues values inDim gs group)).1.zipIdx.map fun code =>
    (q.place group.1 group.2 + code.2, code.1)

theorem packGroup_ok {packing packing' : Packing R α} {group : ℕ × ℕ}
    (ok : packGroup q values inDim gs packing group = .ok packing') :
    groupEnd inDim gs group ≤ values.length ∧
      packing' = ⟨Blocks.written packing.packed (groupWrites q values inDim gs group),
        packing.scales ++ [(q.quantize (groupValues values inDim gs group)).2.1],
        packing.biases ++ [(q.quantize (groupValues values inDim gs group)).2.2]⟩ := by
  obtain ⟨row, g⟩ := group
  obtain ⟨groupVals, sliced, rest⟩ := Outcome.bind_ok_iff.mp ok
  have inside : groupEnd inDim gs (row, g) ≤ values.length ∧
      groupValues values inDim gs (row, g) = groupVals := by
    unfold sliceOf at sliced
    split at sliced
    next fits =>
      cases sliced
      exact ⟨fits.2, rfl⟩
    next => cases sliced
  obtain ⟨fits, rfl⟩ := inside
  obtain ⟨packed, stored, done⟩ := Outcome.bind_ok_iff.mp rest
  obtain ⟨rfl, -⟩ := Blocks.foldlM_store_ok (fun code : α × ℕ => q.place row g + code.2) Prod.fst
    stored
  cases done
  exact ⟨fits, rfl⟩

theorem packGroups_ok {packing packing' : Packing R α} {groups : List (ℕ × ℕ)}
    (ok : groups.foldlM (packGroup q values inDim gs) packing = .ok packing') :
    (∀ group ∈ groups, groupEnd inDim gs group ≤ values.length) ∧
      packing' = ⟨Blocks.written packing.packed (groups.flatMap (groupWrites q values inDim gs)),
        packing.scales ++ groups.map fun group =>
          (q.quantize (groupValues values inDim gs group)).2.1,
        packing.biases ++ groups.map fun group =>
          (q.quantize (groupValues values inDim gs group)).2.2⟩ := by
  induction groups generalizing packing with
  | nil =>
    rw [List.foldlM_nil, Outcome.pure_ok_iff] at ok
    subst ok
    simp [Blocks.written]
  | cons group groups ih =>
    rw [List.foldlM_cons, Outcome.bind_ok_iff] at ok
    obtain ⟨middle, first, later⟩ := ok
    obtain ⟨fits, rfl⟩ := packGroup_ok first
    obtain ⟨rest, rfl⟩ := ih later
    refine ⟨List.forall_mem_cons.mpr ⟨fits, rest⟩, ?_⟩
    simp only [List.flatMap_cons, Blocks.written_append, List.map_cons, List.append_assoc,
      List.singleton_append]

end Packing

/-! ## Stored weights -/

def CompileQuantMode.bits : CompileQuantMode → ℕ
  | nf4 _ => 4
  | af8 _ => 8

def CompileQuantMode.packedIn : CompileQuantMode → ℕ → ℕ
  | nf4 _, inDim => (inDim + 7) / 8
  | af8 _, inDim => inDim / 4

def CompileQuantMode.groupsPerRow (qmode : CompileQuantMode) (inDim : ℕ) : ℕ :=
  (inDim + qmode.groupSize - 1) / qmode.groupSize

def CompileQuantMode.shapes (qmode : CompileQuantMode) (outDim inDim : ℕ) :
    PackedLinearShapes where
  weight := [outDim, qmode.packedIn inDim]
  scales := [outDim, qmode.groupsPerRow inDim]
  biases := [outDim, qmode.groupsPerRow inDim]
  bits := qmode.bits
  groupSize := qmode.groupSize
  groups := qmode.groupsPerRow inDim * outDim

section Weights

variable {R : Type} {f32 : F32 R} {qmode : CompileQuantMode} {dtype : String} {raw : List UInt8}
  {outDim inDim groupSize groupsPerRow : ℕ} {values : List R} {q : QuantizedWeight}

/-- The codes, scales and biases of a matrix, by the single writes of its groups. -/
def packed {α : Type} (quantizer : Quantizer R α) (values : List R) (inDim gs : ℕ) (zeros : List α)
    (groups : List (ℕ × ℕ)) : Packing R α where
  packed := Blocks.written zeros (groups.flatMap (groupWrites quantizer values inDim gs))
  scales := groups.map fun group => (quantizer.quantize (groupValues values inDim gs group)).2.1
  biases := groups.map fun group => (quantizer.quantize (groupValues values inDim gs group)).2.2

theorem af8Weight_ok (ok : af8Weight f32 values outDim inDim groupSize groupsPerRow = .ok q) :
    ∃ packing, packing = packed (af8Quantizer f32 inDim groupSize) values inDim groupSize
        (List.replicate (outDim * inDim) 0) (Blocks.cells outDim groupsPerRow) ∧
      (∀ group ∈ Blocks.cells outDim groupsPerRow,
        groupEnd inDim groupSize group ≤ values.length) ∧
      q.data = packing.packed ∧ q.dtype = "U8" ∧
      q.scales = packing.scales.flatMap f32.toLeBytes ∧
      q.biases = packing.biases.flatMap f32.toLeBytes ∧
      q.packedShape = ⟨[outDim, inDim / 4], [outDim, groupsPerRow], [outDim, groupsPerRow], 8,
        groupSize, groupsPerRow * outDim⟩ := by
  obtain ⟨packing, loops, done⟩ := Outcome.bind_ok_iff.mp ok
  obtain ⟨fits, rfl⟩ := packGroups_ok loops
  cases done
  exact ⟨_, rfl, fits, rfl, rfl, rfl, rfl, rfl⟩

theorem nf4Weight_ok (ok : nf4Weight f32 values outDim inDim groupSize groupsPerRow = .ok q) :
    ∃ packing, packing = packed
        (nf4Quantizer f32 outDim inDim ((inDim + 7) / 8) groupSize groupsPerRow) values inDim
        groupSize (List.replicate (outDim * ((inDim + 7) / 8)) 0)
        (Blocks.cells outDim groupsPerRow) ∧
      (∀ group ∈ Blocks.cells outDim groupsPerRow,
        groupEnd inDim groupSize group ≤ values.length) ∧
      q.data = packing.packed.flatMap (LittleEndian.encode 4) ∧ q.dtype = "U32" ∧
      q.scales = packing.scales.flatMap f32.toLeBytes ∧
      q.biases = List.replicate (outDim * groupsPerRow * 4) 0 ∧
      q.packedShape = ⟨[outDim, (inDim + 7) / 8], [outDim, groupsPerRow], [outDim, groupsPerRow],
        4, groupSize, groupsPerRow * outDim⟩ := by
  obtain ⟨packing, loops, done⟩ := Outcome.bind_ok_iff.mp ok
  obtain ⟨fits, rfl⟩ := packGroups_ok loops
  cases done
  exact ⟨_, rfl, fits, rfl, rfl, rfl, rfl, rfl⟩

theorem quantizeMatrix_ok (ok : quantizeMatrix f32 qmode dtype raw outDim inDim = .ok q) :
    qmode.groupSize ≠ 0 ∧
      match qmode with
      | .nf4 groupSize => nf4Weight f32 (f32Vals f32 dtype raw) outDim inDim groupSize
          ((inDim + groupSize - 1) / groupSize) = .ok q
      | .af8 groupSize => af8Weight f32 (f32Vals f32 dtype raw) outDim inDim groupSize
          ((inDim + groupSize - 1) / groupSize) = .ok q := by
  obtain ⟨padded, fits, rest⟩ := Outcome.bind_ok_iff.mp ok
  obtain ⟨-, rfl⟩ := Outcome.fit_ok_iff.mp fits
  obtain ⟨groupsPerRow, divided, rest⟩ := Outcome.bind_ok_iff.mp rest
  obtain ⟨positive, rfl⟩ := Outcome.quotient_ok_iff.mp divided
  obtain ⟨_, -, rest⟩ := Outcome.bind_ok_iff.mp rest
  refine ⟨positive, ?_⟩
  cases qmode with
  | nf4 groupSize => exact rest
  | af8 groupSize => exact rest

theorem quantizeMatrix_packedShape
    (ok : quantizeMatrix f32 qmode dtype raw outDim inDim = .ok q) :
    q.packedShape = qmode.shapes outDim inDim := by
  obtain ⟨-, weight⟩ := quantizeMatrix_ok ok
  cases qmode with
  | nf4 groupSize =>
    obtain ⟨_, -, -, -, -, -, -, shape⟩ := nf4Weight_ok weight
    exact shape
  | af8 groupSize =>
    obtain ⟨_, -, -, -, -, -, -, shape⟩ := af8Weight_ok weight
    exact shape

def CompileQuantMode.storedLength : CompileQuantMode → ℕ → ℕ → ℕ
  | nf4 _, outDim, inDim => outDim * ((inDim + 7) / 8) * 4
  | af8 _, outDim, inDim => outDim * inDim

def CompileQuantMode.storedDtype : CompileQuantMode → String
  | nf4 _ => "U32"
  | af8 _ => "U8"

theorem quantizeMatrix_data (ok : quantizeMatrix f32 qmode dtype raw outDim inDim = .ok q) :
    q.data.length = qmode.storedLength outDim inDim ∧ q.dtype = qmode.storedDtype := by
  obtain ⟨-, weight⟩ := quantizeMatrix_ok ok
  cases qmode with
  | nf4 groupSize =>
    obtain ⟨packing, rfl, -, data, dtype, -⟩ := nf4Weight_ok weight
    refine ⟨?_, dtype⟩
    rw [data, Blocks.length_flatMap (LittleEndian.length_encode 4)]
    simp [packed, CompileQuantMode.storedLength]
  | af8 groupSize =>
    obtain ⟨packing, rfl, -, data, dtype, -⟩ := af8Weight_ok weight
    refine ⟨?_, dtype⟩
    rw [data]
    simp [packed, CompileQuantMode.storedLength]

theorem quantizeMatrix_companions (width : ∀ x, (f32.toLeBytes x).length = 4)
    (ok : quantizeMatrix f32 qmode dtype raw outDim inDim = .ok q) :
    q.scales.length = outDim * qmode.groupsPerRow inDim * 4 ∧
      q.biases.length = outDim * qmode.groupsPerRow inDim * 4 := by
  obtain ⟨-, weight⟩ := quantizeMatrix_ok ok
  cases qmode with
  | nf4 groupSize =>
    obtain ⟨packing, rfl, -, -, -, scales, biases, -⟩ := nf4Weight_ok weight
    constructor
    · rw [scales, Blocks.length_flatMap width]
      simp [packed, CompileQuantMode.groupsPerRow, CompileQuantMode.groupSize]
    · rw [biases, List.length_replicate]
      rfl
  | af8 groupSize =>
    obtain ⟨packing, rfl, -, -, -, scales, biases, -⟩ := af8Weight_ok weight
    constructor
    · rw [scales, Blocks.length_flatMap width]
      simp [packed, CompileQuantMode.groupsPerRow, CompileQuantMode.groupSize]
    · rw [biases, Blocks.length_flatMap width]
      simp [packed, CompileQuantMode.groupsPerRow, CompileQuantMode.groupSize]

end Weights

/-! ## Names -/

def IsWeight (name : String) : Prop := ∃ stem, name = stem ++ ".weight"

theorem isWeight_of_mem {spec : ExecutionSpec} {name : String}
    (member : name ∈ weightBindings spec) : IsWeight name := by
  obtain ⟨-, found⟩ := List.mem_filter.mp member
  obtain ⟨stem, found⟩ := Option.isSome_iff_exists.mp found
  exact ⟨stem, Suffix.strip_eq_some_iff.mp found⟩

@[simp] theorem stem_weight (name : String) : stem (name ++ ".weight") = name := by
  rw [stem, Suffix.strip_eq_some_iff.mpr rfl, Option.getD_some]

section Names

variable {name other : String}

theorem IsWeight.ne_scalesName (weight : IsWeight name) : name ≠ scalesName other := by
  obtain ⟨stem, rfl⟩ := weight
  exact Suffix.append_ne (by decide) (by decide)

theorem IsWeight.ne_biasesName (weight : IsWeight name) : name ≠ biasesName other := by
  obtain ⟨stem, rfl⟩ := weight
  exact Suffix.append_ne (by decide) (by decide)

theorem scalesName_ne_biasesName : scalesName name ≠ biasesName other :=
  Suffix.append_ne (by decide) (by decide)

theorem IsWeight.scalesName_inj (weight : IsWeight name) (weight' : IsWeight other)
    (same : scalesName name = scalesName other) : name = other := by
  obtain ⟨s, rfl⟩ := weight
  obtain ⟨s', rfl⟩ := weight'
  simp only [scalesName, stem_weight, Suffix.append_left_inj] at same
  rw [same]

theorem IsWeight.biasesName_inj (weight : IsWeight name) (weight' : IsWeight other)
    (same : biasesName name = biasesName other) : name = other := by
  obtain ⟨s, rfl⟩ := weight
  obtain ⟨s', rfl⟩ := weight'
  simp only [biasesName, stem_weight, Suffix.append_left_inj] at same
  rw [same]

end Names

/-! ## Storing one weight -/

def SourceTensor.requantized (t : SourceTensor) (q : QuantizedWeight) : SourceTensor :=
  { t with data := q.data, dtype := q.dtype, shape := q.packedShape.weight }

/-- A name that storing a weight writes to. -/
def Touches (weightName name : String) : Prop :=
  name = weightName ∨ name = scalesName weightName ∨ name = biasesName weightName

section Store

variable {loaded : LoadedSource} {name : String} {q : QuantizedWeight} {t : SourceTensor}

theorem lookup_store_weight (weight : IsWeight name)
    (there : loaded.sourceTensors.lookup name = some t) :
    (loaded.store name q).sourceTensors.lookup name = some (t.requantized q) := by
  simp only [LoadedSource.store, there]
  rw [AList.lookup_insert_ne weight.ne_biasesName, AList.lookup_insert_ne weight.ne_scalesName,
    AList.lookup_insert]
  rfl

theorem lookup_store_scales :
    (loaded.store name q).sourceTensors.lookup (scalesName name) =
      some (companion (scalesName name) q.packedShape.scales q.scales) := by
  simp only [LoadedSource.store]
  rw [AList.lookup_insert_ne scalesName_ne_biasesName, AList.lookup_insert]

theorem lookup_store_biases :
    (loaded.store name q).sourceTensors.lookup (biasesName name) =
      some (companion (biasesName name) q.packedShape.biases q.biases) := by
  simp only [LoadedSource.store]
  rw [AList.lookup_insert]

theorem lookup_store_of_not_touches {other : String} (untouched : ¬Touches name other) :
    (loaded.store name q).sourceTensors.lookup other = loaded.sourceTensors.lookup other := by
  unfold Touches at untouched
  push Not at untouched
  obtain ⟨notWeight, notScales, notBiases⟩ := untouched
  simp only [LoadedSource.store]
  rw [AList.lookup_insert_ne notBiases, AList.lookup_insert_ne notScales]
  cases loaded.sourceTensors.lookup name with
  | none => rfl
  | some t => exact AList.lookup_insert_ne notWeight

theorem IsWeight.not_touches {other : String} (weight : IsWeight other) (apart : other ≠ name) :
    ¬Touches name other := by
  rintro (same | same | same)
  · exact apart same
  · exact weight.ne_scalesName same
  · exact weight.ne_biasesName same

theorem bindings_mapBindings (spec : ExecutionSpec) (change : TensorBinding → TensorBinding) :
    (spec.mapBindings change).bindings = spec.bindings.map change := by
  simp only [ExecutionSpec.bindings, ExecutionSpec.mapBindings, List.map_append,
    List.flatMap_map, List.map_flatMap]

end Store

/-! ## Storing many weights -/

def LoadedSource.storeAll (loaded : LoadedSource) (writes : List (String × QuantizedWeight)) :
    LoadedSource :=
  writes.foldl (fun loaded write => loaded.store write.1 write.2) loaded

section StoreAll

variable {loaded : LoadedSource} {writes : List (String × QuantizedWeight)} {name : String}
  {q : QuantizedWeight} {t : SourceTensor}

theorem lookup_storeAll_of_not_touches (untouched : ∀ write ∈ writes, ¬Touches write.1 name) :
    (loaded.storeAll writes).sourceTensors.lookup name = loaded.sourceTensors.lookup name := by
  induction writes generalizing loaded with
  | nil => rfl
  | cons write writes ih =>
    rw [List.forall_mem_cons] at untouched
    have later : ((loaded.store write.1 write.2).storeAll writes).sourceTensors.lookup name =
        (loaded.store write.1 write.2).sourceTensors.lookup name := ih untouched.2
    exact later.trans (lookup_store_of_not_touches untouched.1)

/-- What a weight and its companions are once they are stored. -/
structure Stored (loaded : LoadedSource) (name : String) (t : SourceTensor) (q : QuantizedWeight) :
    Prop where
  weight : loaded.sourceTensors.lookup name = some (t.requantized q)
  scales : loaded.sourceTensors.lookup (scalesName name) =
    some (companion (scalesName name) q.packedShape.scales q.scales)
  biases : loaded.sourceTensors.lookup (biasesName name) =
    some (companion (biasesName name) q.packedShape.biases q.biases)

theorem Stored.storeAll (stored : Stored loaded name t q) (weight : IsWeight name)
    (weights : ∀ write ∈ writes, IsWeight write.1) (fresh : name ∉ writes.map Prod.fst) :
    Stored (loaded.storeAll writes) name t q := by
  have apart : ∀ write ∈ writes, name ≠ write.1 := fun write member same =>
    fresh (same ▸ List.mem_map_of_mem member)
  constructor
  · rw [lookup_storeAll_of_not_touches fun write member =>
      weight.not_touches (apart write member)]
    exact stored.weight
  · rw [lookup_storeAll_of_not_touches]
    · exact stored.scales
    · rintro write member (same | same | same)
      · exact (weights write member).ne_scalesName same.symm
      · exact apart write member (weight.scalesName_inj (weights write member) same)
      · exact scalesName_ne_biasesName same
  · rw [lookup_storeAll_of_not_touches]
    · exact stored.biases
    · rintro write member (same | same | same)
      · exact (weights write member).ne_biasesName same.symm
      · exact scalesName_ne_biasesName same.symm
      · exact apart write member (weight.biasesName_inj (weights write member) same)

theorem stored_of_mem (weights : ∀ write ∈ writes, IsWeight write.1)
    (distinct : (writes.map Prod.fst).Nodup) (member : (name, q) ∈ writes)
    (there : loaded.sourceTensors.lookup name = some t) :
    Stored (loaded.storeAll writes) name t q := by
  induction writes generalizing loaded with
  | nil => cases member
  | cons write writes ih =>
    rw [List.forall_mem_cons] at weights
    rw [List.map_cons, List.nodup_cons] at distinct
    rcases List.mem_cons.mp member with rfl | later
    · have now : Stored (loaded.store name q) name t q :=
        ⟨lookup_store_weight weights.1 there, lookup_store_scales, lookup_store_biases⟩
      exact now.storeAll weights.1 weights.2 distinct.1
    · have apart : name ≠ write.1 := fun same =>
        distinct.1 (same ▸ List.mem_map_of_mem later)
      refine @ih (loaded.store write.1 write.2) weights.2 distinct.2 later ?_
      rw [lookup_store_of_not_touches ((weights.2 _ later).not_touches apart)]
      exact there

def TensorBinding.describeAll (binding : TensorBinding)
    (writes : List (String × QuantizedWeight)) : TensorBinding :=
  writes.foldl (fun binding write => binding.describe write.1 write.2.packedShape) binding

theorem bindings_storeAll :
    (loaded.storeAll writes).spec.bindings =
      loaded.spec.bindings.map (TensorBinding.describeAll · writes) := by
  induction writes generalizing loaded with
  | nil => exact (List.map_id' _).symm
  | cons write writes ih =>
    have step : (loaded.store write.1 write.2).spec.bindings =
        loaded.spec.bindings.map fun binding => binding.describe write.1 write.2.packedShape :=
      bindings_mapBindings _ _
    have later : ((loaded.store write.1 write.2).storeAll writes).spec.bindings =
        (loaded.store write.1 write.2).spec.bindings.map (TensorBinding.describeAll · writes) := ih
    rw [step, List.map_map] at later
    exact later

variable {binding : TensorBinding}

@[simp] theorem describe_name (weightName : String) (packedShape : PackedLinearShapes) :
    (binding.describe weightName packedShape).name = binding.name := by
  unfold TensorBinding.describe
  split <;> rfl

@[simp] theorem describeAll_name : (binding.describeAll writes).name = binding.name := by
  induction writes generalizing binding with
  | nil => rfl
  | cons write writes ih =>
    have later : ((binding.describe write.1 write.2.packedShape).describeAll writes).name =
        (binding.describe write.1 write.2.packedShape).name := ih
    exact later.trans (describe_name _ _)

theorem describeAll_of_packed {packedShape : PackedLinearShapes}
    (described : binding.packedShape = some packedShape) :
    binding.describeAll writes = binding := by
  induction writes with
  | nil => rfl
  | cons write writes ih =>
    have step : binding.describe write.1 write.2.packedShape = binding := by
      simp [TensorBinding.describe, described]
    have unfolded : binding.describeAll (write :: writes) =
        (binding.describe write.1 write.2.packedShape).describeAll writes := rfl
    rw [unfolded, step, ih]

theorem describeAll_of_not_mem (absent : binding.name ∉ writes.map Prod.fst) :
    binding.describeAll writes = binding := by
  induction writes with
  | nil => rfl
  | cons write writes ih =>
    rw [List.map_cons, List.mem_cons, not_or] at absent
    have step : binding.describe write.1 write.2.packedShape = binding := by
      simp [TensorBinding.describe, absent.1]
    have unfolded : binding.describeAll (write :: writes) =
        (binding.describe write.1 write.2.packedShape).describeAll writes := rfl
    rw [unfolded, step, ih absent.2]

theorem describeAll_of_mem (distinct : (writes.map Prod.fst).Nodup)
    (member : (binding.name, q) ∈ writes) (open_ : binding.packedShape = none) :
    (binding.describeAll writes).packedShape = some q.packedShape := by
  induction writes with
  | nil => cases member
  | cons write writes ih =>
    rw [List.map_cons, List.nodup_cons] at distinct
    have unfolded : binding.describeAll (write :: writes) =
        (binding.describe write.1 write.2.packedShape).describeAll writes := rfl
    rw [unfolded]
    rcases List.mem_cons.mp member with rfl | later
    · have step : (binding.describe binding.name q.packedShape).packedShape =
          some q.packedShape := by
        simp [TensorBinding.describe, open_]
      rw [describeAll_of_packed step, step]
    · have apart : binding.name ≠ write.1 := fun same =>
        distinct.1 (same ▸ List.mem_map_of_mem later)
      have step : binding.describe write.1 write.2.packedShape = binding := by
        simp [TensorBinding.describe, apart]
      rw [step]
      exact ih distinct.2 later

end StoreAll

/-! ## The loop over the weights -/

def SourceTensor.IsMatrix (t : SourceTensor) (outDim inDim : ℕ) : Prop :=
  (t.dtype = "F16" ∨ t.dtype = "BF16") ∧ t.shape = [outDim, inDim]

section Run

variable {R : Type} {f32 : F32 R} {qmode : CompileQuantMode} {loaded loaded' : LoadedSource}
  {name : String} {names : List String}

/-- The loop quantizes this weight of the source, with this result. -/
def Quantizes (f32 : F32 R) (qmode : CompileQuantMode) (loaded : LoadedSource) (name : String)
    (q : QuantizedWeight) : Prop :=
  ∃ t outDim inDim, loaded.sourceTensors.lookup name = some t ∧ t.IsMatrix outDim inDim ∧
    quantizeMatrix f32 qmode t.dtype t.data outDim inDim = .ok q

theorem quantizeBinding_ok (ok : quantizeBinding f32 qmode loaded name = .ok loaded') :
    (loaded' = loaded ∧ ∀ t outDim inDim, loaded.sourceTensors.lookup name = some t →
        ¬t.IsMatrix outDim inDim) ∨
      ∃ q, Quantizes f32 qmode loaded name q ∧ loaded' = loaded.store name q := by
  obtain ⟨t, there, rest⟩ := Outcome.bind_ok_iff.mp ok
  rw [Outcome.orReport_ok_iff] at there
  dsimp only at rest
  by_cases half : t.dtype = "F16" ∨ t.dtype = "BF16"
  · rw [if_neg (by tauto)] at rest
    split at rest
    next outDim inDim shape =>
      obtain ⟨q, quantized, done⟩ := Outcome.bind_ok_iff.mp rest
      cases done
      exact .inr ⟨q, ⟨t, outDim, inDim, there, ⟨half, shape⟩, quantized⟩, rfl⟩
    next notMatrix =>
      cases rest
      refine .inl ⟨rfl, fun t' outDim inDim there' matrix => ?_⟩
      rw [there] at there'
      cases there'
      exact notMatrix outDim inDim matrix.2
  · rw [if_pos (by tauto)] at rest
    cases rest
    refine .inl ⟨rfl, fun t' outDim inDim there' matrix => ?_⟩
    rw [there] at there'
    cases there'
    exact half matrix.1

/-- A weight that has been quantized is not a matrix of halves any more. -/
theorem not_isMatrix_requantized {t : SourceTensor} {q : QuantizedWeight} {dtype : String}
    {raw : List UInt8} {outDim inDim : ℕ}
    (quantized : quantizeMatrix f32 qmode dtype raw outDim inDim = .ok q) (rows columns : ℕ) :
    ¬(t.requantized q).IsMatrix rows columns := by
  rintro ⟨half, -⟩
  have stored : (t.requantized q).dtype = qmode.storedDtype := (quantizeMatrix_data quantized).2
  rw [stored] at half
  cases qmode with
  | nf4 groupSize => simp [CompileQuantMode.storedDtype] at half
  | af8 groupSize => simp [CompileQuantMode.storedDtype] at half

/-- The loop stores each matrix of halves among the weights once, quantized from its first
data. -/
theorem quantizeBindings_ok (weights : ∀ name ∈ names, IsWeight name)
    (ok : names.foldlM (quantizeBinding f32 qmode) loaded = .ok loaded') :
    ∃ writes : List (String × QuantizedWeight), loaded' = loaded.storeAll writes ∧
      (writes.map Prod.fst).Nodup ∧
      (∀ write ∈ writes, write.1 ∈ names ∧ Quantizes f32 qmode loaded write.1 write.2) ∧
      ∀ name ∈ names, ∀ t outDim inDim, loaded.sourceTensors.lookup name = some t →
        t.IsMatrix outDim inDim → name ∈ writes.map Prod.fst := by
  induction names generalizing loaded with
  | nil =>
    rw [List.foldlM_nil, Outcome.pure_ok_iff] at ok
    exact ⟨[], ok.symm, List.nodup_nil, by simp, by simp⟩
  | cons name names ih =>
    rw [List.foldlM_cons, Outcome.bind_ok_iff] at ok
    rw [List.forall_mem_cons] at weights
    obtain ⟨middle, first, later⟩ := ok
    obtain ⟨writes, rfl, distinct, sound, complete⟩ := ih weights.2 later
    rcases quantizeBinding_ok first with ⟨rfl, skipped⟩ | ⟨q, quantizes, rfl⟩
    · refine ⟨writes, rfl, distinct, fun write member => ?_, ?_⟩
      · obtain ⟨named, quantizes⟩ := sound write member
        exact ⟨List.mem_cons_of_mem _ named, quantizes⟩
      · rw [List.forall_mem_cons]
        exact ⟨fun t outDim inDim there matrix => absurd matrix (skipped t outDim inDim there),
          complete⟩
    · obtain ⟨t, outDim, inDim, there, matrix, quantized⟩ := quantizes
      have now : (loaded.store name q).sourceTensors.lookup name = some (t.requantized q) :=
        lookup_store_weight weights.1 there
      have same : ∀ other, IsWeight other → other ≠ name →
          (loaded.store name q).sourceTensors.lookup other =
            loaded.sourceTensors.lookup other := fun other weight apart =>
        lookup_store_of_not_touches (weight.not_touches apart)
      -- A stored weight is no matrix of halves any more, so that it is not quantized again.
      have apart : ∀ write ∈ writes, write.1 ≠ name := by
        rintro write member rfl
        obtain ⟨-, t', rows, columns, there', matrix', -⟩ := sound write member
        rw [now] at there'
        cases there'
        exact not_isMatrix_requantized quantized rows columns matrix'
      refine ⟨(name, q) :: writes, rfl, ?_, ?_, ?_⟩
      · rw [List.map_cons, List.nodup_cons]
        refine ⟨fun again => ?_, distinct⟩
        obtain ⟨write, member, same⟩ := List.mem_map.mp again
        exact apart write member same
      · rw [List.forall_mem_cons]
        refine ⟨⟨List.mem_cons_self, t, outDim, inDim, there, matrix, quantized⟩,
          fun write member => ?_⟩
        obtain ⟨named, t', rows, columns, there', matrix', quantized'⟩ := sound write member
        rw [same write.1 (weights.2 _ named) (apart write member)] at there'
        exact ⟨List.mem_cons_of_mem _ named, t', rows, columns, there', matrix', quantized'⟩
      · rw [List.forall_mem_cons]
        refine ⟨fun _ _ _ _ _ => List.mem_cons_self, ?_⟩
        intro other named t' rows columns there' matrix'
        by_cases again : other = name
        · exact again ▸ List.mem_cons_self
        · rw [List.map_cons, List.mem_cons]
          rw [← same other (weights.2 _ named) again] at there'
          exact .inr (complete other named t' rows columns there' matrix')

theorem applyQuantizeToLoaded_ok (ok : applyQuantizeToLoaded f32 loaded qmode = .ok loaded') :
    ∃ writes : List (String × QuantizedWeight), loaded' = loaded.storeAll writes ∧
      (writes.map Prod.fst).Nodup ∧
      (∀ write ∈ writes, IsWeight write.1 ∧ write.1 ∈ weightBindings loaded.spec ∧
        Quantizes f32 qmode loaded write.1 write.2) ∧
      ∀ name ∈ weightBindings loaded.spec, ∀ t outDim inDim,
        loaded.sourceTensors.lookup name = some t → t.IsMatrix outDim inDim →
        name ∈ writes.map Prod.fst := by
  obtain ⟨writes, rfl, distinct, sound, complete⟩ :=
    quantizeBindings_ok (fun name member => isWeight_of_mem member) ok
  exact ⟨writes, rfl, distinct,
    fun write member => ⟨isWeight_of_mem (sound write member).1, sound write member⟩, complete⟩

theorem stored_of_isMatrix {t : SourceTensor} {outDim inDim : ℕ}
    (ok : applyQuantizeToLoaded f32 loaded qmode = .ok loaded')
    (weight : name ∈ weightBindings loaded.spec)
    (source : loaded.sourceTensors.lookup name = some t) (matrix : t.IsMatrix outDim inDim) :
    ∃ q, quantizeMatrix f32 qmode t.dtype t.data outDim inDim = .ok q ∧
      Stored loaded' name t q := by
  obtain ⟨writes, rfl, distinct, sound, complete⟩ := applyQuantizeToLoaded_ok ok
  obtain ⟨⟨_, q⟩, member, rfl⟩ :=
    List.mem_map.mp (complete name weight t outDim inDim source matrix)
  obtain ⟨-, -, t', rows, columns, source', matrix', quantized⟩ := sound _ member
  have stored := stored_of_mem (fun write member => (sound write member).1) distinct member source
  rw [source] at source'
  cases source'
  have shapes := matrix.2.symm.trans matrix'.2
  simp only [List.cons.injEq, and_true] at shapes
  obtain ⟨rfl, rfl⟩ := shapes
  exact ⟨q, quantized, stored⟩

end Run

end TribunusCompute.ComputeImage
