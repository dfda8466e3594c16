import TribunusCompute.ComputeImage.PlanLaw

/-!
# The geometry of a layer, derived twice

`compile` and `build_execution_plan` derive the heads of a layer from the architecture, each with
its own fallbacks. They agree, in a plan that is valid, exactly where the architecture of a model
with full attention gives what the fallbacks differ in.
-/
namespace TribunusCompute.ComputeImage

open Outcome

/-- The layer's projections have the widths that its plan reads them with. -/
def LayerPlan.FitsSpec (plan : LayerPlan) (spec : LayerSpec) : Prop :=
  plan.nHeads * plan.headDim = spec.qOut ∧ plan.nKvHeads * plan.headDim = spec.kvOut

/-- The plan is valid, and each of its layers fits its specification. -/
structure GeometryAgrees (plan : ModelExecutionPlan) (spec : ExecutionSpec) : Prop where
  valid : plan.validate = .ok ()
  fits : List.Forall₂ LayerPlan.FitsSpec plan.layers spec.layers

/-- Without a number of global key and value heads, `compile` takes one of them and the plan as
many as of the others; without a global head size there is no valid plan. -/
def TextArchitecture.GlobalsGiven (arch : TextArchitecture) : Prop :=
  .fullAttention ∈ arch.layerTypes → ∃ dim, arch.globalHeadDim = some dim ∧
    (arch.numGlobalKeyValueHeads ≠ none ∨ arch.numKeyValueHeads = 1 ∨ dim = 0)

section Geometry

variable {arch : TextArchitecture} {nameSpace : NamespaceBinding} {q : Option QuantizationMeta}
  {spec : ExecutionSpec} {ids : HashMap ℕ} {root : String}

/-- The two fallbacks for the key and value heads of a layer with full attention give the same
width. -/
def TextArchitecture.FallbacksAgree (arch : TextArchitecture) : Prop :=
  arch.numGlobalKeyValueHeads.getD arch.numKeyValueHeads * arch.globalHeadDim.getD arch.headDim =
    arch.numGlobalKeyValueHeads.getD 1 * arch.globalHeadDim.getD arch.headDim

instance : Decidable arch.FallbacksAgree := inferInstanceAs (Decidable (_ = _))

theorem compileLayer_widths {gs bits layer : ℕ} {kind : AttentionKind} {layerSpec : LayerSpec}
    (ok : compileLayer arch root gs bits kind layer = .ok layerSpec) :
    layerSpec.qOut = arch.numAttentionHeads *
        (if kind = .fullAttention then arch.globalHeadDim.getD arch.headDim else arch.headDim) ∧
      layerSpec.kvOut = if kind = .fullAttention
        then arch.numGlobalKeyValueHeads.getD 1 * arch.globalHeadDim.getD arch.headDim
        else arch.numKeyValueHeads * arch.headDim := by
  obtain ⟨kvOut, kvFits, rest⟩ := bind_ok_iff.mp ok
  obtain ⟨qOut, qFits, rest⟩ := bind_ok_iff.mp rest
  obtain ⟨qProj, -, rest⟩ := bind_ok_iff.mp rest
  obtain ⟨kProj, -, rest⟩ := bind_ok_iff.mp rest
  obtain ⟨vProj, -, rest⟩ := bind_ok_iff.mp rest
  obtain ⟨oProj, -, rest⟩ := bind_ok_iff.mp rest
  obtain ⟨gateProj, -, rest⟩ := bind_ok_iff.mp rest
  obtain ⟨upProj, -, rest⟩ := bind_ok_iff.mp rest
  obtain ⟨downProj, -, done⟩ := bind_ok_iff.mp rest
  cases done
  obtain ⟨-, rfl⟩ := fit_ok_iff.mp kvFits
  obtain ⟨-, rfl⟩ := fit_ok_iff.mp qFits
  cases kind <;> exact ⟨rfl, rfl⟩

/-- A layer fits its specification unless it falls back to another number of heads. -/
theorem fitsSpec_iff {gs bits : ℕ} {kind : AttentionKind} {i : ℕ} {layerSpec : LayerSpec}
    (ok : compileLayer arch root gs bits kind i = .ok layerSpec) :
    (buildLayerPlan arch root ids kind i).FitsSpec layerSpec ↔
      (kind = .fullAttention → arch.FallbacksAgree) := by
  obtain ⟨qOut, kvOut⟩ := compileLayer_widths ok
  cases kind with
  -- A sliding layer takes its heads from the same fields in both.
  | slidingAttention => exact iff_of_true ⟨qOut.symm, kvOut.symm⟩ (by simp)
  | fullAttention =>
    rw [LayerPlan.FitsSpec, qOut, kvOut]
    constructor
    · intro fits _
      exact fits.2
    · intro agree
      exact ⟨rfl, agree rfl⟩

theorem fits_iff (compiled : compile arch nameSpace q = .ok spec) :
    List.Forall₂ LayerPlan.FitsSpec (buildExecutionPlan arch nameSpace ids).layers spec.layers ↔
      (.fullAttention ∈ arch.layerTypes → arch.FallbacksAgree) := by
  obtain ⟨embedding, -, rest⟩ := bind_ok_iff.mp compiled
  obtain ⟨layers, layersOk, done⟩ := bind_ok_iff.mp rest
  cases done
  have layered : (buildExecutionPlan arch nameSpace ids).layers = arch.layerTypes.zipIdx.map
      fun typed => buildLayerPlan arch nameSpace.root ids typed.1 typed.2 := rfl
  rw [layered, List.forall₂_map_left_iff]
  refine (forall₂_iff_of_mapM_ok layersOk (P := fun typed =>
    typed.1 = .fullAttention → arch.FallbacksAgree) fun ⟨kind, i⟩ _ turn => ?_).trans ?_
  · exact fitsSpec_iff turn
  constructor
  · intro agree full
    obtain ⟨i, there⟩ := List.getElem?_of_mem full
    exact agree (.fullAttention, i) (List.mem_zipIdx_iff_getElem?.mpr there) rfl
  · intro agree typed member full
    have there : arch.layerTypes[typed.2]? = some typed.1 := List.mem_zipIdx_iff_getElem?.mp member
    exact agree (full ▸ List.mem_of_getElem? there)

/-- The number that is fallen back to makes no difference where it is given, where it is the same
and where the heads are empty. -/
theorem fallbacksAgree_iff {dim : ℕ} (given : arch.globalHeadDim = some dim) :
    arch.FallbacksAgree ↔
      arch.numGlobalKeyValueHeads ≠ none ∨ arch.numKeyValueHeads = 1 ∨ dim = 0 := by
  rw [TextArchitecture.FallbacksAgree, given]
  cases arch.numGlobalKeyValueHeads with
  | some heads => simp
  | none =>
    -- The plan falls back to the heads of the other layers, the specification to one.
    rcases Nat.eq_zero_or_pos dim with rfl | positive
    · simp
    · have nonzero : dim ≠ 0 := Nat.ne_of_gt positive
      simp [Nat.mul_eq_right nonzero, nonzero]

/-- Where every tensor of the specification has an id, those that a plan needs have one. -/
theorem validate_built_iff (compiled : compile arch nameSpace q = .ok spec)
    (layered : arch.layerTypes ≠ []) (vocab : arch.vocabSize ≠ 0)
    (emitted : ∀ binding ∈ spec.bindings, HasId ids binding.name) :
    (buildExecutionPlan arch nameSpace ids).validate = .ok () ↔
      (.fullAttention ∈ arch.layerTypes → arch.globalHeadDim ≠ none) := by
  have named : ∀ name ∈ specNames arch nameSpace.root, HasId ids name := by
    intro name member
    rw [← (compile_names compiled).1] at member
    obtain ⟨binding, inSpec, rfl⟩ := List.mem_map.mp member
    exact emitted binding inSpec
  have global : ∀ stem ∈ globalStemsOf arch,
      HasId ids (nameSpace.root ++ "." ++ stem ++ ".weight") :=
    fun stem member => named _ (globalWeight_mem_specNames member)
  rw [validate_ok_iff, sound_buildExecutionPlan_iff]
  constructor
  · rintro ⟨-, -, dim, -⟩
    exact dim
  · intro dim
    refine ⟨layered, fun i kind there stem required => ?_, dim, ?_, ?_, vocab⟩
    · exact named _ (layerWeight_mem_specNames there required)
    · simpa [String.append_assoc] using global "embed_tokens" (by simp [globalStemsOf])
    · simpa [String.append_assoc] using global "norm" (by simp [globalStemsOf])

/-- The two derivations agree exactly where the architecture gives the globals they need. -/
theorem geometryAgrees_iff (compiled : compile arch nameSpace q = .ok spec)
    (layered : arch.layerTypes ≠ []) (vocab : arch.vocabSize ≠ 0)
    (emitted : ∀ binding ∈ spec.bindings, HasId ids binding.name) :
    GeometryAgrees (buildExecutionPlan arch nameSpace ids) spec ↔ arch.GlobalsGiven := by
  have valid := validate_built_iff compiled layered vocab emitted
  have fits : List.Forall₂ LayerPlan.FitsSpec (buildExecutionPlan arch nameSpace ids).layers
      spec.layers ↔ (.fullAttention ∈ arch.layerTypes → arch.FallbacksAgree) := fits_iff compiled
  constructor
  · intro agrees full
    obtain ⟨dim, given⟩ := Option.ne_none_iff_exists'.mp (valid.mp agrees.valid full)
    exact ⟨dim, given, (fallbacksAgree_iff given).mp (fits.mp agrees.fits full)⟩
  · intro globals
    refine ⟨valid.mpr fun full => ?_, fits.mpr fun full => ?_⟩
    · obtain ⟨dim, given, -⟩ := globals full
      simp [given]
    · obtain ⟨dim, given, same⟩ := globals full
      exact (fallbacksAgree_iff given).mpr same

end Geometry

section Small

def twoKinds (globalHeadDim numGlobalKeyValueHeads : Option ℕ) : TextArchitecture :=
  { smallArchitecture [.slidingAttention, .fullAttention] with
    numKeyValueHeads := 2
    globalHeadDim
    numGlobalKeyValueHeads }

def smallSpace : NamespaceBinding := ⟨"model", "", "model.embed_tokens.weight", true⟩

def ones (names : List String) : HashMap ℕ := (names.map fun name => ⟨name, 1⟩).toAList

theorem lookup_ones {names : List String} {name : String} (member : name ∈ names) :
    (ones names).lookup name = some 1 := by
  rw [ones, AList.lookup, List.toAList, List.dlookup_dedupKeys]
  induction names with
  | nil => simp at member
  | cons first rest ih =>
    by_cases here : first = name
    · subst here
      simp
    · rw [List.map_cons, List.dlookup_cons_ne _ _ (Ne.symm here)]
      exact ih ((List.mem_cons.mp member).resolve_left (Ne.symm here))

theorem hasId_ones {arch : TextArchitecture} {spec : ExecutionSpec}
    (compiled : compile arch smallSpace none = .ok spec) :
    ∀ binding ∈ spec.bindings, HasId (ones (specNames arch "model")) binding.name := by
  intro binding member
  have named : binding.name ∈ specNames arch "model" := by
    have names := (compile_names compiled).1
    rw [show smallSpace.root = "model" from rfl] at names
    rw [← names]
    exact List.mem_map_of_mem member
  simp [HasId, lookup_ones named]

/-- The plan that is built for an architecture whose tensors all have an id. -/
def smallPlan (arch : TextArchitecture) : ModelExecutionPlan :=
  buildExecutionPlan arch smallSpace (ones (specNames arch "model"))

theorem globalsGiven_agree : ∃ spec,
    compile (twoKinds (some 4) (some 1)) smallSpace none = .ok spec ∧
      GeometryAgrees (smallPlan (twoKinds (some 4) (some 1))) spec := by
  have made : (compile (twoKinds (some 4) (some 1)) smallSpace none).toOption.isSome = true := by
    decide +kernel
  obtain ⟨spec, compiled⟩ := exists_ok_of_isSome made
  have globals : (twoKinds (some 4) (some 1)).GlobalsGiven := fun _ => ⟨4, rfl, .inl (by decide)⟩
  exact ⟨spec, compiled, (geometryAgrees_iff compiled (by decide) (by decide)
    (hasId_ones compiled)).mpr globals⟩

/-- Without a global head size the plan is not valid; without a number of global heads its keys
are twice as wide as those of the specification. -/
theorem fallbacks_disagree :
    (∃ spec, compile (twoKinds none (some 1)) smallSpace none = .ok spec ∧
      (∀ binding ∈ spec.bindings,
        HasId (ones (specNames (twoKinds none (some 1)) "model")) binding.name) ∧
      ¬GeometryAgrees (smallPlan (twoKinds none (some 1))) spec) ∧
    ∃ spec, compile (twoKinds (some 4) none) smallSpace none = .ok spec ∧
      (∀ binding ∈ spec.bindings,
        HasId (ones (specNames (twoKinds (some 4) none) "model")) binding.name) ∧
      ¬GeometryAgrees (smallPlan (twoKinds (some 4) none)) spec := by
  have made : (compile (twoKinds none (some 1)) smallSpace none).toOption.isSome = true := by
    decide +kernel
  have made' : (compile (twoKinds (some 4) none) smallSpace none).toOption.isSome = true := by
    decide +kernel
  obtain ⟨spec, compiled⟩ := exists_ok_of_isSome made
  obtain ⟨spec', compiled'⟩ := exists_ok_of_isSome made'
  refine ⟨⟨spec, compiled, hasId_ones compiled, fun agrees => ?_⟩,
    spec', compiled', hasId_ones compiled', fun agrees => ?_⟩
  · have dim := (validate_built_iff compiled (by decide) (by decide)
      (hasId_ones compiled)).mp agrees.valid
    exact dim (by decide) rfl
  · have same := (fits_iff compiled').mp agrees.fits (by decide)
    exact absurd same (by decide)

end Small

end TribunusCompute.ComputeImage
