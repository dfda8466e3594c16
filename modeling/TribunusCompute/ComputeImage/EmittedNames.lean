import TribunusCompute.ComputeImage.Emission
import TribunusCompute.ComputeImage.QuantizedSource
import TribunusCompute.ComputeImage.SpecBindings

/-!
# Emitted names

The tensors of a specification, their companions and the tensors of the encoders are emitted
under distinct names.
-/
namespace TribunusCompute.ComputeImage

open Outcome

/-! ## Names of weights -/

section Names

variable {root s t : String} {i j : ℕ}

theorem layerWeight_inj (same : layerWeight root i s = layerWeight root j t) : i = j ∧ s = t := by
  have texts := congrArg String.toList same
  simp only [layerWeight, String.toList_append, List.append_assoc,
    List.append_cancel_left_eq] at texts
  have stops : ∀ text : List Char, Decimal.Stops (".".toList ++ text) := fun text c head => by
    obtain rfl : '.' = c := by simpa using head
    decide
  obtain ⟨indices, rest⟩ := Decimal.toString_append_inj (stops _) (stops _) texts
  rw [List.append_cancel_left_eq, List.append_cancel_right_eq, String.toList_inj] at rest
  exact ⟨indices, rest⟩

theorem isWeight_layerWeight : IsWeight (layerWeight root i s) := ⟨_, rfl⟩

def globalWeight (root stem : String) : String := root ++ "." ++ stem ++ ".weight"

theorem isWeight_globalWeight : IsWeight (globalWeight root s) := ⟨_, rfl⟩

def globalStems : List String := ["embed_tokens", "norm", "lm_head"]

theorem globalWeight_inj (same : globalWeight root s = globalWeight root t) : s = t := by
  have texts := congrArg String.toList same
  simp only [globalWeight, String.toList_append, List.append_assoc, List.append_cancel_left_eq,
    List.append_cancel_right_eq, String.toList_inj] at texts
  exact texts

theorem globalWeight_ne_layerWeight (global : s ∈ globalStems) :
    globalWeight root s ≠ layerWeight root i t := by
  intro same
  have texts := congrArg String.toList same
  simp only [globalWeight, layerWeight, String.toList_append, List.append_assoc,
    List.append_cancel_left_eq] at texts
  simp only [globalStems, List.mem_cons, List.not_mem_nil, or_false] at global
  rcases global with rfl | rfl | rfl <;> simp at texts

end Names

/-! ## The names of a specification -/

section Spec

variable {arch : TextArchitecture} {nameSpace : NamespaceBinding} {q : Option QuantizationMeta}
  {spec : ExecutionSpec}

def globalStemsOf (arch : TextArchitecture) : List String :=
  ["embed_tokens", "norm"] ++ if arch.tieWordEmbeddings then [] else ["lm_head"]

theorem globalStemsOf_subset (arch : TextArchitecture) : globalStemsOf arch ⊆ globalStems := by
  rw [globalStemsOf]
  cases arch.tieWordEmbeddings <;> decide

def specNames (arch : TextArchitecture) (root : String) : List String :=
  (globalStemsOf arch).map (globalWeight root) ++
    arch.layerTypes.zipIdx.flatMap fun (kind, i) => (layerStems kind).map (layerWeight root i)

theorem compileLayers_ok {root : String} {gs bits : ℕ} {kinds : List (AttentionKind × ℕ)}
    {layers : List LayerSpec}
    (ok : kinds.mapM (fun (kind, i) => compileLayer arch root gs bits kind i) = .ok layers) :
    (layers.flatMap LayerSpec.tensors).map TensorBinding.name =
        kinds.flatMap (fun (kind, i) => (layerStems kind).map (layerWeight root i)) ∧
      layers.map LayerSpec.index = kinds.map Prod.snd := by
  induction mapM_ok_iff.mp ok with
  | nil => exact ⟨rfl, rfl⟩
  | @cons turn layer _ _ first later ih =>
    obtain ⟨kind, i⟩ := turn
    obtain ⟨index, -, names, -⟩ := compileLayer_ok first
    obtain ⟨names', indices⟩ := ih (mapM_ok_iff.mpr later)
    constructor
    · rw [List.flatMap_cons, List.flatMap_cons, List.map_append, names, names']
    · rw [List.map_cons, List.map_cons, index, indices]

theorem embeddingBinding_ok {root : String} {embedding : TensorBinding}
    (ok : embeddingBinding arch root q = .ok embedding) :
    embedding.name = globalWeight root "embed_tokens" := by
  unfold embeddingBinding at ok
  cases q with
  | none =>
    cases ok
    simp [globalWeight, String.append_assoc]
  | some m =>
    obtain ⟨pack, -, rest⟩ := bind_ok_iff.mp ok
    obtain ⟨packedIn, -, rest⟩ := bind_ok_iff.mp rest
    obtain ⟨nGroups, -, done⟩ := bind_ok_iff.mp rest
    cases done
    simp [globalWeight, String.append_assoc]

theorem compile_parts (ok : compile arch nameSpace q = .ok spec) :
    spec.globalTensors.map TensorBinding.name =
        (globalStemsOf arch).map (globalWeight nameSpace.root) ∧
      (spec.layers.flatMap LayerSpec.tensors).map TensorBinding.name =
        arch.layerTypes.zipIdx.flatMap (fun (kind, i) =>
          (layerStems kind).map (layerWeight nameSpace.root i)) ∧
      spec.layers.map LayerSpec.index = List.range arch.layerTypes.length := by
  obtain ⟨embedding, embeddingOk, rest⟩ := bind_ok_iff.mp ok
  obtain ⟨layers, layersOk, done⟩ := bind_ok_iff.mp rest
  cases done
  obtain ⟨names, indices⟩ := compileLayers_ok layersOk
  refine ⟨?_, names, ?_⟩
  · rw [globalStemsOf]
    cases arch.tieWordEmbeddings <;>
      simp [embeddingBinding_ok embeddingOk, globalWeight, String.append_assoc]
  · rw [List.zipIdx_map_snd, ← List.range_eq_range'] at indices
    exact indices

theorem compile_names (ok : compile arch nameSpace q = .ok spec) :
    spec.bindings.map TensorBinding.name = specNames arch nameSpace.root ∧
      spec.layers.map LayerSpec.index = List.range arch.layerTypes.length := by
  obtain ⟨globals, layered, indices⟩ := compile_parts ok
  refine ⟨?_, indices⟩
  rw [ExecutionSpec.bindings, List.map_append, globals, layered, specNames]

theorem nodup_layerStems (kind : AttentionKind) : (layerStems kind).Nodup := by
  cases kind <;> decide

theorem nodup_specNames (arch : TextArchitecture) (root : String) : (specNames arch root).Nodup := by
  rw [specNames, List.nodup_append, List.nodup_flatMap]
  refine ⟨?_, ⟨?_, ?_⟩, ?_⟩
  · refine List.Nodup.map (fun _ _ => globalWeight_inj) ?_
    rw [globalStemsOf]
    cases arch.tieWordEmbeddings <;> decide
  · rintro ⟨kind, i⟩ -
    exact (nodup_layerStems kind).map fun _ _ same => (layerWeight_inj same).2
  · have indices : (arch.layerTypes.zipIdx.map Prod.snd).Nodup := by
      rw [List.zipIdx_map_snd]
      exact List.nodup_range' 1
    refine (List.pairwise_map.mp indices).imp fun {a b} apart name first second => ?_
    obtain ⟨s, -, rfl⟩ := List.mem_map.mp first
    obtain ⟨t, -, same⟩ := List.mem_map.mp second
    exact apart (layerWeight_inj same).1.symm
  · rintro name global _ layered rfl
    obtain ⟨s, member, rfl⟩ := List.mem_map.mp global
    obtain ⟨⟨kind, i⟩, -, inLayer⟩ := List.mem_flatMap.mp layered
    obtain ⟨t, -, same⟩ := List.mem_map.mp inLayer
    exact globalWeight_ne_layerWeight (globalStemsOf_subset arch member) same.symm

theorem isWeight_of_mem_specNames {root name : String} (member : name ∈ specNames arch root) :
    IsWeight name := by
  rcases List.mem_append.mp member with global | layered
  · obtain ⟨s, -, rfl⟩ := List.mem_map.mp global
    exact isWeight_globalWeight
  · obtain ⟨⟨kind, i⟩, -, inLayer⟩ := List.mem_flatMap.mp layered
    obtain ⟨t, -, rfl⟩ := List.mem_map.mp inLayer
    exact isWeight_layerWeight

end Spec

/-! ## Companions -/

section Companions

variable {bindings : List TensorBinding} {binding : TensorBinding} {name other : String}

theorem touches_of_mem_emittedNames (member : name ∈ binding.emittedNames) :
    Touches binding.name name := by
  unfold TensorBinding.emittedNames at member
  unfold Touches
  split at member
  · simp only [List.mem_cons, List.not_mem_nil, or_false] at member
    tauto
  · exact .inl (List.mem_singleton.mp member)

/-- A name is that of a weight or of a companion of only one weight. -/
theorem touches_inj {weightName weightName' : String} (weight : IsWeight weightName)
    (weight' : IsWeight weightName') (touches : Touches weightName name)
    (touches' : Touches weightName' name) : weightName = weightName' := by
  rcases touches with rfl | rfl | rfl <;> rcases touches' with same | same | same
  · exact same
  · exact absurd same weight.ne_scalesName
  · exact absurd same weight.ne_biasesName
  · exact absurd same.symm weight'.ne_scalesName
  · exact weight.scalesName_inj weight' same
  · exact absurd same scalesName_ne_biasesName
  · exact absurd same.symm weight'.ne_biasesName
  · exact absurd same.symm scalesName_ne_biasesName
  · exact weight.biasesName_inj weight' same

theorem nodup_emittedNames (weights : ∀ binding ∈ bindings, IsWeight binding.name)
    (distinct : (bindings.map TensorBinding.name).Nodup) :
    (bindings.flatMap TensorBinding.emittedNames).Nodup := by
  rw [List.nodup_flatMap]
  constructor
  · intro binding member
    have weight := weights binding member
    unfold TensorBinding.emittedNames
    split
    · simp [weight.ne_scalesName.symm, weight.ne_biasesName.symm,
        (scalesName_ne_biasesName : scalesName binding.name ≠ biasesName binding.name)]
    · exact List.nodup_singleton _
  · have apart := List.pairwise_map.mp distinct
    refine apart.imp_of_mem fun {a b} inA inB apart name first second => ?_
    exact apart (touches_inj (weights a inA) (weights b inB) (touches_of_mem_emittedNames first)
      (touches_of_mem_emittedNames second))

theorem head_of_touches {c : Char} (weight : IsWeight name) (head : name.toList.head? = some c)
    (letter : c ≠ '.') (touches : Touches name other) : other.toList.head? = some c := by
  obtain ⟨stem, rfl⟩ := weight
  have stemHead : stem.toList.head? = some c := by
    rw [String.toList_append, List.head?_append] at head
    cases opening : stem.toList.head? with
    | none =>
      rw [opening, Option.none_or] at head
      exact absurd (Option.some.inj head).symm letter
    | some d =>
      rw [opening, Option.some_or] at head
      exact head
  have longer : ∀ suffix : String, (stem ++ suffix).toList.head? = some c := by
    intro suffix
    rw [String.toList_append, List.head?_append, stemHead, Option.some_or]
  rcases touches with rfl | rfl | rfl
  · exact longer _
  · rw [scalesName, stem_weight]
    exact longer _
  · rw [biasesName, stem_weight]
    exact longer _

end Companions

/-! ## Encoders -/

section Encoders

variable {sourceTensors : HashMap SourceTensor} {starts : List String} {name : String}

theorem mem_encoderNames : name ∈ encoderNames sourceTensors starts ↔
    name ∈ sourceTensors ∧ ∃ start ∈ starts, startsWith start name = true := by
  rw [encoderNames, List.mem_insertionSort, List.mem_filter, List.any_eq_true]
  rfl

theorem nodup_encoderNames : (encoderNames sourceTensors starts).Nodup :=
  (List.perm_insertionSort _ _).nodup_iff.mpr (sourceTensors.nodupKeys.filter _)

theorem head_of_startsWith {start : String} {c : Char} (starts : startsWith start name = true)
    (head : start.toList.head? = some c) : name.toList.head? = some c := by
  obtain ⟨rest, same⟩ := List.isPrefixOf_iff_prefix.mp starts
  rw [← same, List.head?_append, head, Option.some_or]

/-- The letters that the names of the text model begin with. -/
def rootLetters : List Char := ['l', 'm']

theorem head_of_mem_specNames {arch : TextArchitecture} {root : String} (rooted : root ∈ candidates)
    (member : name ∈ specNames arch root) : ∃ c ∈ rootLetters, name.toList.head? = some c := by
  have longer : ∀ text : String, ∃ c ∈ rootLetters, (root ++ text).toList.head? = some c := by
    intro text
    simp only [candidates, List.mem_cons, List.not_mem_nil, or_false] at rooted
    rcases rooted with rfl | rfl
    · exact ⟨'l', by decide, by simp⟩
    · exact ⟨'m', by decide, by simp⟩
  rcases List.mem_append.mp member with global | layered
  · obtain ⟨s, -, rfl⟩ := List.mem_map.mp global
    simp only [globalWeight, String.append_assoc]
    exact longer _
  · obtain ⟨⟨kind, i⟩, -, inLayer⟩ := List.mem_flatMap.mp layered
    obtain ⟨t, -, rfl⟩ := List.mem_map.mp inLayer
    simp only [layerWeight, String.append_assoc]
    exact longer _

theorem head_of_mem_vision (member : name ∈ encoderNames sourceTensors ["vision_encoder."]) :
    name.toList.head? = some 'v' := by
  obtain ⟨-, start, there, opens⟩ := mem_encoderNames.mp member
  obtain rfl := List.mem_singleton.mp there
  exact head_of_startsWith opens (by simp)

theorem head_of_mem_audio
    (member : name ∈ encoderNames sourceTensors ["audio_encoder.", "embed_audio."]) :
    name.toList.head? = some 'a' ∨ name.toList.head? = some 'e' := by
  obtain ⟨-, start, there, opens⟩ := mem_encoderNames.mp member
  simp only [List.mem_cons, List.not_mem_nil, or_false] at there
  rcases there with rfl | rfl
  · exact .inl (head_of_startsWith opens (by simp))
  · exact .inr (head_of_startsWith opens (by simp))

theorem not_mem_encoders {arch : TextArchitecture} {root weightName : String}
    {vision audio : List String} (rooted : root ∈ candidates)
    (member : weightName ∈ specNames arch root) (touches : Touches weightName name)
    (sees : vision.Sublist (encoderNames sourceTensors ["vision_encoder."]))
    (hears : audio.Sublist (encoderNames sourceTensors ["audio_encoder.", "embed_audio."])) :
    name ∉ vision ++ audio := by
  obtain ⟨c, letter, head⟩ := head_of_mem_specNames rooted member
  have apart : c ≠ '.' ∧ c ≠ 'v' ∧ c ≠ 'a' ∧ c ≠ 'e' := by
    simp only [rootLetters, List.mem_cons, List.not_mem_nil, or_false] at letter
    rcases letter with rfl | rfl <;> decide
  have head := head_of_touches (isWeight_of_mem_specNames member) head apart.1 touches
  intro encoder
  rcases List.mem_append.mp encoder with seen | heard
  · have head' := head_of_mem_vision (sees.subset seen)
    rw [head] at head'
    exact apart.2.1 (Option.some.inj head')
  · rcases head_of_mem_audio (hears.subset heard) with head' | head'
    · rw [head] at head'
      exact apart.2.2.1 (Option.some.inj head')
    · rw [head] at head'
      exact apart.2.2.2 (Option.some.inj head')

theorem nodup_imageNames {arch : TextArchitecture} {root : String} {bindings : List TensorBinding}
    {vision audio : List String} (rooted : root ∈ candidates)
    (names : (bindings.map TensorBinding.name).Sublist (specNames arch root))
    (sees : vision.Sublist (encoderNames sourceTensors ["vision_encoder."]))
    (hears : audio.Sublist (encoderNames sourceTensors ["audio_encoder.", "embed_audio."])) :
    (bindings.flatMap TensorBinding.emittedNames ++ (vision ++ audio)).Nodup := by
  have inSpec : ∀ binding ∈ bindings, binding.name ∈ specNames arch root := fun binding member =>
    names.subset (List.mem_map_of_mem member)
  rw [List.nodup_append, List.nodup_append]
  refine ⟨nodup_emittedNames (fun binding member => isWeight_of_mem_specNames (inSpec _ member))
    ((nodup_specNames arch root).sublist names),
    ⟨nodup_encoderNames.sublist sees, nodup_encoderNames.sublist hears, ?_⟩, ?_⟩
  · rintro name seen _ heard rfl
    have head := head_of_mem_vision (sees.subset seen)
    rcases head_of_mem_audio (hears.subset heard) with head' | head' <;> simp [head] at head'
  · rintro name emitted _ encoder rfl
    obtain ⟨binding, member, emitted⟩ := List.mem_flatMap.mp emitted
    exact not_mem_encoders rooted (inSpec _ member) (touches_of_mem_emittedNames emitted) sees hears
      encoder

end Encoders

end TribunusCompute.ComputeImage
