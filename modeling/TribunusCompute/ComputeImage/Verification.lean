import Mathlib.Tactic.DeriveCountable
import Mathlib.Data.Countable.Basic
import Mathlib.Logic.Equiv.List
import TribunusCompute.ComputeImage.Manifest

/-!
# What verification establishes

The hash of a manifest fixes the fields of its fingerprint and no others, and verification
of a copied image never looks at the ranges of its tensors.
-/
namespace TribunusCompute.ComputeImage

open Outcome

namespace CompiledImageReader

variable {reader : CompiledImageReader} {hashing : Hashing} {skip : Bool}

/-- Every segment file can be read and has the recorded hash. -/
def Holds (reader : CompiledImageReader) (hashing : Hashing) (payloads : List (List UInt8)) :
    Prop :=
  List.Forall₂ (fun segment bytes => reader.imageDir.read segment.filename = .ok bytes ∧
    hashing.sha256Bytes bytes = segment.sha256) reader.manifest.segments payloads

theorem Holds.hashed {payloads : List (List UInt8)} (holds : reader.Holds hashing payloads)
    {segment : Segment} (member : segment ∈ reader.manifest.segments) :
    ∃ bytes, reader.imageDir.read segment.filename = .ok bytes ∧
      hashing.sha256Bytes bytes = segment.sha256 := by
  obtain ⟨i, inside, rfl⟩ := List.mem_iff_getElem.mp member
  have there := (List.forall₂_iff_get.mp holds).2 i inside (holds.length_eq ▸ inside)
  exact ⟨_, there⟩

theorem Holds.read {payloads : List (List UInt8)} (holds : reader.Holds hashing payloads)
    {segment : Segment} (member : segment ∈ reader.manifest.segments) :
    ∃ bytes, reader.imageDir.read segment.filename = .ok bytes :=
  (holds.hashed member).imp fun _ there => there.1

theorem readSegmentBytes_ok_iff {filename : String} {bytes : List UInt8} :
    reader.readSegmentBytes filename = .ok bytes ↔
      reader.imageDir.read filename = .ok bytes := by
  unfold readSegmentBytes
  split
  next found same => simp [same]
  next e same => simp [same, report]

theorem readForHash_ok_iff {segment : Segment} {bytes : List UInt8} :
    reader.readForHash segment = .ok bytes ↔
      reader.imageDir.read segment.filename = .ok bytes := by
  unfold readForHash
  split
  next found same => simp [same]
  next e same => simp [same, report]

def hashed (hashing : Hashing) (segments : List Segment) (payloads : List (List UInt8)) :
    List Bool :=
  (segments.zip payloads).map fun (segment, bytes) => hashing.sha256Bytes bytes == segment.sha256

theorem all_hashed_iff {segments : List Segment} {payloads : List (List UInt8)}
    (aligned : segments.length = payloads.length) :
    (hashed hashing segments payloads).all id = true ↔
      List.Forall₂ (fun segment bytes => hashing.sha256Bytes bytes = segment.sha256)
        segments payloads := by
  unfold hashed
  rw [List.all_map, List.all_eq_true, List.forall₂_iff_zip]
  simp only [aligned, true_and, Function.comp, id, beq_iff_eq]
  exact ⟨fun h a b member => h (a, b) member, fun h pair member => h member⟩

theorem count_hashed {segments : List Segment} {payloads : List (List UInt8)}
    (aligned : segments.length = payloads.length)
    (all : (hashed hashing segments payloads).all id = true) :
    (hashed hashing segments payloads).count true = segments.length := by
  have full : (hashed hashing segments payloads).count true =
      (hashed hashing segments payloads).length := by
    apply List.count_eq_length.mpr
    intro b member
    exact (List.all_eq_true.mp all b member).symm
  rw [full, hashed, List.length_map, List.length_zip, ← aligned, Nat.min_self]

/-- Verification succeeds exactly when the manifest has its hash, the receipt matches, every
file has its hash and the storage ABI admits the image; then every segment is counted. -/
theorem verify_ok_iff {v : ManifestVerification} :
    reader.verify hashing skip = .ok v ↔
      (reader.manifest.imageHash = computeManifestHash hashing reader.manifest ∨ skip = true) ∧
      reader.receiptMatchesManifest = true ∧ reader.checkStorageAbi = .ok () ∧
      ∃ payloads, reader.Holds hashing payloads ∧
        v = ⟨true, true, reader.manifest.segments.length, (payloads.map List.length).sum⟩ := by
  unfold verify
  simp only [bind_ok_iff, mapM_ok_iff, readForHash_ok_iff, require_ok_iff, Bool.or_eq_true,
    beq_iff_eq, Bool.and_eq_true, pure_ok_iff, exists_const]
  constructor
  · rintro ⟨payloads, read, hash, receipt, ⟨⟨all, complete⟩, -⟩, u, abi, rfl⟩
    have aligned := read.length_eq
    refine ⟨hash, receipt, abi, payloads, ?_, ?_⟩
    · have same := List.forall₂_iff_zip.mp ((all_hashed_iff aligned).mp all)
      have found := List.forall₂_iff_zip.mp read
      exact List.forall₂_iff_zip.mpr ⟨aligned, fun pair => ⟨found.2 pair, same.2 pair⟩⟩
    · have counted := count_hashed aligned all
      simp only [hashed] at counted all
      simp [hash, all, complete, receipt, counted]
  · rintro ⟨hash, receipt, abi, payloads, holds, rfl⟩
    have aligned := holds.length_eq
    have read := holds.imp fun _ _ h => h.1
    have all := (all_hashed_iff aligned).mpr (holds.imp fun _ _ h => h.2)
    have counted := count_hashed aligned all
    have complete : reader.receipt.completeImageHash = reader.manifest.imageHash := by
      unfold receiptMatchesManifest at receipt
      simp only [Bool.and_eq_true, beq_iff_eq] at receipt
      exact receipt.1.1
    simp only [hashed] at counted all
    refine ⟨payloads, read, hash, receipt, ⟨⟨all, complete⟩, receipt⟩, (), abi, ?_⟩
    simp [hash, all, complete, receipt, counted]

theorem receiptMatchesManifest_build
    (built : reader.receipt = buildCompileReceipt reader.manifest) :
    reader.receiptMatchesManifest = true := by
  unfold receiptMatchesManifest
  rw [built]
  simp only [buildCompileReceipt, List.length_map, beq_self_eq_true, Bool.true_and,
    List.all_eq_true]
  intro pair member
  obtain ⟨i, inside, at_i⟩ := List.mem_iff_getElem.mp member
  rw [List.getElem_zip, List.getElem_map] at at_i
  obtain rfl := at_i
  simp

/-! ## Reading what was verified -/

/-- The entry's range ends within 64 bits, and the first entry of its name lies in the file of
a segment of the manifest. -/
def Addressed (reader : CompiledImageReader) (entry : TensorEntry) : Prop :=
  entry.offset + entry.byteLength < 2 ^ 64 ∧
  ∃ first segment,
    Keyed.find TensorEntry.name reader.manifest.tensorTable entry.name = some first ∧
    Keyed.find Segment.id reader.manifest.segments first.segment = some segment ∧
    ∀ bytes, reader.imageDir.read segment.filename = .ok bytes →
      first.offset + first.byteLength ≤ bytes.length

/-- The entry can be read by name, and slicing it out of any payload does not panic. -/
def Readable (reader : CompiledImageReader) (entry : TensorEntry) : Prop :=
  (∃ tensor, reader.tensorBytes entry.name = .ok tensor) ∧
  ∀ segmentBytes, sliceTensorBytes segmentBytes entry ≠ panics

theorem sliceTensorBytes_panics_iff {segmentBytes : List UInt8} {entry : TensorEntry} :
    sliceTensorBytes segmentBytes entry = panics ↔
      2 ^ 64 ≤ entry.offset + entry.byteLength := by
  simp only [sliceTensorBytes, bind_panics_iff, fit_panics_iff, require_ne_panics,
    pure_ne_panics, and_false, exists_false, or_false]

theorem tensorBytes_ok_iff {name : String} {tensor : List UInt8 × String × List ℕ} :
    reader.tensorBytes name = .ok tensor ↔
      ∃ entry segment payload,
        Keyed.find TensorEntry.name reader.manifest.tensorTable name = some entry ∧
        Keyed.find Segment.id reader.manifest.segments entry.segment = some segment ∧
        reader.imageDir.read segment.filename = .ok payload ∧
        entry.offset + entry.byteLength < 2 ^ 64 ∧
        entry.offset + entry.byteLength ≤ payload.length ∧
        ((payload.drop entry.offset).take entry.byteLength, entry.storageDtype,
          entry.physicalShape) = tensor := by
  unfold tensorBytes
  simp only [bind_ok_iff, orReport_ok_iff, readSegmentBytes_ok_iff, fit_ok_iff, require_ok_iff,
    pure_ok_iff, exists_const]
  constructor
  · rintro ⟨entry, found, segment, located, payload, read, _, ⟨fits, rfl⟩, inside, rfl⟩
    refine ⟨entry, segment, payload, found, located, read, fits, inside, ?_⟩
    rw [Nat.add_sub_cancel_left]
  · rintro ⟨entry, segment, payload, found, located, read, fits, inside, rfl⟩
    refine ⟨entry, found, segment, located, payload, read, _, ⟨fits, rfl⟩, inside, ?_⟩
    rw [Nat.add_sub_cancel_left]

/-- After verification an image is readable throughout exactly when every entry is addressed:
the ranges of a copied image are not among what was verified. -/
theorem readable_iff_addressed {v : ManifestVerification}
    (verified : reader.verify hashing skip = .ok v) :
    (∀ entry ∈ reader.manifest.tensorTable, reader.Readable entry) ↔
      ∀ entry ∈ reader.manifest.tensorTable, reader.Addressed entry := by
  obtain ⟨-, -, -, payloads, holds, -⟩ := verify_ok_iff.mp verified
  constructor
  · intro readable entry member
    obtain ⟨⟨tensor, found⟩, sliced⟩ := readable entry member
    obtain ⟨first, segment, payload, named, located, read, -, inside, -⟩ :=
      tensorBytes_ok_iff.mp found
    refine ⟨?_, first, segment, named, located, fun bytes there => ?_⟩
    · have fits := mt sliceTensorBytes_panics_iff.mpr (sliced [])
      exact Nat.lt_of_not_le fits
    · obtain rfl := Except.ok.inj (read.symm.trans there)
      exact inside
  · intro addressed entry member
    obtain ⟨fits, first, segment, named, located, inside⟩ := addressed entry member
    constructor
    · -- The file of the segment was read by `verify`, so it is there.
      obtain ⟨payload, read⟩ := holds.read (Keyed.mem_of_find located).1
      have firstFits := (addressed first (Keyed.mem_of_find named).1).1
      exact ⟨_, tensorBytes_ok_iff.mpr
        ⟨first, segment, payload, named, located, read, firstFits, inside payload read, rfl⟩⟩
    · intro segmentBytes sliced
      exact absurd (sliceTensorBytes_panics_iff.mp sliced) (Nat.not_le.mpr fits)

/-- A mapped image with distinct segment ids is addressed once its tensors name segments that
exist, since its ranges are checked. A file holds no more bytes than a vector can. -/
theorem addressed_of_mapped {v : ManifestVerification}
    (verified : reader.verify hashing skip = .ok v)
    (mapped : reader.manifest.requiredStorageAbi = storageAbiMappedNoCopyV1)
    (distinct : (reader.manifest.segments.map Segment.id).Nodup)
    (known : ∀ entry ∈ reader.manifest.tensorTable,
      ∃ segment ∈ reader.manifest.segments, segment.id = entry.segment)
    (small : ∀ filename bytes, reader.imageDir.read filename = .ok bytes →
      bytes.length < 2 ^ 63) :
    ∀ entry ∈ reader.manifest.tensorTable, reader.Addressed entry := by
  obtain ⟨-, -, abi, payloads, holds, -⟩ := verify_ok_iff.mp verified
  unfold checkStorageAbi at abi
  rw [if_pos mapped] at abi
  obtain ⟨_, segmentsChecked, tensorsChecked⟩ := bind_ok_iff.mp abi
  have ranges : ∀ entry ∈ reader.manifest.tensorTable, ∃ segment ∈ reader.manifest.segments,
      segment.id = entry.segment ∧ ∃ bytes, reader.imageDir.read segment.filename = .ok bytes ∧
        entry.offset + entry.byteLength ≤ bytes.length ∧ bytes.length < 2 ^ 63 := by
    intro entry member
    obtain ⟨segment, inside, same⟩ := known entry member
    obtain ⟨bytes, read⟩ := holds.read inside
    have ofSegment := forM_ok_iff.mp segmentsChecked segment inside
    have ofTensor := forM_ok_iff.mp tensorsChecked entry member
    have found : reader.segMap entry.segment = some segment :=
      same ▸ Keyed.find_reverse distinct inside
    simp only [checkMappedSegment, read, bind_ok_iff, require_ok_iff, exists_const] at ofSegment
    simp only [checkMappedTensor, found, bind_ok_iff, require_ok_iff, exists_const] at ofTensor
    refine ⟨segment, inside, same, bytes, read, ?_, small _ _ read⟩
    have bound := small _ _ read
    have range := ofTensor.2
    unfold Outcome.saturatingAdd at range
    omega
  -- the lookup may find another entry of the name, which is in range as well
  intro entry member
  obtain ⟨-, -, -, bytes, -, ends, bound⟩ := ranges entry member
  have named : ∃ first, Keyed.find TensorEntry.name reader.manifest.tensorTable entry.name =
      some first := by
    apply Option.isSome_iff_exists.mp
    rw [Keyed.find, List.find?_isSome]
    exact ⟨entry, member, by simp⟩
  obtain ⟨first, named⟩ := named
  obtain ⟨segment, inside, same, payload, read, within, -⟩ :=
    ranges first (Keyed.mem_of_find named).1
  refine ⟨by omega, first, segment, named, same ▸ Keyed.find_of_mem distinct inside, ?_⟩
  intro bytes' there
  obtain rfl := Except.ok.inj (read.symm.trans there)
  exact within

end CompiledImageReader

/-! ### An image whose tensor has no segment -/

def smallArchitecture (layerTypes : List AttentionKind) : TextArchitecture where
  hiddenSize := 2
  intermediateSize := 2
  numAttentionHeads := 1
  numKeyValueHeads := 1
  headDim := 2
  globalHeadDim := none
  numGlobalKeyValueHeads := none
  numHiddenLayers := layerTypes.length
  vocabSize := 4
  slidingWindow := 8
  maxPositionEmbeddings := 16
  rmsNormEps := 0
  tieWordEmbeddings := true
  attentionKEqV := false
  finalLogitSoftcapping := none
  hiddenSizePerLayerInput := 0
  layerTypes
  ropeLocal := ⟨0, "default", none⟩
  ropeGlobal := none
  modelType := "small"
  moeConfig := none

def smallSource : SourceIdentity := ⟨"", [], [], [], "small", 8, 64, "affine"⟩

def smallEntry (segment : String) : TensorEntry where
  id := 0
  name := "model.norm.weight"
  role := "FinalNorm"
  layer := none
  segment
  sourceFilename := "model.safetensors"
  sourceSha256 := ""
  sourceOffset := 0
  offset := 0
  byteLength := 2
  logicalDtype := "F32"
  storageDtype := "U8"
  logicalShape := [2]
  physicalShape := [2]
  mutability := "read_only"
  quantization := none
  tensorAlignmentBytes := 16
  layoutVersion := 1

def smallSegment (hashing : Hashing) : Segment where
  id := "persistent"
  filename := "segment_000.bin"
  byteSize := 2
  sha256 := hashing.sha256Bytes [1, 2]
  tensorIds := [0]
  kind := .persistent
  alignmentBytes := 4096

/-- A sealed image of one segment and one tensor, which says that it lies in `segment`. -/
def smallImage (hashing : Hashing) (segment : String) : CompiledImageReader :=
  let manifest := ({ Manifest.new (smallArchitecture []) smallSource with
    segments := [smallSegment hashing], tensorTable := [smallEntry segment] }).seal hashing
  {
    manifest
    receipt := buildCompileReceipt manifest
    imageDir := ⟨id, fun _ => .ok [1, 2]⟩
  }

theorem smallImage_verifies (hashing : Hashing) (segment : String) :
    (smallImage hashing segment).verify hashing false = .ok ⟨true, true, 1, 2⟩ := by
  refine CompiledImageReader.verify_ok_iff.mpr
    ⟨.inl rfl, ?_, rfl, [[1, 2]], .cons ⟨rfl, rfl⟩ .nil, rfl⟩
  exact CompiledImageReader.receiptMatchesManifest_build rfl

def mappedImage (hashing : Hashing) (page : List UInt8) : CompiledImageReader :=
  let manifest := ({ (smallImage hashing "persistent").manifest with
    segments := [{ smallSegment hashing with byteSize := 4096, sha256 := hashing.sha256Bytes page }]
    requiredStorageAbi := storageAbiMappedNoCopyV1 }).seal hashing
  ⟨manifest, buildCompileReceipt manifest, ⟨id, fun _ => .ok page⟩⟩

/-- No hash makes verified images readable: this one verifies, and its tensor is in no
segment. -/
theorem verified_image_unreadable : ¬∃ hashing, ∀ (reader : CompiledImageReader) skip v,
    reader.verify hashing skip = .ok v →
      ∀ entry ∈ reader.manifest.tensorTable, reader.Readable entry := by
  rintro ⟨hashing, readable⟩
  obtain ⟨⟨tensor, found⟩, -⟩ := readable _ false _ (smallImage_verifies hashing "layer_0")
    (smallEntry "layer_0") List.mem_cons_self
  cases found

/-! ## What the hash fixes -/

structure SameExecution (m₁ m₂ : Manifest) : Prop where
  segments : m₁.segments = m₂.segments
  tensorTable : m₁.tensorTable = m₂.tensorTable
  aliasTable : m₁.aliasTable = m₂.aliasTable
  architecture : m₁.architecture = m₂.architecture
  executionPlan : m₁.executionPlan = m₂.executionPlan
  requiredStorageAbi : m₁.requiredStorageAbi = m₂.requiredStorageAbi
  prepackedLayout : m₁.prepackedLayout = m₂.prepackedLayout

/-- Manifests of one hash agree in all they are executed from exactly when they agree in the
three fields that the fingerprint leaves out. -/
theorem sameExecution_iff (hashing : Hashing) (collisionFree : hashing.sha256Bytes.Injective)
    (faithful : hashing.toVec.Injective) {m₁ m₂ : Manifest} (same : m₁.imageHash = m₂.imageHash)
    (hashed₁ : m₁.imageHash = computeManifestHash hashing m₁)
    (hashed₂ : m₂.imageHash = computeManifestHash hashing m₂) :
    SameExecution m₁ m₂ ↔ m₁.executionPlan = m₂.executionPlan ∧
      m₁.requiredStorageAbi = m₂.requiredStorageAbi ∧
      m₁.prepackedLayout = m₂.prepackedLayout := by
  have digests : computeManifestHash hashing m₁ = computeManifestHash hashing m₂ := by
    rw [← hashed₁, same, hashed₂]
  have covered : m₁.fingerprint = m₂.fingerprint := faithful (collisionFree digests)
  constructor
  · intro agree
    exact ⟨agree.executionPlan, agree.requiredStorageAbi, agree.prepackedLayout⟩
  · rintro ⟨plan, abi, layout⟩
    exact {
      segments := congrArg Fingerprint.segments covered
      tensorTable := congrArg Fingerprint.tensorTable covered
      aliasTable := congrArg Fingerprint.aliasTable covered
      architecture := congrArg Fingerprint.architecture covered
      executionPlan := plan
      requiredStorageAbi := abi
      prepackedLayout := layout }

/-! ### A hash without collisions -/

instance countableChar : Countable Char :=
  Function.Injective.countable (f := Char.toNat) fun a b same => by
    rw [← Char.ofNat_toNat a, same, Char.ofNat_toNat]

instance countableString : Countable String :=
  Function.Injective.countable (f := String.toList) fun _ _ same => String.toList_inj.mp same

instance countableF64 : Countable F64 :=
  Function.Injective.countable (f := UInt64.toNat) fun _ _ same => UInt64.toNat_inj.mp same

deriving instance Countable for ShardHash, SourceIdentity, AttentionKind, RopeSpec, MoEConfig,
  TextArchitecture, SegmentKind, Segment, QuantizationDesc, TensorEntry, AliasEntry,
  ResidencyPlan, Fingerprint

def textOf (bytes : List UInt8) : String := String.ofList (bytes.map Char.ofUInt8)

theorem textOf_injective : textOf.Injective := by
  intro xs ys same
  have texts := String.ofList_injective same
  refine List.map_injective_iff.mpr (fun a b alike => ?_) texts
  have codes : a.toUInt32.toNat = b.toUInt32.toNat := congrArg Char.toNat alike
  rw [UInt8.toNat_toUInt32, UInt8.toNat_toUInt32] at codes
  exact UInt8.toNat_inj.mp codes

theorem exists_toVec : ∃ toVec : Fingerprint → List UInt8, toVec.Injective := by
  obtain ⟨number, distinct⟩ := exists_injective_nat Fingerprint
  refine ⟨fun fingerprint => List.replicate (number fingerprint) 0, fun a b same => ?_⟩
  exact distinct (by simpa using congrArg List.length same)

/-- A digest that keeps the whole text and a serialization that tells fingerprints apart. -/
noncomputable def losslessHashing : Hashing := ⟨textOf, exists_toVec.choose⟩

theorem losslessHashing_toVec : losslessHashing.toVec.Injective := exists_toVec.choose_spec

noncomputable def sealedManifest (plan : ModelExecutionPlan) : Manifest :=
  ({ Manifest.new (smallArchitecture []) smallSource with executionPlan := plan }).seal
    losslessHashing

noncomputable def elsewhere (manifest : Manifest) : Manifest :=
  { manifest with compileHost := "elsewhere" }

theorem sealedManifest_sameExecution :
    SameExecution (sealedManifest .default) (elsewhere (sealedManifest .default)) := by
  have here : (sealedManifest .default).imageHash =
      computeManifestHash losslessHashing (sealedManifest .default) := rfl
  have there : (elsewhere (sealedManifest .default)).imageHash =
      computeManifestHash losslessHashing (elsewhere (sealedManifest .default)) := rfl
  have same : (sealedManifest .default).imageHash =
      (elsewhere (sealedManifest .default)).imageHash := rfl
  exact (sameExecution_iff losslessHashing textOf_injective losslessHashing_toVec
    same here there).mpr ⟨rfl, rfl, rfl⟩

/-- Two manifests of one hash whose plans differ. -/
theorem executionPlan_not_hashed : ¬∀ hashing : Hashing, hashing.sha256Bytes.Injective →
    hashing.toVec.Injective → ∀ m₁ m₂ : Manifest, m₁.imageHash = m₂.imageHash →
      m₁.imageHash = computeManifestHash hashing m₁ →
      m₂.imageHash = computeManifestHash hashing m₂ → SameExecution m₁ m₂ := by
  intro claim
  have agree := claim losslessHashing textOf_injective losslessHashing_toVec
    (sealedManifest .default)
    (sealedManifest { ModelExecutionPlan.default with hiddenSize := 1 }) rfl rfl rfl
  exact absurd (congrArg ModelExecutionPlan.hiddenSize agree.executionPlan) (by decide)

theorem addressed_of_mapped_page : ∃ page,
    ∀ entry ∈ (mappedImage losslessHashing page).manifest.tensorTable,
      (mappedImage losslessHashing page).Addressed entry := by
  obtain ⟨page, size⟩ : ∃ page : List UInt8, page.length = 4096 :=
    ⟨List.replicate 4096 0, List.length_replicate⟩
  have abi : (mappedImage losslessHashing page).checkStorageAbi = .ok () :=
    bind_ok_iff.mpr ⟨(), forM_ok_iff.mpr (List.forall_mem_singleton.mpr
      (bind_ok_iff.mpr ⟨(), require_ok_iff.mpr size, bind_ok_iff.mpr ⟨(),
        require_ok_iff.mpr (show 4096 ≤ 4096 ∧ 4096 &&& 4095 = 0 by decide),
          require_ok_iff.mpr (Nat.mod_self 4096)⟩⟩)), rfl⟩
  have verified : (mappedImage losslessHashing page).verify losslessHashing false = .ok _ :=
    CompiledImageReader.verify_ok_iff.mpr ⟨.inl rfl,
      CompiledImageReader.receiptMatchesManifest_build rfl, abi, [page], .cons ⟨rfl, rfl⟩ .nil, rfl⟩
  refine ⟨page, CompiledImageReader.addressed_of_mapped verified rfl
    (List.nodup_singleton _) ?_ ?_⟩
  · exact List.forall_mem_singleton.mpr ⟨_, List.mem_cons_self, rfl⟩
  · rintro _ _ ⟨⟩
    simp [size]

theorem smallImage_readable :
    (smallImage losslessHashing "persistent").Readable (smallEntry "persistent") := by
  refine (CompiledImageReader.readable_iff_addressed
    (smallImage_verifies losslessHashing "persistent")).mpr (fun entry member => ?_) _
      List.mem_cons_self
  obtain rfl := List.mem_singleton.mp member
  refine ⟨by decide, smallEntry "persistent", smallSegment losslessHashing, rfl, rfl, ?_⟩
  intro bytes read
  obtain rfl := Except.ok.inj read
  decide

end TribunusCompute.ComputeImage
