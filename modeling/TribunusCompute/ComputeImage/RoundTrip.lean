import TribunusCompute.ComputeImage.Layout

/-!
# What is finalized is verified and read back

The image of a layout verifies against the receipt built from it; each tensor is read back
by its name, and the tensors of a segment tile its payload.
-/
namespace TribunusCompute.ComputeImage

open Outcome

/-! ## Files -/

theorem segmentFilename_injective : segmentFilename.Injective := by
  intro m n same
  have texts := congrArg String.toList same
  simp only [segmentFilename, String.toList_append, String.toList_ofList,
    List.append_cancel_right_eq, List.append_cancel_left_eq] at texts
  exact Decimal.padded_injective 3 texts

theorem ids_segmentsFrom {hashing : Hashing} {index id : ℕ} {blocks : List Block} :
    (segmentsFrom hashing index id blocks).map Segment.id = blocks.map Block.id := by
  induction blocks generalizing index id with
  | nil => rfl
  | cons block blocks ih => simp [segmentsFrom, Block.segment, ih]

theorem filenames_segmentsFrom {hashing : Hashing} {index id : ℕ} {blocks : List Block} :
    (segmentsFrom hashing index id blocks).map Segment.filename =
      (List.range' index blocks.length).map segmentFilename := by
  induction blocks generalizing index id with
  | nil => rfl
  | cons block blocks ih => simp [segmentsFrom, Block.segment, ih, List.range'_succ]

theorem describes_segmentsFrom {hashing : Hashing} {index id : ℕ} {blocks : List Block} :
    List.Forall₂ (fun (segment : Segment) payload => segment.byteSize = payload.length ∧
        segment.sha256 = hashing.sha256Bytes payload)
      (segmentsFrom hashing index id blocks) (blocks.map Block.payload) := by
  induction blocks generalizing index id with
  | nil => exact .nil
  | cons block blocks ih => exact .cons ⟨rfl, rfl⟩ ih

theorem mem_zip_segmentsFrom {hashing : Hashing} {index id : ℕ} {before after : List Block}
    {block : Block} :
    (block.segment hashing (index + before.length) (id + countTensors before), block.payload) ∈
      (segmentsFrom hashing index id (before ++ block :: after)).zip
        ((before ++ block :: after).map Block.payload) := by
  rw [segmentsFrom_append, segmentsFrom, List.map_append, List.map_cons,
    List.zip_append (by simp), List.zip_cons_cons]
  exact List.mem_append_right _ List.mem_cons_self

theorem exists_of_mem_segmentsFrom {hashing : Hashing} {index id : ℕ} {blocks : List Block}
    {segment : Segment} (member : segment ∈ segmentsFrom hashing index id blocks) :
    ∃ before block after, blocks = before ++ block :: after ∧
      segment = block.segment hashing (index + before.length) (id + countTensors before) := by
  induction blocks generalizing index id with
  | nil => cases member
  | cons block blocks ih =>
    rcases List.mem_cons.mp member with rfl | later
    · exact ⟨[], block, blocks, rfl, rfl⟩
    · obtain ⟨before, block', after, rfl, rfl⟩ := ih later
      refine ⟨block :: before, block', after, rfl, ?_⟩
      simp [countTensors, Nat.add_assoc, Nat.add_comm 1]

section
variable {written : List (String × List UInt8)} {filename : String} {payload : List UInt8}

theorem writeFiles_of_not_mem (files : String → Option (List UInt8))
    (absent : filename ∉ written.map Prod.fst) :
    ImageBuilder.writeFiles files written filename = files filename := by
  induction written generalizing files with
  | nil => rfl
  | cons first written ih =>
    rw [List.map_cons, List.mem_cons, not_or] at absent
    have rest := ih (Function.update files first.1 first.2) absent.2
    rw [Function.update_of_ne absent.1] at rest
    exact rest

/-- A file written once holds what was written to it. -/
theorem writeFiles_of_mem (files : String → Option (List UInt8))
    (distinct : (written.map Prod.fst).Nodup) (member : (filename, payload) ∈ written) :
    ImageBuilder.writeFiles files written filename = some payload := by
  induction written generalizing files with
  | nil => cases member
  | cons first written ih =>
    rw [List.map_cons, List.nodup_cons] at distinct
    rcases List.mem_cons.mp member with rfl | later
    · have rest := writeFiles_of_not_mem (Function.update files filename (some payload)) distinct.1
      rw [Function.update_self] at rest
      exact rest
    · exact ih (Function.update files first.1 first.2) distinct.2 later

end

/-! ## Tensors in their blocks -/

theorem mem_entriesFrom {segment : String} {id offset : ℕ} {before after : List TensorSpec}
    {t : TensorSpec} : t.entry segment (id + before.length) (offset + (payloadOf before).length) ∈
      entriesFrom segment id offset (before ++ t :: after) := by
  rw [entriesFrom_append, entriesFrom]
  exact List.mem_append_right _ List.mem_cons_self

theorem mem_tableFrom {id : ℕ} {before after : List Block} {block : Block} {entry : TensorEntry}
    (member : entry ∈ entriesFrom block.id (id + countTensors before) 0 block.tensors) :
    entry ∈ tableFrom id (before ++ block :: after) := by
  rw [tableFrom_append, tableFrom]
  exact List.mem_append_right _ (List.mem_append_left _ member)

theorem names_entriesFrom {segment : String} {id offset : ℕ} {ts : List TensorSpec} :
    (entriesFrom segment id offset ts).map TensorEntry.name = ts.map TensorSpec.name := by
  induction ts generalizing id offset with
  | nil => rfl
  | cons t ts ih => simp [entriesFrom, TensorSpec.entry, ih]

theorem names_tableFrom {id : ℕ} {blocks : List Block} :
    (tableFrom id blocks).map TensorEntry.name =
      (blocks.flatMap Block.tensors).map TensorSpec.name := by
  induction blocks generalizing id with
  | nil => rfl
  | cons block blocks ih => simp [tableFrom, names_entriesFrom, ih]

theorem segment_of_mem_entriesFrom {segment : String} {id offset : ℕ} {ts : List TensorSpec}
    {entry : TensorEntry} (member : entry ∈ entriesFrom segment id offset ts) :
    entry.segment = segment := by
  induction ts generalizing id offset with
  | nil => cases member
  | cons t ts ih =>
    rcases List.mem_cons.mp member with rfl | later
    · rfl
    · exact ih later

theorem segment_of_mem_tableFrom {id : ℕ} {blocks : List Block} {entry : TensorEntry}
    (member : entry ∈ tableFrom id blocks) : entry.segment ∈ blocks.map Block.id := by
  induction blocks generalizing id with
  | nil => cases member
  | cons block blocks ih =>
    rw [List.map_cons]
    rcases List.mem_append.mp member with here | later
    · rw [segment_of_mem_entriesFrom here]
      exact List.mem_cons_self
    · exact List.mem_cons_of_mem _ (ih later)

def TensorEntry.range (entry : TensorEntry) : ℕ × ℕ := (entry.offset, entry.byteLength)

theorem tiles_entriesFrom (segment : String) (id offset : ℕ) (ts : List TensorSpec) :
    Tiling.Tiles offset ((entriesFrom segment id offset ts).map TensorEntry.range)
      (offset + (payloadOf ts).length) := by
  induction ts generalizing id offset with
  | nil => rfl
  | cons t ts ih =>
    refine ⟨rfl, ?_⟩
    have rest := ih (id + 1) (offset + t.data.length)
    rw [Nat.add_assoc, ← List.length_append] at rest
    exact rest

theorem ids_entriesFrom {segment : String} {id offset : ℕ} {ts : List TensorSpec} :
    (entriesFrom segment id offset ts).map TensorEntry.id = List.range' id ts.length := by
  induction ts generalizing id offset with
  | nil => rfl
  | cons t ts ih => simp [entriesFrom, TensorSpec.entry, ih, List.range'_succ]

theorem filter_tableFrom {id : ℕ} {before after : List Block} {block : Block}
    (distinct : ((before ++ block :: after).map Block.id).Nodup) :
    (tableFrom id (before ++ block :: after)).filter (fun entry => entry.segment = block.id) =
      entriesFrom block.id (id + countTensors before) 0 block.tensors := by
  rw [List.map_append, List.map_cons, List.nodup_append] at distinct
  obtain ⟨-, nodupAfter, apart⟩ := distinct
  rw [List.nodup_cons] at nodupAfter
  rw [tableFrom_append, tableFrom, List.filter_append, List.filter_append]
  have first : (tableFrom id before).filter (fun entry => entry.segment = block.id) = [] := by
    rw [List.filter_eq_nil_iff]
    intro entry member same
    have there := segment_of_mem_tableFrom member
    exact apart _ there _ List.mem_cons_self (by simpa using same)
  have last : (tableFrom (id + countTensors before + block.tensors.length) after).filter
      (fun entry => entry.segment = block.id) = [] := by
    rw [List.filter_eq_nil_iff]
    intro entry member same
    have there := segment_of_mem_tableFrom member
    have here : entry.segment = block.id := by simpa using same
    exact nodupAfter.1 (here ▸ there)
  have all : (entriesFrom block.id (id + countTensors before) 0 block.tensors).filter
      (fun entry => entry.segment = block.id) =
        entriesFrom block.id (id + countTensors before) 0 block.tensors := by
    rw [List.filter_eq_self]
    intro entry member
    simpa using segment_of_mem_entriesFrom member
  rw [first, all, last, List.nil_append, List.append_nil]

/-! ## The image of a layout -/

/-- Where and when an image is finalized: the files that are there before, and how the
directory's paths are shown. -/
structure Site where
  date : String
  host : String
  files : String → Option (List UInt8)
  display : String → String

/-- The reader of a finalized image: the receipt built from its manifest, and its files as
they were written. -/
def ImageBuilder.reader (hashing : Hashing) (site : Site) (b : ImageBuilder) :
    CompiledImageReader :=
  let (manifest, files) := b.finalize hashing site.date site.host site.files
  ⟨manifest, buildCompileReceipt manifest, .ofFiles site.display files⟩

namespace Layout

variable (hashing : Hashing) (site : Site) (l : Layout)

def segments : List Segment := segmentsFrom hashing 0 l.start l.blocks

def table : List TensorEntry := tableFrom l.start l.blocks

def manifest : Manifest :=
  Manifest.seal hashing { l.base with
    segments := l.segments hashing
    tensorTable := l.table
    aliasTable := l.aliases
    compileDate := site.date
    compileHost := site.host
    residencyPlan := { (l.segments hashing).foldl ImageBuilder.recordResidency
        l.base.residencyPlan with
      totalBytes := ((l.segments hashing).map Segment.byteSize).sum } }

def written : List (String × List UInt8) :=
  ((l.segments hashing).zip (l.blocks.map Block.payload)).map fun (seg, payload) =>
    (seg.filename, payload)

def reader : CompiledImageReader where
  manifest := l.manifest hashing site
  receipt := buildCompileReceipt (l.manifest hashing site)
  imageDir := .ofFiles site.display (ImageBuilder.writeFiles site.files (l.written hashing))

/-- Finalizing what the builder holds is finalizing the layout. -/
theorem reader_render : (l.render hashing).reader hashing site = l.reader hashing site := by
  unfold ImageBuilder.reader ImageBuilder.finalize
  rw [flushSegment_render]
  simp only [render, blocks_close]
  rfl

theorem distinct_written : ((l.written hashing).map Prod.fst).Nodup := by
  have lengths : (l.segments hashing).length = (l.blocks.map Block.payload).length := by
    simp [segments]
  have names : (l.written hashing).map Prod.fst =
      (((l.segments hashing).zip (l.blocks.map Block.payload)).map Prod.fst).map
        Segment.filename := by
    rw [written, List.map_map, List.map_map]
    rfl
  rw [names, List.map_fst_zip lengths.le, segments, filenames_segmentsFrom]
  exact (List.nodup_range' 1).map segmentFilename_injective

theorem holds_reader : (l.reader hashing site).Holds hashing (l.blocks.map Block.payload) := by
  refine List.forall₂_iff_zip.mpr ⟨?_, ?_⟩
  · rw [List.length_map]
    exact length_segmentsFrom
  · intro segment payload member
    have described := (List.forall₂_iff_zip.mp describes_segmentsFrom).2 member
    have there : (segment.filename, payload) ∈ l.written hashing :=
      List.mem_map.mpr ⟨(segment, payload), member, rfl⟩
    have found := writeFiles_of_mem site.files (l.distinct_written hashing) there
    refine ⟨?_, described.2.symm⟩
    simp only [reader, ImageDir.ofFiles, found]

/-- The finalized image verifies against its receipt, with every segment counted. -/
theorem verify_reader (copied : l.base.requiredStorageAbi = storageAbiCopiedV0) :
    ∃ v, (l.reader hashing site).verify hashing false = .ok v ∧
      v.verifiedSegmentCount = l.blocks.length := by
  have abi : (l.reader hashing site).checkStorageAbi = .ok () := by
    have same : (l.reader hashing site).manifest.requiredStorageAbi = storageAbiCopiedV0 := copied
    rw [CompiledImageReader.checkStorageAbi, same]
    rfl
  refine ⟨_, CompiledImageReader.verify_ok_iff.mpr
    ⟨.inl rfl, CompiledImageReader.receiptMatchesManifest_build rfl, abi, _,
      l.holds_reader hashing site, rfl⟩, ?_⟩
  exact length_segmentsFrom

variable {l}

theorem segment_reader {before after : List Block} {block : Block}
    (split : l.blocks = before ++ block :: after) :
    block.segment hashing before.length (l.start + countTensors before) ∈ l.segments hashing ∧
      (l.reader hashing site).imageDir.read (segmentFilename before.length) =
        .ok block.payload := by
  have pair := @mem_zip_segmentsFrom hashing 0 l.start before after block
  rw [← split, Nat.zero_add] at pair
  have held := (List.forall₂_iff_zip.mp (l.holds_reader hashing site)).2 pair
  exact ⟨(List.of_mem_zip pair).1, held.1⟩

theorem entry_table {before after : List Block} {block : Block} {earlier later : List TensorSpec}
    {t : TensorSpec} (split : l.blocks = before ++ block :: after)
    (parts : block.tensors = earlier ++ t :: later) :
    t.entry block.id (l.start + countTensors before + earlier.length)
      (payloadOf earlier).length ∈ l.table := by
  have here := @mem_entriesFrom block.id (l.start + countTensors before) 0 earlier later t
  rw [Nat.zero_add, ← parts] at here
  rw [table, split]
  exact mem_tableFrom here

/-- With distinct segment ids and names, a tensor is read back by its name. -/
theorem tensorBytes_reader (fits : l.Fits) (distinct : (l.blocks.map Block.id).Nodup)
    (distinctNames : (l.tensors.map TensorSpec.name).Nodup) {t : TensorSpec}
    (member : t ∈ l.tensors) :
    (l.reader hashing site).tensorBytes t.name = .ok (t.data, t.storageDtype, t.physicalShape) := by
  obtain ⟨block, inside, here⟩ := List.mem_flatMap.mp member
  obtain ⟨before, after, split⟩ := List.append_of_mem inside
  obtain ⟨earlier, later, parts⟩ := List.append_of_mem here
  obtain ⟨there, read⟩ := segment_reader hashing site split
  have payload : block.payload = payloadOf earlier ++ (t.data ++ payloadOf later) := by
    rw [Block.payload, parts, payloadOf_append]
    rfl
  have inFile : (payloadOf earlier).length + t.data.length ≤ block.payload.length := by
    rw [payload, List.length_append, List.length_append]
    omega
  have small := fits block inside
  have names : (l.table.map TensorEntry.name).Nodup := by
    rw [table, names_tableFrom]
    exact distinctNames
  have ids : ((l.segments hashing).map Segment.id).Nodup := by
    rw [segments, ids_segmentsFrom]
    exact distinct
  refine CompiledImageReader.tensorBytes_ok_iff.mpr
    ⟨t.entry block.id (l.start + countTensors before + earlier.length) (payloadOf earlier).length,
      block.segment hashing before.length (l.start + countTensors before), block.payload,
      Keyed.find_of_mem names (entry_table split parts), Keyed.find_of_mem ids there, read,
      lt_of_le_of_lt inFile (small.trans (by decide)), inFile, ?_⟩
  have bytes := Tiling.slice_append_append (payloadOf earlier) t.data (payloadOf later)
  rw [← payload] at bytes
  exact congrArg (·, t.storageDtype, t.physicalShape) bytes

/-- The tensors of a segment tile its payload, in the order of the segment's ids. -/
theorem tiles_reader (distinct : (l.blocks.map Block.id).Nodup) {segment : Segment}
    (member : segment ∈ l.segments hashing) :
    ∃ payload, (l.reader hashing site).imageDir.read segment.filename = .ok payload ∧
      Tiling.Tiles 0 ((l.table.filter fun entry => entry.segment = segment.id).map
        TensorEntry.range) payload.length ∧
      (l.table.filter fun entry => entry.segment = segment.id).map TensorEntry.id =
        segment.tensorIds := by
  obtain ⟨before, block, after, split, rfl⟩ := exists_of_mem_segmentsFrom member
  rw [Nat.zero_add]
  refine ⟨block.payload, (segment_reader hashing site split).2, ?_⟩
  have entries : (l.table.filter fun entry => entry.segment = block.id) =
      entriesFrom block.id (l.start + countTensors before) 0 block.tensors := by
    rw [table, split]
    exact filter_tableFrom (split ▸ distinct)
  change Tiling.Tiles 0 ((l.table.filter fun entry => entry.segment = block.id).map _) _ ∧
    (l.table.filter fun entry => entry.segment = block.id).map _ = _
  rw [entries]
  constructor
  · have tiled := tiles_entriesFrom block.id (l.start + countTensors before) 0 block.tensors
    rwa [Nat.zero_add] at tiled
  · exact ids_entriesFrom

end Layout

/-! ## Every run of calls -/

/-- What calls made is verified, read back by name and tiled by its tensors. -/
theorem ImageBuilder.finalize_roundTrip (hashing : Hashing) (site : Site) (arch : TextArchitecture)
    (source : SourceIdentity) {calls : List Call} {b : ImageBuilder}
    (ran : calls.foldlM (call hashing) (new arch source) = .ok b)
    (distinctSegments : (calls.flatMap Call.begun).Nodup)
    (distinctNames : ((calls.flatMap Call.added).map TensorSpec.name).Nodup) :
    (∃ v, (b.reader hashing site).verify hashing false = .ok v ∧
      v.verifiedSegmentCount = (calls.flatMap Call.begun).length ∧
      (b.reader hashing site).manifest.segments.map Segment.id = calls.flatMap Call.begun) ∧
    (∀ t ∈ calls.flatMap Call.added, (b.reader hashing site).tensorBytes t.name =
      .ok (t.data, t.storageDtype, t.physicalShape)) ∧
    ∀ segment ∈ (b.reader hashing site).manifest.segments, ∃ payload,
      (b.reader hashing site).imageDir.read segment.filename = .ok payload ∧
      Tiling.Tiles 0 (((b.reader hashing site).manifest.tensorTable.filter fun entry =>
        entry.segment = segment.id).map TensorEntry.range) payload.length ∧
      ((b.reader hashing site).manifest.tensorTable.filter fun entry =>
        entry.segment = segment.id).map TensorEntry.id = segment.tensorIds := by
  let empty : Layout := ⟨Manifest.new arch source, 0, [], none, []⟩
  have fresh : new arch source = empty.render hashing := rfl
  rw [fresh] at ran
  obtain ⟨rfl, fits, tensors, ids⟩ := Layout.run_render (fun _ member => by cases member) ran
  rw [Layout.reader_render]
  have begun : (calls.foldl Layout.call empty).blocks.map Block.id = calls.flatMap Call.begun := ids
  have added : (calls.foldl Layout.call empty).tensors = calls.flatMap Call.added := tensors
  refine ⟨?_, fun t member => ?_, fun segment member => ?_⟩
  · have copied : (calls.foldl Layout.call empty).base.requiredStorageAbi =
        storageAbiCopiedV0 := by
      rw [(Layout.base_run calls empty).1]
      rfl
    obtain ⟨v, verified, counted⟩ :=
      Layout.verify_reader hashing site (calls.foldl Layout.call empty) copied
    refine ⟨v, verified, ?_, ids_segmentsFrom.trans begun⟩
    rw [counted, ← begun, List.length_map]
  · exact Layout.tensorBytes_reader hashing site fits (begun ▸ distinctSegments)
      (added ▸ distinctNames) (added ▸ member)
  · exact Layout.tiles_reader hashing site (begun ▸ distinctSegments) member

/-! ### Two segments, one of them empty -/

def smallTensor (name : String) (data : List UInt8) : TensorSpec where
  name
  role := "FinalNorm"
  layer := none
  data
  sourceFilename := "model.safetensors"
  sourceSha256 := ""
  sourceOffset := 0
  logicalDtype := "F32"
  storageDtype := "U8"
  logicalShape := [data.length]
  physicalShape := [data.length]
  quantization := none

def smallCalls : List ImageBuilder.Call :=
  [.beginSegment "persistent" .persistent, .addTensor (smallTensor "a" [1, 2]),
    .addTensor (smallTensor "empty" []), .addAlias "head" 0 "tied", .addTensor (smallTensor "b" [3]),
    .beginSegment "layer_0" (.layer 0)]

def smallSite : Site := ⟨"", "", fun _ => none, id⟩

theorem smallCalls_roundTrip : ∃ b, smallCalls.foldlM (ImageBuilder.call losslessHashing)
    (ImageBuilder.new (smallArchitecture []) smallSource) = .ok b ∧
    (b.reader losslessHashing smallSite).tensorBytes "b" = .ok ([3], "U8", [1]) := by
  have ran : smallCalls.foldlM (ImageBuilder.call losslessHashing)
    (ImageBuilder.new (smallArchitecture []) smallSource) = .ok _ := rfl
  refine ⟨_, ran, ?_⟩
  have read := ImageBuilder.finalize_roundTrip losslessHashing smallSite (smallArchitecture [])
    smallSource ran (by decide) (by decide)
  exact read.2.1 (smallTensor "b" [3]) (by decide)

end TribunusCompute.ComputeImage
