import TribunusCompute.Library.Runs
import TribunusCompute.ComputeImage.PatchRollback
import TribunusCompute.ComputeImage.Verification

/-!
# What a sequence of patches keeps

A patch records a new hash in the manifest, but it leaves the hash of the manifest and the receipt
as they were, and a rollback leaves the manifest as the patches wrote it. So an image survives the
patches that change nothing.
-/
namespace TribunusCompute.ComputeImage

open Outcome SegmentPatch

/-! ## One image in two directories -/

namespace CompiledImageReader

variable {reader : CompiledImageReader} {dir : ImageDir} {hashing : Hashing} {skip : Bool}

theorem verify_of_reads {v : ManifestVerification} (verified : reader.verify hashing skip = .ok v)
    (reads : ∀ segment ∈ reader.manifest.segments,
      dir.read segment.filename = reader.imageDir.read segment.filename) :
    ({ reader with imageDir := dir } : CompiledImageReader).verify hashing skip = .ok v := by
  obtain ⟨hash, receipt, abi, payloads, holds, counts⟩ := verify_ok_iff.mp verified
  refine verify_ok_iff.mpr ⟨hash, receipt, ?_, payloads, ?_, counts⟩
  · unfold checkStorageAbi at abi ⊢
    split at abi
    next mapped =>
      obtain ⟨_, segments, tensors⟩ := bind_ok_iff.mp abi
      rw [if_pos mapped]
      refine bind_ok_iff.mpr ⟨(), forM_ok_iff.mpr fun segment member => ?_, tensors⟩
      have checked := forM_ok_iff.mp segments segment member
      unfold checkMappedSegment at checked ⊢
      rw [reads segment member]
      split at checked
      next missing => cases checked
      next bytes read => exact checked
    next copied =>
      rw [if_neg copied]
      exact abi
  · obtain ⟨aligned, each⟩ := List.forall₂_iff_zip.mp holds
    refine List.forall₂_iff_zip.mpr ⟨aligned, fun {segment bytes} pair => ?_⟩
    obtain ⟨read, hashed⟩ := each pair
    exact ⟨(reads segment (List.of_mem_zip pair).1).trans read, hashed⟩

theorem tensorBytes_of_reads (name : String)
    (shown : dir.display = reader.imageDir.display)
    (reads : ∀ segment ∈ reader.manifest.segments,
      dir.read segment.filename = reader.imageDir.read segment.filename) :
    ({ reader with imageDir := dir } : CompiledImageReader).tensorBytes name =
      reader.tensorBytes name := by
  unfold tensorBytes
  cases Keyed.find TensorEntry.name reader.manifest.tensorTable name with
  | none => rfl
  | some entry =>
    cases located : Keyed.find Segment.id reader.manifest.segments entry.segment with
    | none =>
      simp only [orReport, bind, Except.bind, located]
      rfl
    | some segment =>
      have same : ({ reader with imageDir := dir } : CompiledImageReader).readSegmentBytes
          segment.filename = reader.readSegmentBytes segment.filename := by
        unfold readSegmentBytes
        rw [reads segment (Keyed.mem_of_find located).1, shown]
      simp only [orReport, bind, Except.bind, located, same]

end CompiledImageReader

/-- Nothing was written since the start but backups that were not there. -/
def OnlyBackedUp (start files : ImageFiles) : Prop :=
  ∀ path, path ∈ start ∨ backupStem path.val = none → files.lookup path = start.lookup path

theorem onlyBackedUp_self {files : ImageFiles} : OnlyBackedUp files files := fun _ _ => rfl

theorem OnlyBackedUp.backUp {start files : ImageFiles} (same : OnlyBackedUp start files)
    (path : FileName) (data : List UInt8) : OnlyBackedUp start (files.backUp path data) := by
  intro other old
  rw [← same other old]
  unfold ImageFiles.backUp
  split
  next => rfl
  next missing =>
    have apart : other ≠ backupPathFor path := by
      rintro rfl
      rcases old with inside | plain
      · have held := same _ (.inl inside)
        rw [AList.lookup_eq_none.mpr missing] at held
        exact AList.lookup_eq_none.mp held.symm inside
      · rw [backupStem_backupPathFor] at plain
        cases plain
    exact AList.lookup_insert_ne apart

section Directory

variable {json : ImageJson} {hashing : Hashing} {skip : Bool} {display : String → String}
  {start files : ImageFiles} {reader : CompiledImageReader}

theorem OnlyBackedUp.read (same : OnlyBackedUp start files) {name : String}
    (old : (∃ bytes, start.read name = .ok bytes) ∨ backupStem name = none) :
    files.read name = start.read name := by
  refine ImageFiles.read_congr fun path named => same path ?_
  rcases old with ⟨bytes, read⟩ | plain
  · rw [← named] at read
    have held := ImageFiles.read_eq_ok.mp read
    exact .inl (ImageFiles.mem_of_lookup held)
  · exact .inr (named ▸ plain)

theorem OnlyBackedUp.readToString (same : OnlyBackedUp start files) {name : String}
    (plain : backupStem name = none) : files.readToString name = start.readToString name := by
  unfold ImageFiles.readToString
  rw [same.read (.inr plain)]

theorem openImage_ok_iff :
    CompiledImageReader.openImage json hashing skip display files = .ok reader ↔
      ∃ text, files.readToString manifestName = .ok text ∧
        json.parseManifest text = .ok reader.manifest ∧
        reader.receipt = files.receipt json ∧ reader.imageDir = ⟨display, files.read⟩ ∧
        ∃ v, reader.verify hashing skip = .ok v := by
  unfold CompiledImageReader.openImage
  simp only [bind_ok_iff, reportIn_ok_iff, pure_ok_iff]
  constructor
  · rintro ⟨text, read, manifest, parsed, v, verified, rfl⟩
    exact ⟨text, read, parsed, rfl, rfl, v, verified⟩
  · rintro ⟨text, read, parsed, receipt, dir, v, verified⟩
    obtain ⟨manifest, _, _⟩ := reader
    obtain rfl := receipt
    obtain rfl := dir
    exact ⟨text, read, manifest, parsed, v, verified, rfl⟩

theorem exists_read_of_open
    (opened : CompiledImageReader.openImage json hashing skip display start = .ok reader)
    {segment : Segment} (member : segment ∈ reader.manifest.segments) :
    ∃ bytes, start.read segment.filename = .ok bytes ∧
      hashing.sha256Bytes bytes = segment.sha256 := by
  obtain ⟨_, _, _, _, dir, v, verified⟩ := openImage_ok_iff.mp opened
  obtain ⟨_, _, _, payloads, holds, _⟩ := CompiledImageReader.verify_ok_iff.mp verified
  obtain ⟨bytes, read, hashed⟩ := holds.hashed member
  rw [dir] at read
  exact ⟨bytes, read, hashed⟩

theorem OnlyBackedUp.segments (same : OnlyBackedUp start files)
    (opened : CompiledImageReader.openImage json hashing skip display start = .ok reader) :
    ∀ segment ∈ reader.manifest.segments,
      files.read segment.filename = reader.imageDir.read segment.filename := by
  intro segment member
  obtain ⟨_, _, _, _, dir, _⟩ := openImage_ok_iff.mp opened
  obtain ⟨bytes, read, -⟩ := exists_read_of_open opened member
  rw [dir]
  exact same.read (.inl ⟨bytes, read⟩)

theorem OnlyBackedUp.opens (same : OnlyBackedUp start files)
    (opened : CompiledImageReader.openImage json hashing skip display start = .ok reader) :
    CompiledImageReader.openImage json hashing skip display files =
      .ok { reader with imageDir := ⟨display, files.read⟩ } := by
  have reads := same.segments opened
  obtain ⟨text, read, parsed, receipt, dir, v, verified⟩ := openImage_ok_iff.mp opened
  refine openImage_ok_iff.mpr ⟨text, ?_, parsed, ?_, rfl, v,
    CompiledImageReader.verify_of_reads verified reads⟩
  · rw [same.readToString (by decide), read]
  · rw [receipt, ImageFiles.receipt, ImageFiles.receipt, same.readToString (by decide)]

theorem OnlyBackedUp.readerTensorBytes (same : OnlyBackedUp start files)
    (opened : CompiledImageReader.openImage json hashing skip display start = .ok reader)
    (name : String) :
    ({ reader with imageDir := ⟨display, files.read⟩ } : CompiledImageReader).tensorBytes name =
      reader.tensorBytes name := by
  have shown : display = reader.imageDir.display := by
    obtain ⟨_, _, _, _, dir, _⟩ := openImage_ok_iff.mp opened
    rw [dir]
  exact CompiledImageReader.tensorBytes_of_reads name shown (same.segments opened)

theorem tensorBytes_of_open
    (opened : CompiledImageReader.openImage json hashing skip display files = .ok reader)
    (name : String) :
    files.tensorBytes json hashing skip display name = reader.tensorBytes name := by
  unfold ImageFiles.tensorBytes
  rw [opened]
  rfl

end Directory

/-! ## One patch -/

theorem splice_self {data : List UInt8} {offset len : ℕ} (inside : offset + len ≤ data.length) :
    splice data offset ((data.drop offset).take len) = data := by
  have length : ((data.drop offset).take len).length = len := by
    rw [List.length_take, List.length_drop]
    omega
  unfold splice
  rw [length, List.append_assoc, ← List.drop_drop, List.take_append_drop, List.take_append_drop]

theorem updateHash_self {filename hash : String} {segments : List Segment}
    (there : ∀ segment ∈ segments, segment.filename = filename → segment.sha256 = hash) :
    updateHash filename hash segments = segments := by
  induction segments with
  | nil => rfl
  | cons segment segments ih =>
    unfold updateHash
    split
    next named =>
      have same := there segment List.mem_cons_self named
      rw [← same]
    next other =>
      rw [ih fun segment member => there segment (List.mem_cons_of_mem _ member)]

/-- Where the file is named, its first segment gets the hash. -/
theorem exists_updateHash {filename : String} (hash : String) {segments : List Segment}
    {segment : Segment} (member : segment ∈ segments) (named : segment.filename = filename) :
    ∃ before first after, segments = before ++ first :: after ∧ first.filename = filename ∧
      updateHash filename hash segments = before ++ { first with sha256 := hash } :: after := by
  induction segments with
  | nil => cases member
  | cons other segments ih =>
    unfold updateHash
    by_cases same : other.filename = filename
    · rw [if_pos same]
      exact ⟨[], other, segments, rfl, same, rfl⟩
    · rw [if_neg same]
      have later : segment ∈ segments := by
        rcases List.mem_cons.mp member with rfl | later
        · exact absurd named same
        · exact later
      obtain ⟨before, first, after, split, there, updated⟩ := ih later
      exact ⟨other :: before, first, after, by rw [split, List.cons_append], there,
        by rw [updated, List.cons_append]⟩

theorem ImageFiles.lookup_backUp {files : ImageFiles} {path other : FileName}
    {bytes : List UInt8} (old : other ∈ files) :
    (files.backUp path bytes).lookup other = files.lookup other := by
  unfold ImageFiles.backUp
  split
  next => rfl
  next missing =>
    have apart : other ≠ backupPathFor path := fun same => missing (same ▸ old)
    rw [AList.lookup_insert_ne apart]

theorem lookup_insert_same {files : ImageFiles} {path other : FileName} {bytes : List UInt8}
    (held : files.lookup path = some bytes) :
    (files.insert path bytes).lookup other = files.lookup other := by
  by_cases same : other = path
  · rw [same, AList.lookup_insert, held]
  · rw [AList.lookup_insert_ne same]

theorem fromUTF8_utf8 (text : String) : String.fromUTF8? ⟨(utf8 text).toArray⟩ = some text := by
  have bytes : (⟨(utf8 text).toArray⟩ : ByteArray) = text.toByteArray := by
    unfold utf8
    rw [Array.toArray_toList]
  rw [bytes]
  unfold String.fromUTF8?
  rw [dif_pos text.isValidUTF8]
  rfl

theorem readToString_ok_iff {files : ImageFiles} {name text : String} :
    files.readToString name = .ok text ↔ files.read name = .ok (utf8 text) := by
  unfold ImageFiles.readToString
  constructor
  · intro read
    split at read
    next bytes found =>
      rw [found]
      split at read
      next decoded valid =>
        obtain rfl := Except.ok.inj read
        unfold String.fromUTF8? at valid
        split at valid
        next =>
          obtain rfl := Option.some.inj valid
          rfl
        next => cases valid
      next => cases read
    next => cases read
  · intro held
    simp only [held, fromUTF8_utf8]

def SegmentPatch.NamesSegment (manifest : Manifest) (patch : SegmentPatch) : Prop :=
  ∃ entry segment,
    Keyed.find TensorEntry.name manifest.tensorTable patch.tensorName = some entry ∧
    Keyed.find Segment.id manifest.segments entry.segment = some segment ∧
    segment.filename = patch.segmentFilename

section Apply

variable {json : ImageJson} {hashing : Hashing} {skip : Bool} {display : String → String}
  {files files' : ImageFiles} {reader : CompiledImageReader} {patch : SegmentPatch}

theorem apply_ok_iff : patch.apply json hashing files = .ok files' ↔
    ∃ text manifest tensor path data bytes updated,
      files.readToString manifestName = .ok text ∧ json.parseManifest text = .ok manifest ∧
      Keyed.find TensorEntry.name manifest.tensorTable patch.tensorName = some tensor ∧
      files.locate patch.segmentFilename = some (path, data) ∧
      tensor.offset + tensor.byteLength < 2 ^ 64 ∧
      tensor.offset + tensor.byteLength ≤ data.length ∧
      patch.writeBytes data tensor.offset tensor.byteLength = .ok bytes ∧
      json.manifestText (manifest.updateHash patch.segmentFilename
        (hashing.sha256Bytes (splice data tensor.offset bytes))) = .ok updated ∧
      files' = ((files.backUp path data).insert path (splice data tensor.offset bytes)).insert
        ⟨manifestName, by decide⟩ (utf8 updated) := by
  unfold SegmentPatch.apply
  simp only [bind_ok_iff, reportIn_ok_iff, orReport_ok_iff, fit_ok_iff, require_ok_iff,
    pure_ok_iff, exists_const]
  constructor
  · rintro ⟨text, read, manifest, parsed, tensor, named, ⟨path, data⟩, located, _, ⟨fits, rfl⟩,
      inside, bytes, write, updated, written, rfl⟩
    exact ⟨text, manifest, tensor, path, data, bytes, updated, read, parsed, named, located, fits,
      inside, write, written, rfl⟩
  · rintro ⟨text, manifest, tensor, path, data, bytes, updated, read, parsed, named, located, fits,
      inside, write, written, rfl⟩
    exact ⟨text, read, manifest, parsed, tensor, named, (path, data), located, _, ⟨fits, rfl⟩,
      inside, bytes, write, updated, written, rfl⟩

def Manifest.IsImageFile (manifest : Manifest) (name : String) : Prop :=
  name = manifestName ∨ ∃ segment ∈ manifest.segments, segment.filename = name

/-- The patch brings no bytes, or those its tensor has; the manifest file holds the text that is
written for its manifest; and once the segment file is backed up, every backup that leads to a
file of the image holds what that file holds. -/
structure Harmless (json : ImageJson) (reader : CompiledImageReader) (files : ImageFiles)
    (patch : SegmentPatch) : Prop where
  unchanging : patch.correctedBytes = [] ∨ ∃ dtype shape,
    reader.tensorBytes patch.tensorName = .ok (patch.correctedBytes, dtype, shape)
  canonical : ∃ text, json.manifestText reader.manifest = .ok text ∧
    files.readToString manifestName = .ok text
  backups : ∀ path data, files.locate patch.segmentFilename = some (path, data) →
    BackupsCurrent (fun path => reader.manifest.IsImageFile path.val) (files.backUp path data)

theorem hash_of_open
    (opened : CompiledImageReader.openImage json hashing skip display files = .ok reader)
    {segment : Segment} (member : segment ∈ reader.manifest.segments) {path : FileName}
    {data : List UInt8} (located : files.locate segment.filename = some (path, data)) :
    segment.sha256 = hashing.sha256Bytes data := by
  obtain ⟨bytes, read, hashed⟩ := exists_read_of_open opened member
  have there := ImageFiles.read_ok_iff.mpr ⟨path, located⟩
  obtain rfl := Except.ok.inj (read.symm.trans there)
  exact hashed.symm

/-- What a patch writes that brings no other bytes than its tensor has. -/
theorem Harmless.writeBytes (harmless : Harmless json reader files patch)
    (dir : reader.imageDir = ⟨display, files.read⟩) (names : patch.NamesSegment reader.manifest)
    {tensor : TensorEntry} {path : FileName} {data bytes : List UInt8}
    (named : Keyed.find TensorEntry.name reader.manifest.tensorTable patch.tensorName =
      some tensor)
    (located : files.locate patch.segmentFilename = some (path, data))
    (write : patch.writeBytes data tensor.offset tensor.byteLength = .ok bytes) :
    bytes = (data.drop tensor.offset).take tensor.byteLength := by
  unfold SegmentPatch.writeBytes at write
  split at write
  next => exact (Except.ok.inj write).symm
  next some =>
    obtain ⟨_, -, same⟩ := bind_ok_iff.mp write
    obtain rfl := pure_ok_iff.mp same
    obtain ⟨dtype, shape, found⟩ := harmless.unchanging.resolve_left some
    obtain ⟨entry, segment, payload, entryNamed, entryIn, read, -, -, tuple⟩ :=
      CompiledImageReader.tensorBytes_ok_iff.mp found
    obtain ⟨entry', segment', entryNamed', entryIn', file⟩ := names
    -- Both readings of the name find the same entry, in the file that the patch names.
    obtain rfl := Option.some.inj (entryNamed.symm.trans named)
    obtain rfl := Option.some.inj (entryNamed.symm.trans entryNamed')
    obtain rfl := Option.some.inj (entryIn.symm.trans entryIn')
    rw [dir, file] at read
    have there := ImageFiles.read_ok_iff.mpr ⟨path, located⟩
    obtain rfl := Except.ok.inj (read.symm.trans there)
    exact (congrArg Prod.fst tuple).symm

theorem Harmless.apply (harmless : Harmless json reader files patch)
    (opened : CompiledImageReader.openImage json hashing skip display files = .ok reader)
    (names : patch.NamesSegment reader.manifest)
    (ok : patch.apply json hashing files = .ok files') :
    ∃ path data, files.locate patch.segmentFilename = some (path, data) ∧
      ∀ other, files'.lookup other = (files.backUp path data).lookup other := by
  obtain ⟨text, manifest, tensor, path, data, bytes, updated, read, parsed, named, located, -,
    inside, write, written, rfl⟩ := apply_ok_iff.mp ok
  obtain ⟨text', read', parsed', -, dir, -⟩ := openImage_ok_iff.mp opened
  obtain rfl := Except.ok.inj (read.symm.trans read')
  obtain rfl := Except.ok.inj (parsed.symm.trans parsed')
  obtain rfl := harmless.writeBytes dir names named located write
  refine ⟨path, data, located, fun other => ?_⟩
  rw [splice_self inside] at written ⊢
  have unchanged : reader.manifest.updateHash patch.segmentFilename (hashing.sha256Bytes data) =
      reader.manifest := by
    unfold Manifest.updateHash
    rw [updateHash_self fun segment member file =>
      hash_of_open opened member (file ▸ located)]
  obtain ⟨text', canonical, there⟩ := harmless.canonical
  obtain rfl := Except.ok.inj (read.symm.trans there)
  rw [unchanged, canonical] at written
  obtain rfl := Except.ok.inj written
  -- Both writes put back what the files hold.
  obtain ⟨manifestPath, manifestAt⟩ := ImageFiles.read_ok_iff.mp (readToString_ok_iff.mp read)
  obtain ⟨manifestNamed, manifestHeld⟩ := ImageFiles.locate_eq_some.mp manifestAt
  obtain rfl : manifestPath = ⟨manifestName, by decide⟩ := Subtype.ext manifestNamed
  have held := (ImageFiles.locate_eq_some.mp located).2
  have backedUp : ∀ {path bytes}, files.lookup path = some bytes →
      ∀ {path' bytes'}, (files.backUp path' bytes').lookup path = some bytes := by
    intro path bytes held path' bytes'
    rw [ImageFiles.lookup_backUp (ImageFiles.mem_of_lookup held), held]
  rw [lookup_insert_same, lookup_insert_same (backedUp held)]
  rw [lookup_insert_same (backedUp held)]
  exact backedUp manifestHeld

theorem hashes_of_receipt (receipt : reader.receiptMatchesManifest = true) :
    reader.manifest.segments.map Segment.sha256 =
      reader.receipt.segmentHashes.map SegmentReceipt.sha256 := by
  unfold CompiledImageReader.receiptMatchesManifest at receipt
  simp only [Bool.and_eq_true, beq_iff_eq, List.all_eq_true] at receipt
  obtain ⟨⟨-, aligned⟩, each⟩ := receipt
  apply List.ext_getElem
  · rw [List.length_map, List.length_map, aligned]
  · intro i inside there
    rw [List.length_map] at inside there
    have pair := List.getElem_mem (l := reader.receipt.segmentHashes.zip reader.manifest.segments)
      (n := i) (by rw [List.length_zip]; omega)
    rw [List.getElem_zip] at pair
    rw [List.getElem_map, List.getElem_map]
    exact (each _ pair).1.2.symm

/-- After a patch the image opens only where the file has the hash it had: the manifest gets the
new hash and the receipt does not. -/
theorem hash_of_opens (ok : patch.apply json hashing files = .ok files')
    (opened : CompiledImageReader.openImage json hashing skip display files = .ok reader)
    (names : patch.NamesSegment reader.manifest)
    (apart : patch.segmentFilename ≠ manifestName ∧ patch.segmentFilename ≠ receiptName)
    (roundTrip : ∀ hash text,
      json.manifestText (reader.manifest.updateHash patch.segmentFilename hash) = .ok text →
        json.parseManifest text = .ok (reader.manifest.updateHash patch.segmentFilename hash))
    {reader' : CompiledImageReader}
    (opens : CompiledImageReader.openImage json hashing skip display files' = .ok reader')
    {data data' : List UInt8} (before : files.read patch.segmentFilename = .ok data)
    (after : files'.read patch.segmentFilename = .ok data') :
    hashing.sha256Bytes data' = hashing.sha256Bytes data := by
  obtain ⟨text, manifest, tensor, path, data, bytes, updated, read, parsed, -, located, -, -, -,
    written, new⟩ := apply_ok_iff.mp ok
  obtain ⟨text', read', parsed', receipt, -, v, verified⟩ := openImage_ok_iff.mp opened
  obtain rfl := Except.ok.inj (read.symm.trans read')
  obtain rfl := Except.ok.inj (parsed.symm.trans parsed')
  obtain ⟨file, held⟩ := ImageFiles.locate_eq_some.mp located
  rw [← file] at before after apart
  obtain rfl := Option.some.inj (held.symm.trans (ImageFiles.read_eq_ok.mp before))
  have plain : path ≠ ⟨manifestName, by decide⟩ := fun same => apart.1 (congrArg Subtype.val same)
  have data'_eq : splice data tensor.offset bytes = data' := by
    have there := ImageFiles.read_eq_ok.mp after
    rw [new, AList.lookup_insert_ne plain, AList.lookup_insert] at there
    exact Option.some.inj there
  rw [data'_eq] at written new
  obtain ⟨textAfter, readAfter, parsedAfter, receiptAfter, -, v', verifiedAfter⟩ :=
    openImage_ok_iff.mp opens
  -- The manifest that is read back has the new hash.
  have manifestThere : files'.readToString manifestName = .ok updated := by
    rw [readToString_ok_iff]
    apply (@ImageFiles.read_eq_ok _ ⟨manifestName, by decide⟩ _).mpr
    rw [new, AList.lookup_insert]
  obtain rfl := Except.ok.inj (readAfter.symm.trans manifestThere)
  have manifestAfter := Except.ok.inj (parsedAfter.symm.trans (roundTrip _ _ written))
  -- The receipt is the old one.
  have receiptSame : files'.readToString receiptName = files.readToString receiptName := by
    have old : OnlyBackedUp files (files.backUp path data) := onlyBackedUp_self.backUp path data
    have receiptPlain : backupStem receiptName = none := by decide
    have unwritten : ∀ other : FileName, other.val = receiptName →
        files'.lookup other = files.lookup other := by
      intro other isReceipt
      have notManifest : other ≠ ⟨manifestName, by decide⟩ := by
        rintro rfl
        revert isReceipt
        decide
      have notData : other ≠ path := fun same => apart.2 (same ▸ isReceipt)
      rw [new, AList.lookup_insert_ne notManifest, AList.lookup_insert_ne notData]
      exact old other (.inr (isReceipt ▸ receiptPlain))
    unfold ImageFiles.readToString
    rw [ImageFiles.read_congr unwritten]
  have receiptKept : reader'.receipt = reader.receipt := by
    rw [receiptAfter, receipt, ImageFiles.receipt, ImageFiles.receipt, receiptSame]
  have hashes := hashes_of_receipt (CompiledImageReader.verify_ok_iff.mp verified).2.1
  have hashesAfter := hashes_of_receipt (CompiledImageReader.verify_ok_iff.mp verifiedAfter).2.1
  rw [receiptKept, ← hashes, manifestAfter] at hashesAfter
  obtain ⟨entry, segment, -, segmentIn, segmentFile⟩ := names
  obtain ⟨first', first, rest, split, firstFile, updatedSegments⟩ :=
    exists_updateHash (hashing.sha256Bytes data') (Keyed.mem_of_find segmentIn).1 segmentFile
  have firstHash : first.sha256 = hashing.sha256Bytes data := by
    apply hash_of_open opened
    · rw [split]
      exact List.mem_append_right _ List.mem_cons_self
    · rw [firstFile]
      exact located
  have sameHash : hashing.sha256Bytes data' = first.sha256 := by
    unfold Manifest.updateHash at hashesAfter
    rw [updatedSegments, split, List.map_append, List.map_append] at hashesAfter
    have tails := List.append_cancel_left hashesAfter
    rw [List.map_cons, List.map_cons] at tails
    exact (List.cons.inj tails).1
  rw [sameHash, firstHash]

end Apply

/-! ## Sequences of patches -/

structure Repair where
  files : ImageFiles
  applied : List SegmentPatch

def Repair.step (json : ImageJson) (hashing : Hashing) (repair : Repair) (patch : SegmentPatch) :
    Option Repair :=
  (patch.apply json hashing repair.files).toOption.map fun files =>
    ⟨files, repair.applied ++ [patch]⟩

def lastBytes (applied : List SegmentPatch) (name : String) : Option (List UInt8) :=
  (applied.reverse.find? fun patch => patch.tensorName = name ∧ patch.correctedBytes ≠ []).map
    SegmentPatch.correctedBytes

theorem lastBytes_concat {applied : List SegmentPatch} {patch : SegmentPatch} {name : String} :
    lastBytes (applied ++ [patch]) name =
      if patch.tensorName = name ∧ patch.correctedBytes ≠ [] then some patch.correctedBytes
      else lastBytes applied name := by
  unfold lastBytes
  rw [List.reverse_concat, List.find?_cons]
  split <;> simp_all

section Runs

variable (json : ImageJson) (hashing : Hashing) (skip : Bool) (display : String → String)

/-- The image verifies, each patched tensor has its last bytes and every other the bytes it had,
and one rollback in any order restores the files of the image. -/
structure Kept (start : ImageFiles) (manifest : Manifest) (repair : Repair) : Prop where
  verifies : ∃ reader',
    CompiledImageReader.openImage json hashing skip display repair.files = .ok reader'
  patched : ∀ name bytes, lastBytes repair.applied name = some bytes → ∃ dtype shape,
    repair.files.tensorBytes json hashing skip display name = .ok (bytes, dtype, shape)
  others : ∀ name, lastBytes repair.applied name = none →
    repair.files.tensorBytes json hashing skip display name =
      start.tensorBytes json hashing skip display name
  restores : repair.applied ≠ [] → ∀ order : List FileName, order.Perm repair.files.keys →
    ∃ restored, rollback display order repair.files = .ok restored ∧
      ∀ name, manifest.IsImageFile name → restored.read name = start.read name

/-- The patch is harmless to the image that the directory opens as. -/
def Admissible (repair : Repair) (patch : SegmentPatch) : Prop :=
  ∃ reader, CompiledImageReader.openImage json hashing skip display repair.files = .ok reader ∧
    Harmless json reader repair.files patch

variable {json hashing skip display}
  {start : ImageFiles} {reader : CompiledImageReader} {repair repair' : Repair}
  {patch : SegmentPatch}

/-- Along a run of harmless patches: only backups were made, the last bytes of a tensor are those
it had at the start, and the backups lead to what the image holds. -/
structure Undamaged (start : ImageFiles) (reader : CompiledImageReader) (repair : Repair) :
    Prop where
  same : OnlyBackedUp start repair.files
  last : ∀ name bytes, lastBytes repair.applied name = some bytes →
    ∃ dtype shape, reader.tensorBytes name = .ok (bytes, dtype, shape)
  backups : repair.applied ≠ [] →
    BackupsCurrent (fun path => reader.manifest.IsImageFile path.val) repair.files ∧
      ∃ path ∈ repair.files, restoredTo repair.files path ≠ none

theorem Repair.step_eq_some : Repair.step json hashing repair patch = some repair' ↔
    ∃ files, patch.apply json hashing repair.files = .ok files ∧
      repair' = ⟨files, repair.applied ++ [patch]⟩ := by
  unfold Repair.step
  cases patch.apply json hashing repair.files with
  | error e => simp [Except.toOption]
  | ok files => simp [Except.toOption, eq_comm]

theorem undamaged_start : Undamaged start reader ⟨start, []⟩ where
  same := onlyBackedUp_self
  last _ _ found := by cases found
  backups some := absurd rfl some

/-- A backed up file has a backup that a rollback copies somewhere. -/
theorem restoredTo_backUp {files : ImageFiles} {path : FileName} {data : List UInt8}
    (held : files.lookup path = some data) :
    backupPathFor path ∈ files.backUp path data ∧
      restoredTo (files.backUp path data) (backupPathFor path) ≠ none := by
  constructor
  · unfold ImageFiles.backUp
    split
    next there => exact there
    next => exact (AList.mem_insert _).mpr (.inl rfl)
  · intro stays
    have nowhere := (restoredTo_eq_none.mp stays path.val backupStem_backupPathFor).2
    have there : path ∈ files.backUp path data := by
      rw [← AList.lookup_isSome, ImageFiles.lookup_backUp, held]
      · rfl
      · exact ImageFiles.mem_of_lookup held
    rw [ImageFiles.existing_eq_some.mpr ⟨rfl, there⟩] at nowhere
    cases nowhere

theorem Undamaged.step
    (opened : CompiledImageReader.openImage json hashing skip display start = .ok reader)
    (undamaged : Undamaged start reader repair) (names : patch.NamesSegment reader.manifest)
    (admissible : Admissible json hashing skip display repair patch)
    (taken : Repair.step json hashing repair patch = some repair') :
    Undamaged start reader repair' := by
  obtain ⟨reader', opens, harmless⟩ := admissible
  obtain rfl := Except.ok.inj ((undamaged.same.opens opened).symm.trans opens)
  obtain ⟨files', ok, rfl⟩ := Repair.step_eq_some.mp taken
  obtain ⟨path, data, located, only⟩ := harmless.apply opens names ok
  have held := (ImageFiles.locate_eq_some.mp located).2
  constructor
  · intro other old
    rw [only]
    exact undamaged.same.backUp path data other old
  · intro name bytes found
    rw [lastBytes_concat] at found
    split at found
    next brought =>
      obtain ⟨rfl, some⟩ := brought
      obtain rfl := Option.some.inj found
      obtain ⟨dtype, shape, there⟩ := harmless.unchanging.resolve_left some
      exact ⟨dtype, shape, (undamaged.same.readerTensorBytes opened _).symm.trans there⟩
    next => exact undamaged.last name bytes found
  · intro _
    have backups := (harmless.backups path data located).congr only
    obtain ⟨inside, goes⟩ := restoredTo_backUp held
    refine ⟨backups, backupPathFor path, (mem_congr only _).mpr inside, ?_⟩
    rw [restoredTo_congr only]
    exact goes

theorem Undamaged.kept
    (opened : CompiledImageReader.openImage json hashing skip display start = .ok reader)
    (undamaged : Undamaged start reader repair) :
    Kept json hashing skip display start reader.manifest repair := by
  have opens := undamaged.same.opens opened
  have bytesOf : ∀ name, repair.files.tensorBytes json hashing skip display name =
      reader.tensorBytes name := fun name =>
    (tensorBytes_of_open opens name).trans (undamaged.same.readerTensorBytes opened name)
  constructor
  · exact ⟨_, opens⟩
  · intro name bytes found
    rw [bytesOf]
    exact undamaged.last name bytes found
  · intro name _
    rw [bytesOf, tensorBytes_of_open opened]
  · intro some order listed
    obtain ⟨backups, backup⟩ := undamaged.backups some
    obtain ⟨restored, ran, keeps⟩ := rollback_keeps display backups backup listed
    refine ⟨restored, ran, fun name isFile => ?_⟩
    have before : repair.files.read name = start.read name := by
      apply undamaged.same.read
      rcases isFile with rfl | ⟨segment, member, rfl⟩
      · exact .inr (by decide)
      · obtain ⟨bytes, read, -⟩ := exists_read_of_open opened member
        exact .inl ⟨bytes, read⟩
    rw [← before]
    exact ImageFiles.read_congr fun path named => keeps path (named ▸ isFile)

/-- In a run of admissible patches the image is kept in every state. -/
theorem apply_keepsImage
    (opened : CompiledImageReader.openImage json hashing skip display start = .ok reader)
    {patches : List SegmentPatch} (names : ∀ patch ∈ patches, patch.NamesSegment reader.manifest)
    (guarded : Runs.Guarded (Repair.step json hashing) (Admissible json hashing skip display)
      ⟨start, []⟩ patches) :
    Runs.Always (Repair.step json hashing)
      (Kept json hashing skip display start reader.manifest) ⟨start, []⟩ patches := by
  have named := Runs.guarded_of_forall (Repair.step json hashing) names ⟨start, []⟩
  have both := Runs.guarded_and (Repair.step json hashing) guarded named
  have always := Runs.always_of_guarded (Repair.step json hashing)
    (fun _ _ _ undamaged ok taken => undamaged.step opened ok.2 ok.1 taken) undamaged_start both
  exact Runs.always_mono _ (fun _ undamaged => undamaged.kept opened) always

/-! ### Directories without backups -/

/-- The backups since the start are those of segment files, and hold what these held. -/
structure OwnBackups (start : ImageFiles) (manifest : Manifest) (files : ImageFiles) : Prop where
  same : OnlyBackedUp start files
  own : ∀ path ∈ files, path ∈ start ∨ ∃ original ∈ start,
    (∃ segment ∈ manifest.segments, segment.filename = original.val) ∧
      path = backupPathFor original ∧ files.lookup path = start.lookup original

theorem OwnBackups.backUp {manifest : Manifest} {files : ImageFiles}
    (backups : OwnBackups start manifest files) {path : FileName} {data : List UInt8}
    (held : files.lookup path = some data) (inside : path ∈ start)
    (ofSegment : ∃ segment ∈ manifest.segments, segment.filename = path.val) :
    OwnBackups start manifest (files.backUp path data) := by
  refine ⟨backups.same.backUp path data, fun other there => ?_⟩
  unfold ImageFiles.backUp at there ⊢
  split at there
  next already =>
    rw [if_pos already]
    exact backups.own other there
  next missing =>
    rw [if_neg missing]
    by_cases new : other = backupPathFor path
    · subst new
      refine .inr ⟨path, inside, ofSegment, rfl, ?_⟩
      rw [AList.lookup_insert, ← backups.same path (.inl inside), held]
    · rw [AList.lookup_insert_ne new]
      exact backups.own other ((AList.mem_insert _).mp there |>.resolve_left new)

theorem OwnBackups.congr {manifest : Manifest} {files files' : ImageFiles}
    (backups : OwnBackups start manifest files)
    (same : ∀ path, files'.lookup path = files.lookup path) :
    OwnBackups start manifest files' := by
  constructor
  · intro path old
    rw [same]
    exact backups.same path old
  · intro path inside
    rw [same]
    exact backups.own path ((mem_congr same path).mp inside)

/-- A directory that had no backups, and no file that a rollback would take for the original of
another, has only current ones. -/
theorem OwnBackups.current {files : ImageFiles}
    (opened : CompiledImageReader.openImage json hashing skip display start = .ok reader)
    (fresh : ∀ path ∈ start, backupStem path.val = none)
    (single : ∀ segment ∈ reader.manifest.segments,
      start.existing (segment.filename ++ ".bin") = none)
    (backups : OwnBackups start reader.manifest files) :
    BackupsCurrent (fun path => reader.manifest.IsImageFile path.val) files := by
  -- a backup is one that a patch has made of a segment
  have named : ∀ backup ∈ files, ∀ name, backupStem backup.val = some name →
      ∃ original ∈ start, original.val = name ∧
        (∃ segment ∈ reader.manifest.segments, segment.filename = name) ∧
        files.lookup backup = start.lookup original := by
    intro backup inside name stem
    rcases backups.own backup inside with old | ⟨original, there, ofSegment, rfl, held⟩
    · rw [fresh backup old] at stem
      cases stem
    · rw [backupStem_backupPathFor] at stem
      obtain rfl := Option.some.inj stem
      exact ⟨original, there, rfl, ofSegment, held⟩
  apply backupsCurrent_of_direct
  -- a file of the image is no backup
  · rintro path (isManifest | ⟨segment, member, file⟩)
    · refine restoredTo_eq_none.mpr fun name stem => ?_
      have plain : backupStem manifestName = none := by decide
      rw [isManifest, plain] at stem
      cases stem
    · obtain ⟨bytes, read, -⟩ := exists_read_of_open opened member
      rw [file] at read
      have inside := ImageFiles.mem_of_lookup (ImageFiles.read_eq_ok.mp read)
      refine restoredTo_eq_none.mpr fun name stem => ?_
      rw [fresh path inside] at stem
      cases stem
  -- a rollback puts a backup where it was taken from
  · rintro backup target ⟨inside, goes⟩
    obtain ⟨name, stem, first | ⟨-, second⟩⟩ := restoredTo_eq_some.mp goes
    · obtain ⟨binNamed, binThere⟩ := ImageFiles.existing_eq_some.mp first
      obtain ⟨_, _, _, ⟨segment, member, file⟩, _⟩ := named backup inside name stem
      rcases backups.own target binThere with old | ⟨original, -, -, rfl, -⟩
      · have absent := single segment member
        rw [file, ImageFiles.existing_eq_some.mpr ⟨binNamed, old⟩] at absent
        cases absent
      · have noBackup : backupStem (name ++ ".bin") = none := backupStem_bin
        rw [← binNamed, backupStem_backupPathFor] at noBackup
        cases noBackup
    · obtain ⟨original, there, rfl, -, held⟩ := named backup inside name stem
      obtain rfl := Subtype.ext (ImageFiles.existing_eq_some.mp second).1
      rw [held, backups.same _ (.inl there)]
  · intro backup inside name stem directory
    obtain ⟨original, -, rfl, -⟩ := named backup inside name stem
    rcases directory with dot | dots
    · exact absurd dot original.2.2.1
    · exact absurd dots original.2.2.2.1

/-- In a directory without backups every patch that brings no other bytes is admissible, in any
order and any number of times. -/
theorem guarded_of_noBackups
    (opened : CompiledImageReader.openImage json hashing skip display start = .ok reader)
    (canonical : ∃ text, json.manifestText reader.manifest = .ok text ∧
      start.readToString manifestName = .ok text)
    (fresh : ∀ path ∈ start, backupStem path.val = none)
    (single : ∀ segment ∈ reader.manifest.segments,
      start.existing (segment.filename ++ ".bin") = none)
    {patches : List SegmentPatch} (names : ∀ patch ∈ patches, patch.NamesSegment reader.manifest)
    (unchanging : ∀ patch ∈ patches, patch.correctedBytes = [] ∨ ∃ dtype shape,
      reader.tensorBytes patch.tensorName = .ok (patch.correctedBytes, dtype, shape)) :
    Runs.Guarded (Repair.step json hashing) (Admissible json hashing skip display)
      ⟨start, []⟩ patches := by
  -- a patch is harmless as long as the backups are its own kind's, and keeps them so
  have ofPatch : ∀ patch ∈ patches, ∀ repair : Repair,
      OwnBackups start reader.manifest repair.files →
        Harmless json { reader with imageDir := ⟨display, repair.files.read⟩ } repair.files patch ∧
        ∀ path data, repair.files.locate patch.segmentFilename = some (path, data) →
          OwnBackups start reader.manifest (repair.files.backUp path data) := by
    intro patch member repair backups
    have backedUp : ∀ path data, repair.files.locate patch.segmentFilename = some (path, data) →
        OwnBackups start reader.manifest (repair.files.backUp path data) := by
      intro path data located
      obtain ⟨file, held⟩ := ImageFiles.locate_eq_some.mp located
      obtain ⟨entry, segment, -, segmentIn, segmentFile⟩ := names patch member
      have inManifest := (Keyed.mem_of_find segmentIn).1
      obtain ⟨bytes, read, -⟩ := exists_read_of_open opened inManifest
      rw [segmentFile, ← file] at read
      have inside := ImageFiles.mem_of_lookup (ImageFiles.read_eq_ok.mp read)
      exact backups.backUp held inside ⟨segment, inManifest, segmentFile.trans file.symm⟩
    refine ⟨⟨?_, ?_, ?_⟩, backedUp⟩
    · refine (unchanging patch member).imp id ?_
      rintro ⟨dtype, shape, found⟩
      exact ⟨dtype, shape, (backups.same.readerTensorBytes opened _).trans found⟩
    · obtain ⟨text, written, read⟩ := canonical
      exact ⟨text, written, (backups.same.readToString (by decide)).trans read⟩
    · intro path data located
      have current := (backedUp path data located).current opened fresh single
      exact current
  apply Runs.guarded_of_keeps (Repair.step json hashing)
    (P := fun repair => OwnBackups start reader.manifest repair.files)
  · intro repair patch member backups
    exact ⟨_, backups.same.opens opened, (ofPatch patch member repair backups).1⟩
  · intro repair patch member repair' backups taken
    obtain ⟨files', ok, rfl⟩ := Repair.step_eq_some.mp taken
    obtain ⟨harmless, after⟩ := ofPatch patch member repair backups
    obtain ⟨path, data, located, only⟩ :=
      harmless.apply (backups.same.opens opened) (names patch member) ok
    exact (after path data located).congr only
  · exact ⟨onlyBackedUp_self, fun path there => .inl there⟩

end Runs

/-! ### Patches of a small image -/

def smallManifest (hashing : Hashing) : Manifest := (smallImage hashing "persistent").manifest

/-- The directory of a freshly built image, around the texts of its manifest and receipt. -/
theorem isFileName_manifestName : IsFileName manifestName := by decide

def smallFiles (manifestText receiptText : String) : ImageFiles :=
  ((AList.singleton ⟨"segment_000.bin", by decide⟩ [1, 2] : ImageFiles).insert
    ⟨receiptName, by decide⟩ (utf8 receiptText)).insert ⟨manifestName, isFileName_manifestName⟩
      (utf8 manifestText)

def smallPatch (bytes : List UInt8) : SegmentPatch :=
  ⟨"segment_000.bin", "model.norm.weight", bytes, "", ""⟩

section Small

variable {json : ImageJson} {hashing : Hashing} {skip : Bool} {display : String → String}
  {manifestText receiptText : String}

theorem smallFiles_manifest :
    (smallFiles manifestText receiptText).readToString manifestName = .ok manifestText := by
  rw [readToString_ok_iff]
  apply (@ImageFiles.read_eq_ok _ ⟨manifestName, by decide⟩ _).mpr
  exact AList.lookup_insert _

theorem smallFiles_receipt :
    (smallFiles manifestText receiptText).readToString receiptName = .ok receiptText := by
  rw [readToString_ok_iff]
  apply (@ImageFiles.read_eq_ok _ ⟨receiptName, by decide⟩ _).mpr
  unfold smallFiles
  rw [AList.lookup_insert_ne (by decide), AList.lookup_insert]

theorem smallFiles_segment :
    (smallFiles manifestText receiptText).read "segment_000.bin" = .ok [1, 2] := by
  apply (@ImageFiles.read_eq_ok _ ⟨"segment_000.bin", by decide⟩ _).mpr
  unfold smallFiles
  rw [AList.lookup_insert_ne (by decide), AList.lookup_insert_ne (by decide)]
  rfl

theorem smallFiles_names {path : FileName} : path ∈ smallFiles manifestText receiptText ↔
    path.val = manifestName ∨ path.val = receiptName ∨ path.val = "segment_000.bin" := by
  unfold smallFiles
  rw [AList.mem_insert, AList.mem_insert, AList.mem_keys, AList.keys_singleton,
    List.mem_singleton, Subtype.ext_iff, Subtype.ext_iff, Subtype.ext_iff]

def smallReader (hashing : Hashing) (display : String → String) (files : ImageFiles) :
    CompiledImageReader where
  manifest := smallManifest hashing
  receipt := buildCompileReceipt (smallManifest hashing)
  imageDir := ⟨display, files.read⟩

theorem smallFiles_opens
    (parsed : json.parseManifest manifestText = .ok (smallManifest hashing))
    (receipt : json.parseReceipt receiptText = .ok (buildCompileReceipt (smallManifest hashing))) :
    CompiledImageReader.openImage json hashing skip display
        (smallFiles manifestText receiptText) =
      .ok (smallReader hashing display (smallFiles manifestText receiptText)) := by
  refine openImage_ok_iff.mpr ⟨manifestText, smallFiles_manifest, parsed, ?_, rfl,
    ⟨true, true, 1, 2⟩, CompiledImageReader.verify_ok_iff.mpr ⟨.inl rfl, ?_, rfl, [[1, 2]], ?_, rfl⟩⟩
  · rw [ImageFiles.receipt, smallFiles_receipt]
    simp only [Except.toOption, Option.getD_some, receipt]
    rfl
  · exact CompiledImageReader.receiptMatchesManifest_build rfl
  · refine .cons ⟨?_, rfl⟩ .nil
    have file : (smallSegment hashing).filename = "segment_000.bin" := rfl
    have read := @smallFiles_segment manifestText receiptText
    rw [file]
    exact read

theorem smallPatch_names (bytes : List UInt8) :
    (smallPatch bytes).NamesSegment (smallManifest hashing) :=
  ⟨smallEntry "persistent", smallSegment hashing, rfl, rfl, rfl⟩

end Small

/-- The texts of the small image and no others. -/
def smallJson (hashing : Hashing) : ImageJson where
  manifestText manifest :=
    if manifest = smallManifest hashing then .ok "manifest" else .error "not the small image"
  parseManifest text :=
    if text = "manifest" then .ok (smallManifest hashing) else .error "expected value"
  parseReceipt text :=
    if text = "receipt" then .ok (buildCompileReceipt (smallManifest hashing))
    else .error "expected value"

theorem smallImage_keepsPatches :
    Runs.Always (Repair.step (smallJson losslessHashing) losslessHashing)
      (Kept (smallJson losslessHashing) losslessHashing false id
        (smallFiles "manifest" "receipt") (smallManifest losslessHashing))
      ⟨smallFiles "manifest" "receipt", []⟩ [smallPatch [], smallPatch [1, 2]] := by
  have opened : CompiledImageReader.openImage (smallJson losslessHashing) losslessHashing false id
      (smallFiles "manifest" "receipt") =
        .ok (smallReader losslessHashing id (smallFiles "manifest" "receipt")) :=
    smallFiles_opens rfl rfl
  have names : ∀ patch ∈ [smallPatch [], smallPatch [1, 2]],
      patch.NamesSegment (smallManifest losslessHashing) := by
    intro patch member
    obtain rfl | rfl := by simpa using member
    · exact smallPatch_names []
    · exact smallPatch_names [1, 2]
  refine apply_keepsImage opened names (guarded_of_noBackups opened ?_ ?_ ?_ names ?_)
  · exact ⟨"manifest", if_pos rfl, smallFiles_manifest⟩
  · intro path inside
    rcases smallFiles_names.mp inside with named | named | named
    all_goals
      rw [named]
      decide
  · intro segment member
    obtain rfl := List.mem_singleton.mp member
    rw [Option.eq_none_iff_forall_ne_some]
    intro path there
    obtain ⟨bin, inside⟩ := ImageFiles.existing_eq_some.mp there
    rcases smallFiles_names.mp inside with named | named | named
    all_goals
      rw [named] at bin
      revert bin
      decide
  · intro patch member
    obtain rfl | rfl := by simpa using member
    · exact .inl rfl
    · refine .inr ⟨"U8", [2], CompiledImageReader.tensorBytes_ok_iff.mpr ?_⟩
      have read := @smallFiles_segment "manifest" "receipt"
      exact ⟨smallEntry "persistent", smallSegment losslessHashing, [1, 2], rfl, rfl, read,
        by decide, by decide, rfl⟩

/-- With no texts for the manifests and no hash that tells the two payloads apart is the image
kept by every sequence of patches: this one rewrites its only tensor. -/
theorem patches_not_kept : ¬∃ (json : ImageJson) (hashing : Hashing) (receiptText : String),
    (∀ hash, ∃ text,
      json.manifestText ((smallManifest hashing).updateHash "segment_000.bin" hash) = .ok text ∧
      json.parseManifest text =
        .ok ((smallManifest hashing).updateHash "segment_000.bin" hash)) ∧
    json.parseReceipt receiptText = .ok (buildCompileReceipt (smallManifest hashing)) ∧
    hashing.sha256Bytes [1, 2] ≠ hashing.sha256Bytes [3, 4] ∧
    ∀ skip display start reader,
      CompiledImageReader.openImage json hashing skip display start = .ok reader →
      ∀ patches : List SegmentPatch, (∀ patch ∈ patches, patch.NamesSegment reader.manifest) →
      ∀ repair, Runs.exec (Repair.step json hashing) ⟨start, []⟩ patches = some repair →
        Kept json hashing skip display start reader.manifest repair := by
  rintro ⟨json, hashing, receiptText, roundTrips, receipt, differ, claim⟩
  have same : (smallManifest hashing).updateHash "segment_000.bin" (hashing.sha256Bytes [1, 2]) =
      smallManifest hashing := by
    unfold Manifest.updateHash
    rw [updateHash_self]
    intro segment member _
    obtain rfl := List.mem_singleton.mp member
    rfl
  obtain ⟨manifestText, -, parsed⟩ := roundTrips (hashing.sha256Bytes [1, 2])
  obtain ⟨updated, written, -⟩ := roundTrips (hashing.sha256Bytes [3, 4])
  rw [same] at parsed
  have opened : CompiledImageReader.openImage json hashing false id
      (smallFiles manifestText receiptText) =
        .ok (smallReader hashing id (smallFiles manifestText receiptText)) :=
    smallFiles_opens parsed receipt
  obtain ⟨files, ok, after⟩ : ∃ files,
      (smallPatch [3, 4]).apply json hashing (smallFiles manifestText receiptText) = .ok files ∧
        files.read "segment_000.bin" = .ok [3, 4] := by
    have held := ImageFiles.locate_eq_some.mpr
      ⟨rfl, (@ImageFiles.read_eq_ok _ ⟨"segment_000.bin", by decide⟩ _).mp
        (@smallFiles_segment manifestText receiptText)⟩
    refine ⟨_, apply_ok_iff.mpr ⟨manifestText, smallManifest hashing, smallEntry "persistent", _,
      [1, 2], [3, 4], updated, smallFiles_manifest, parsed, rfl, held, by decide, by decide, rfl,
      written, rfl⟩, ?_⟩
    apply (@ImageFiles.read_eq_ok _ ⟨"segment_000.bin", by decide⟩ _).mpr
    rw [AList.lookup_insert_ne (by decide), AList.lookup_insert]
    rfl
  have names : ∀ patch ∈ [smallPatch [3, 4]], patch.NamesSegment (smallManifest hashing) := by
    intro patch member
    obtain rfl := List.mem_singleton.mp member
    exact smallPatch_names [3, 4]
  have run : Runs.exec (Repair.step json hashing) ⟨smallFiles manifestText receiptText, []⟩
      [smallPatch [3, 4]] = some ⟨files, [smallPatch [3, 4]]⟩ :=
    (Runs.exec_cons_iff _ _ _ _ _).mpr ⟨_, Repair.step_eq_some.mpr ⟨files, ok, rfl⟩, rfl⟩
  obtain ⟨reader', opens⟩ := (claim false id _ _ opened _ names _ run).verifies
  -- The file has another hash, and the receipt has the old one.
  have hash := hash_of_opens ok opened (smallPatch_names [3, 4]) (by decide)
    (fun hash text known => by
      obtain ⟨text', written, parsed⟩ := roundTrips hash
      obtain rfl := Except.ok.inj (known.symm.trans written)
      exact parsed)
    opens smallFiles_segment after
  exact differ hash.symm

end TribunusCompute.ComputeImage
