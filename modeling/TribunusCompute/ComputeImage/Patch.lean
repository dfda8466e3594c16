import TribunusCompute.ComputeImage.Manifest

/-!
# Patches of an image

A patch rewrites the bytes of one tensor inside its segment file and records the new hash of
the file in the manifest. The file is backed up before, unless it has a backup already. A
rollback copies each backup in the directory over a file it takes for the original.
-/
namespace TribunusCompute.ComputeImage

open Outcome

/-! ## Image directories -/

/-- A name that stands for a file of the directory, not for the directory or a path out of it. -/
def IsFileName (name : String) : Prop :=
  name ≠ "" ∧ name ≠ "." ∧ name ≠ ".." ∧ '/' ∉ name.toList

instance (name : String) : Decidable (IsFileName name) := inferInstanceAs (Decidable (_ ∧ _))

abbrev FileName := {name : String // IsFileName name}

def fileName? (name : String) : Option FileName :=
  if plain : IsFileName name then some ⟨name, plain⟩ else none

abbrev ImageFiles := AList fun _ : FileName => List UInt8

def notFound : String := "No such file or directory (os error 2)"
def isADirectory : String := "Is a directory (os error 21)"

def utf8 (text : String) : List UInt8 := text.toByteArray.data.toList

namespace ImageFiles

variable (files : ImageFiles)

def locate (name : String) : Option (FileName × List UInt8) :=
  (fileName? name).bind fun path => (files.lookup path).map fun bytes => (path, bytes)

def read (name : String) : Except String (List UInt8) :=
  match files.locate name with
  | some (_, bytes) => .ok bytes
  | none => .error notFound

def readToString (name : String) : Except String String :=
  match files.read name with
  | .ok bytes =>
    match String.fromUTF8? ⟨bytes.toArray⟩ with
    | some text => .ok text
    | none => .error "stream did not contain valid UTF-8"
  | .error e => .error e

/-- `image_dir.join(name).exists()` of a name that is not the directory itself. -/
def existing (name : String) : Option FileName := (files.locate name).map Prod.fst

end ImageFiles

/-- The texts `serde_json` writes and reads. -/
structure ImageJson where
  manifestText : Manifest → Except String String
  parseManifest : String → Except String Manifest
  parseReceipt : String → Except String CompileReceipt

def CompileReceipt.default : CompileReceipt := ⟨"", "", "", [], 0, 0, 0, 0⟩

def manifestName : String := "manifest.json"
def receiptName : String := "receipt.json"

/-! ## Opening -/

section Reading

variable (json : ImageJson) (hashing : Hashing) (skip : Bool) (display : String → String)

/-- A receipt that is missing or does not parse is a default one. -/
def ImageFiles.receipt (files : ImageFiles) : CompileReceipt :=
  match json.parseReceipt ((files.readToString receiptName).toOption.getD "") with
  | .ok receipt => receipt
  | .error _ => .default

def CompiledImageReader.openImage (files : ImageFiles) : Outcome CompiledImageReader := do
  let manifestJson ← reportIn ("read manifest " ++ display manifestName)
    (files.readToString manifestName)
  let manifest ← reportIn "parse manifest" (json.parseManifest manifestJson)
  let reader : CompiledImageReader :=
    { manifest, receipt := files.receipt json, imageDir := ⟨display, files.read⟩ }
  let _ ← reader.verify hashing skip
  return reader

/-- `tensor_bytes` of the image that the directory opens as. -/
def ImageFiles.tensorBytes (files : ImageFiles) (name : String) :
    Outcome (List UInt8 × String × List ℕ) := do
  let reader ← CompiledImageReader.openImage json hashing skip display files
  reader.tensorBytes name

end Reading

/-! ## Patches -/

structure SegmentPatch where
  segmentFilename : String
  tensorName : String
  correctedBytes : List UInt8
  newSha256 : String
  reason : String
  deriving DecidableEq, Repr

def backupExtension : String := ".bak"

theorem isFileName_append {name : String} (plain : name ≠ "" ∧ '/' ∉ name.toList)
    {suffix : String} (longSuffix : '/' ∉ suffix.toList ∧ 2 ≤ suffix.toList.length) :
    IsFileName (name ++ suffix) := by
  have letters : name.toList ≠ [] := fun none => plain.1 (String.toList_eq_nil_iff.mp none)
  have long : 3 ≤ (name ++ suffix).toList.length := by
    have some := List.length_pos_iff.mpr letters
    rw [String.toList_append, List.length_append]
    omega
  refine ⟨?_, ?_, ?_, ?_⟩
  iterate 3
    intro same
    rw [same] at long
    revert long
    decide
  rw [String.toList_append, List.mem_append]
  exact not_or.mpr ⟨plain.2, longSuffix.1⟩

/-- The backup of a segment file, beside it. -/
def backupPathFor (path : FileName) : FileName :=
  ⟨path.val ++ backupExtension, isFileName_append ⟨path.2.1, path.2.2.2.2⟩ (by decide)⟩

def ImageFiles.backUp (files : ImageFiles) (path : FileName) (bytes : List UInt8) : ImageFiles :=
  if backupPathFor path ∈ files then files else files.insert (backupPathFor path) bytes

def updateHash (filename hash : String) : List Segment → List Segment
  | [] => []
  | seg :: segments =>
    if seg.filename = filename then { seg with sha256 := hash } :: segments
    else seg :: updateHash filename hash segments

/-- The manifest with the hash in the first segment of the file, and nothing else changed. -/
def Manifest.updateHash (manifest : Manifest) (filename hash : String) : Manifest :=
  { manifest with segments := ComputeImage.updateHash filename hash manifest.segments }

def splice (data : List UInt8) (offset : ℕ) (bytes : List UInt8) : List UInt8 :=
  data.take offset ++ bytes ++ data.drop (offset + bytes.length)

namespace SegmentPatch

variable (json : ImageJson) (hashing : Hashing) (display : String → String)
  (patch : SegmentPatch)

/-- Without corrected bytes the tensor is written as it stands. -/
def writeBytes (segmentData : List UInt8) (offset byteLen : ℕ) : Outcome (List UInt8) :=
  if patch.correctedBytes = [] then .ok ((segmentData.drop offset).take byteLen)
  else do
    require (patch.correctedBytes.length = byteLen)
      ("corrected_bytes length " ++ toString patch.correctedBytes.length ++
        " does not match tensor byte_length " ++ toString byteLen)
    return patch.correctedBytes

/-- Apply the patch to the directory. What a call that fails leaves behind is not modelled. -/
def apply (files : ImageFiles) : Outcome ImageFiles := do
  let manifestJson ← reportIn "read manifest" (files.readToString manifestName)
  let manifest ← reportIn "parse manifest" (json.parseManifest manifestJson)
  let tensor ← orReport ("tensor " ++ patch.tensorName ++ " not found in manifest")
    (Keyed.find TensorEntry.name manifest.tensorTable patch.tensorName)
  let (segmentPath, segmentData) ← orReport ("read segment: " ++ notFound)
    (files.locate patch.segmentFilename)
  let offset := tensor.offset
  let byteLen := tensor.byteLength
  let «end» ← fit 64 (offset + byteLen)
  require («end» ≤ segmentData.length)
    ("tensor " ++ patch.tensorName ++ " at offset " ++ toString offset ++ " + byte_len " ++
      toString byteLen ++ " exceeds segment size " ++ toString segmentData.length)
  let writeBytes ← patch.writeBytes segmentData offset byteLen
  -- Only the segment file is backed up, not the manifest.
  let files := files.backUp segmentPath segmentData
  let segmentData := splice segmentData offset writeBytes
  let newSegmentHash := hashing.sha256Bytes segmentData
  let files := files.insert segmentPath segmentData
  let manifest := manifest.updateHash patch.segmentFilename newSegmentHash
  let updatedManifest ← reportIn "serialize manifest" (json.manifestText manifest)
  return files.insert ⟨manifestName, by decide⟩ (utf8 updatedManifest)

/-! ## Rolling back -/

def backupStem (name : String) : Option String :=
  match name.toList.reverse with
  | 'k' :: 'a' :: 'b' :: '.' :: last :: rest => some (String.ofList (last :: rest).reverse)
  | _ => none

/-- The contents of a backup over another file, and the backup gone. -/
def restore (files : ImageFiles) (backup target : FileName) :
    Outcome (ImageFiles × Bool) := do
  let bytes ← orReport ("restore " ++ display target.val ++ ": " ++ notFound)
    (files.lookup backup)
  return ((files.insert target bytes).erase backup, true)

/-- One entry of the directory, with whether a file was restored yet. The file with `bin` for
the extension is preferred to the one without the extension. -/
def restoreEntry (state : ImageFiles × Bool) (path : FileName) : Outcome (ImageFiles × Bool) :=
  match backupStem path.val with
  | none => .ok state
  | some name =>
    match state.1.existing (name ++ ".bin") with
    | some originalPath => restore display state.1 path originalPath
    | none =>
      if name = "." ∨ name = ".." then
        report ("restore " ++ display name ++ ": " ++ isADirectory)
      else
        match state.1.existing name with
        | some target => restore display state.1 path target
        | none => .ok state

/-- Roll back from the backups, which `read_dir` lists in some order with the other files. -/
def rollback (order : List FileName) (files : ImageFiles) : Outcome ImageFiles := do
  let (files, restoredAny) ← order.foldlM (restoreEntry display) (files, false)
  require (restoredAny = true) "no backup files found to restore"
  return files

end SegmentPatch

end TribunusCompute.ComputeImage
