import TribunusCompute.Library.Format

/-!
# The header of a GGUF file

Metadata and tensor inventory are read from a file that is not trusted: lengths, counts and
dimensions are taken as they are. How floats and the places of malformed text are displayed is a
parameter. The frames are the calls of `read_typed_value` for which the stack has room.
-/
namespace TribunusCompute.Gguf

open Outcome

/-- How values are displayed by the standard library. -/
structure Rendering where
  f32 : UInt32 → String
  f64 : UInt64 → String
  utf8Error : List UInt8 → String

structure GgufTensorMeta where
  name : String
  dtype : String
  shape : List ℕ
  byteOffset : ℕ
  byteSize : ℕ
  deriving DecidableEq, Repr

/-! ## Tensor types -/

def ggmlDtypeName : ℕ → String
  | 0 => "f32"
  | 1 => "f16"
  | 2 => "q4_0"
  | 3 => "q4_1"
  | 6 => "q5_0"
  | 7 => "q5_1"
  | 8 => "q8_0"
  | 9 => "q8_1"
  | 10 => "q2_K"
  | 11 => "q3_K"
  | 12 => "q4_K"
  | 13 => "q5_K"
  | 14 => "q6_K"
  | 15 => "q8_K"
  | 16 => "iq1_s"
  | 17 => "iq1_m"
  | 18 => "iq2_xxs"
  | 19 => "iq2_xs"
  | 20 => "iq2_s"
  | 21 => "iq2_m"
  | 22 => "iq3_xxs"
  | 23 => "iq3_xs"
  | 24 => "iq3_s"
  | 26 => "iq4_nl"
  | 27 => "iq4_xs"
  | 28 => "bf16"
  | _ => "unknown"

/-- Elements of a block of a GGML type, and the bytes it is packed into. -/
def ggmlBlockInfo : ℕ → ℕ × ℕ
  | 0 => (1, 4)
  | 1 | 28 => (1, 2)
  | 2 => (32, 18)
  | 3 => (32, 20)
  | 6 => (32, 22)
  | 7 => (32, 24)
  | 8 => (32, 34)
  | 9 => (32, 40)
  | 10 => (256, 72)
  | 11 => (256, 104)
  | 12 => (256, 144)
  | 13 => (256, 176)
  | 14 => (256, 208)
  | 15 => (256, 272)
  -- The IQ types have no such blocks; their sizes are approximations.
  | 16 => (256, 36)
  | 17 => (256, 52)
  | 18 => (256, 36)
  | 19 => (256, 52)
  | 20 => (256, 70)
  | 21 => (256, 86)
  | 22 => (256, 78)
  | 23 => (256, 94)
  | 24 => (256, 110)
  | 26 => (32, 18)
  | 27 => (256, 150)
  | _ => (1, 1)

def ggmlTensorByteSize (dtype : ℕ) (shape : List ℕ) : Outcome ℕ := do
  let totalElems ← shape.foldlM (fun product d => fit 64 (product * d)) 1
  if totalElems = 0 then return 0
  let (blockSize, typeSize) := ggmlBlockInfo dtype
  let numBlocks := (totalElems + blockSize - 1) / blockSize
  fit 64 (numBlocks * typeSize)

/-! ## Reading -/

/-- What is reported where the file ends too early. -/
def eof (doing : String) : String := doing ++ ": failed to fill whole buffer"

/-- Room for this many elements of `size` bytes; a capacity of more than `isize::MAX` bytes
panics. -/
def allocate (size count : ℕ) : Reader UInt8 Unit := Reader.call (assert (size * count < 2 ^ 63))

def readU32Le : Reader UInt8 ℕ := Reader.word 4 (eof "GGUF read u32")

def readU64Le : Reader UInt8 ℕ := Reader.word 8 (eof "GGUF read u64")

/-- The counts of the first version have 32 bits. -/
def readCount (version : ℕ) : Reader UInt8 ℕ := if version ≥ 2 then readU64Le else readU32Le

/-- The text with these bytes. -/
def fromUtf8 (render : Rendering) (bytes : List UInt8) : Outcome String :=
  orReport ("Invalid UTF-8 in GGUF string: " ++ render.utf8Error bytes)
    (String.fromUTF8? ⟨⟨bytes⟩⟩)

def readString (render : Rendering) : Reader UInt8 String := do
  let len ← readU64Le
  allocate 1 len
  let buf ← Reader.exactly len (eof "GGUF read string")
  Reader.call (fromUtf8 render buf)

inductive GgufType
  | uint8 | int8 | uint16 | int16 | uint32 | int32 | float32 | bool | string | array | uint64
  | int64 | float64 | bf16
  | unknown (tag : ℕ)
  deriving DecidableEq, Repr

def GgufType.ofTag : ℕ → GgufType
  | 0 => uint8
  | 1 => int8
  | 2 => uint16
  | 3 => int16
  | 4 => uint32
  | 5 => int32
  | 6 => float32
  | 7 => bool
  | 8 => string
  | 9 => array
  | 10 => uint64
  | 11 => int64
  | 12 => float64
  | 13 => bf16
  | tag => unknown tag

/-- Bytes of a value that is neither a string nor an array, and what is being done while they are
read; of a value of an unknown type the least that a value has is skipped. -/
def GgufType.payload : GgufType → ℕ × String
  | uint8 => (1, "GGUF read u8")
  | int8 => (1, "GGUF read i8")
  | uint16 => (2, "GGUF read u16")
  | int16 => (2, "GGUF read i16")
  | uint32 => (4, "GGUF read u32")
  | int32 => (4, "GGUF read i32")
  | float32 => (4, "GGUF read f32")
  | bool => (1, "GGUF read bool")
  | uint64 => (8, "GGUF read u64")
  | int64 => (8, "GGUF read i64")
  | float64 => (8, "GGUF read f64")
  | bf16 => (2, "GGUF read bf16")
  | string | array => (0, "")
  | unknown tag => (4, "GGUF unknown type " ++ toString tag)

/-- The text of such a value, whose bytes are those of the number. -/
def GgufType.text (render : Rendering) (n : ℕ) : GgufType → String
  | uint8 | uint16 | uint32 | uint64 => toString n
  | int8 => toString (BitVec.ofNat 8 n).toInt
  | int16 => toString (BitVec.ofNat 16 n).toInt
  | int32 => toString (BitVec.ofNat 32 n).toInt
  | int64 => toString (BitVec.ofNat 64 n).toInt
  | float32 => render.f32 (UInt32.ofNat n)
  | float64 => render.f64 (UInt64.ofNat n)
  -- The bits of a bf16 are the upper half of those of a single.
  | bf16 => render.f32 (UInt32.ofNat (n * 2 ^ 16))
  | bool => if n = 0 then "false" else "true"
  | string | array => ""
  | unknown tag => "<unknown_type_" ++ toString tag ++ ">"

/-- A value of the tag's type; the elements of an array take a frame more. -/
def readTypedValue (render : Rendering) : ℕ → ℕ → Reader UInt8 String
  | 0, _ => Reader.call panics
  | frames + 1, tag =>
    match GgufType.ofTag tag with
    | .string => readString render
    | .array => do
      let elemType ← readU32Le
      let count ← readU64Le
      allocate 24 count
      let elems ← (readTypedValue render frames elemType).times count
      return "[" ++ ", ".intercalate elems ++ "]"
    | typ => do
      let n ← Reader.word typ.payload.1 (eof typ.payload.2)
      return typ.text render n

def readMetadata (render : Rendering) (frames : ℕ) : Reader UInt8 (String × String) := do
  let key ← readString render
  let valueType ← readU32Le
  let value ← readTypedValue render frames valueType
  return (key, value)

def readTensorInfo (render : Rendering) : Reader UInt8 GgufTensorMeta := do
  let name ← readString render
  let nDims ← readU32Le
  allocate 4 nDims
  let dims ← readU32Le.times nDims
  let dtype ← readU32Le
  let byteOffset ← readU64Le
  let byteSize ← Reader.call (ggmlTensorByteSize dtype dims)
  return { name, dtype := ggmlDtypeName dtype, shape := dims, byteOffset, byteSize }

def ggufMagic : List UInt8 := [71, 71, 85, 70]

def debugBytes (bytes : List UInt8) : String :=
  "[" ++ ", ".intercalate (bytes.map fun byte => toString byte.toNat) ++ "]"

def readHeader (render : Rendering) (frames : ℕ) :
    Reader UInt8 (List (String × String) × List GgufTensorMeta) := do
  let magic ← Reader.exactly 4 (eof "GGUF read magic")
  Reader.call <| require (magic = ggufMagic)
    ("Not a GGUF file: magic=" ++ debugBytes magic ++ " expected b\"GGUF\"")
  let version ← readU32Le
  Reader.call <| require (1 ≤ version ∧ version ≤ 3)
    ("Unsupported GGUF version " ++ toString version ++ " (supported: 1-3)")
  let tensorCount ← readCount version
  let metadataKvCount ← readCount version
  allocate 48 metadataKvCount
  let metadata ← (readMetadata render frames).times metadataKvCount
  allocate 88 tensorCount
  let tensors ← (readTensorInfo render).times tensorCount
  return (metadata, tensors)

def parseGgufHeader (render : Rendering) (frames : ℕ) (file : List UInt8) :
    Outcome (List (String × String) × List GgufTensorMeta) :=
  (readHeader render frames file).map Prod.fst

end TribunusCompute.Gguf
