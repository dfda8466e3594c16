import TribunusCompute.Library.Blocks
import TribunusCompute.Library.Ieee
import TribunusCompute.Library.LittleEndian
import TribunusCompute.Library.Nibbles
import TribunusCompute.Library.Text
import TribunusCompute.ComputeImage.Source

/-!
# Compile-time quantization

The half-precision weights of a loaded source are quantized in groups along their rows, to
4-bit codes of a fixed codebook or to 8-bit affine codes. Each weight gets two companions,
the scales and the biases of its groups.
-/
namespace TribunusCompute.ComputeImage

inductive CompileQuantMode
  | nf4 (groupSize : ℕ)
  | af8 (groupSize : ℕ)
  deriving DecidableEq, Repr

def CompileQuantMode.groupSize : CompileQuantMode → ℕ
  | nf4 groupSize => groupSize
  | af8 groupSize => groupSize

/-- The single-precision arithmetic that the quantizers use. -/
structure F32 (R : Type) where
  fromBits : ℕ → R
  literal : ℚ → R
  sub : R → R → R
  mul : R → R → R
  div : R → R → R
  abs : R → R
  min : R → R → R
  max : R → R → R
  round : R → R
  copysign : R → R → R
  lt : R → R → Bool
  toU8 : R → UInt8
  toLeBytes : R → List UInt8

/-- `f32::MAX`. -/
def f32Max : ℚ := (2 ^ 24 - 1) * 2 ^ 104

def F32.machine : F32 Float32 where
  fromBits bits := Float32.ofBits (UInt32.ofNat bits)
  literal x := (Float.ofInt x.num / Float.ofNat x.den).toFloat32
  sub := (· - ·)
  mul := (· * ·)
  div := (· / ·)
  abs := Float32.abs
  -- A NaN gives way to the other operand.
  min x y := if x.isNaN then y else if y < x then y else x
  max x y := if x.isNaN then y else if x < y then y else x
  round := Float32.round
  copysign x y := Float32.ofBits (x.abs.toBits ||| (y.toBits &&& 0x80000000))
  lt x y := x < y
  toU8 := Float32.toUInt8
  toLeBytes x := LittleEndian.encode 4 x.toBits.toNat

section Arithmetic

variable {R : Type} (f32 : F32 R)

def F32.clamp (x lower upper : R) : R :=
  let x := if f32.lt x lower then lower else x
  if f32.lt upper x then upper else x

/-! ## Groups -/

/-- The 4-bit levels. -/
def nf4Codebook : List ℚ :=
  [-1, -0.848, -0.5698, -0.394, -0.2419, -0.1057, 0, 0.1057, 0.2419, 0.394, 0.5698, 0.848,
    1, 1.2588, 1.5862, 2]

/-- One turn of the search for the nearest level: the best index so far, and its distance. -/
def nearerLevel (value : R) (best : ℕ × R) (candidate : ℚ × ℕ) : ℕ × R :=
  let dist := f32.abs (f32.sub value (f32.literal candidate.1))
  if f32.lt dist best.2 then (candidate.2, dist) else best

def quantizeNf4Value (value : R) : ℕ :=
  ((nf4Codebook.zipIdx.drop 1).foldl (nearerLevel f32 value)
    (0, f32.abs (f32.sub value (f32.literal (-1))))).1

def quantizeNf4Group (values : List R) : List ℕ × R × R :=
  if values.isEmpty then ([0], f32.literal 0, f32.literal 0)
  else
    let absmax := (values.map f32.abs).foldl f32.max (f32.literal 0)
    let scale := if f32.lt (f32.literal 1e-12) absmax then absmax else f32.literal 1
    let invScale := f32.div (f32.literal 1) scale
    let codes := values.map fun val =>
      quantizeNf4Value f32 (f32.clamp (f32.mul val invScale) (f32.literal (-1)) (f32.literal 1))
    (Nibbles.pack codes ((values.length + 7) / 8), scale, f32.literal 0)

def quantizeAf8Group (values : List R) : List UInt8 × R × R :=
  if values.isEmpty then ([0], f32.literal 0, f32.literal 0)
  else
    let minVal := values.foldl f32.min (f32.literal f32Max)
    let maxVal := values.foldl f32.max (f32.literal (-f32Max))
    let range := f32.sub maxVal minVal
    let scale :=
      if f32.lt (f32.literal 1e-12) range then f32.div range (f32.literal 255)
      else f32.div (f32.literal 1) (f32.literal 255)
    let codes := values.map fun v =>
      f32.toU8 (f32.clamp (f32.round (f32.div (f32.sub v minVal) scale)) (f32.literal 0)
        (f32.literal 255))
    (codes, scale, minVal)

/-! ## Conversion of halves -/

/-- Little-endian pairs of bytes; an odd byte at the end is left out. -/
def halves : List UInt8 → List ℕ
  | low :: high :: rest => (low.toNat + 256 * high.toNat) :: halves rest
  | _ => []

def halfToF32 (bits : ℕ) : R :=
  let sign := (bits >>> 15) &&& 1
  let exp := (bits >>> 10) &&& 0x1f
  let mantissa := bits &&& 0x3ff
  if exp = 0 then
    if mantissa = 0 then
      f32.copysign (f32.literal 0)
        (f32.sub (f32.literal 1) (f32.mul (f32.literal 2) (f32.literal sign)))
    else
      f32.mul
        (f32.fromBits (sign <<< 31 ||| ((102 - 14 + 127) <<< 23 ||| mantissa <<< 13)))
        (f32.div (f32.literal 1) (f32.literal 16777216))
  else if exp = 31 then
    f32.fromBits (sign <<< 31 ||| (255 <<< 23 ||| mantissa <<< 13))
  else
    f32.fromBits (sign <<< 31 ||| ((exp + 127 - 15) <<< 23 ||| mantissa <<< 13))

def f32Vals (dtype : String) (raw : List UInt8) : List R :=
  if dtype = "BF16" then (halves raw).map fun bits => f32.fromBits (bits <<< 16)
  else (halves raw).map (halfToF32 f32)

/-! ## Weights -/

/-- The values of a matrix from `start` to before `stop`. -/
def sliceOf (values : List R) (start stop : ℕ) : Outcome (List R) :=
  if start ≤ stop ∧ stop ≤ values.length then .ok ((values.drop start).take (stop - start))
  else Outcome.panics

structure Packing (R α : Type) where
  packed : List α
  scales : List R
  biases : List R

/-- How a quantizer lays its codes out: where those of a group start, and what happens to one
that falls outside. -/
structure Quantizer (R α : Type) where
  quantize : List R → List α × R × R
  place : ℕ → ℕ → ℕ
  outside : (row g wi idx len : ℕ) → Fault

/-- One turn of the loops over the rows and the groups of a row. -/
def packGroup {α : Type} (q : Quantizer R α) (values : List R) (inDim gs : ℕ)
    (packing : Packing R α) (group : ℕ × ℕ) : Outcome (Packing R α) := do
  let (row, g) := group
  let rowOffset := row * inDim
  let groupStart := rowOffset + g * gs
  let groupEnd := min (groupStart + gs) (rowOffset + inDim)
  let groupVals ← sliceOf values groupStart groupEnd
  let (codes, scale, bias) := q.quantize groupVals
  let packed ← codes.zipIdx.foldlM (fun packed (code, wi) =>
      let idx := q.place row g + wi
      Blocks.store (q.outside row g wi idx packed.length) packed idx code) packing.packed
  return ⟨packed, packing.scales ++ [scale], packing.biases ++ [bias]⟩

structure QuantizedWeight where
  data : List UInt8
  dtype : String
  scales : List UInt8
  biases : List UInt8
  packedShape : PackedLinearShapes
  deriving DecidableEq, Repr

def af8Quantizer (inDim gs : ℕ) : Quantizer R UInt8 where
  quantize := quantizeAf8Group f32
  place row g := row * inDim + g * gs
  outside _ _ _ _ _ := .panicked

/-- `apply_af8_quantize`, up to storing the result. -/
def af8Weight (values : List R) (outDim inDim groupSize groupsPerRow : ℕ) :
    Outcome QuantizedWeight := do
  let packing ← (Blocks.cells outDim groupsPerRow).foldlM
    (packGroup (af8Quantizer f32 inDim groupSize) values inDim groupSize)
    ⟨List.replicate (outDim * inDim) 0, [], []⟩
  let packedIn := inDim / 4
  return {
    data := packing.packed
    dtype := "U8"
    scales := packing.scales.flatMap f32.toLeBytes
    biases := packing.biases.flatMap f32.toLeBytes
    packedShape := {
      weight := [outDim, packedIn]
      scales := [outDim, groupsPerRow]
      biases := [outDim, groupsPerRow]
      bits := 8
      groupSize
      groups := groupsPerRow * outDim
    }
  }

def nf4Quantizer (outDim inDim packedIn gs groupsPerRow : ℕ) : Quantizer R ℕ where
  quantize := quantizeNf4Group f32
  place row g := row * packedIn + g * ((gs + 7) / 8)
  outside row g wi idx len := .reported
    ("OOB: row=" ++ toString row ++ " g=" ++ toString g ++ " wi=" ++ toString wi ++ " idx=" ++
      toString idx ++ " len=" ++ toString len ++ " out=" ++ toString outDim ++ " in=" ++
      toString inDim ++ " packed_in=" ++ toString packedIn ++ " gpr=" ++ toString groupsPerRow)

/-- `apply_nf4_quantize`, up to storing the result. -/
def nf4Weight (values : List R) (outDim inDim groupSize groupsPerRow : ℕ) :
    Outcome QuantizedWeight := do
  let packedIn := (inDim + 7) / 8
  let packing ← (Blocks.cells outDim groupsPerRow).foldlM
    (packGroup (nf4Quantizer f32 outDim inDim packedIn groupSize groupsPerRow) values inDim
      groupSize)
    ⟨List.replicate (outDim * packedIn) 0, [], []⟩
  return {
    data := packing.packed.flatMap (LittleEndian.encode 4)
    dtype := "U32"
    scales := packing.scales.flatMap f32.toLeBytes
    biases := List.replicate (outDim * groupsPerRow * 4) 0
    packedShape := {
      weight := [outDim, packedIn]
      scales := [outDim, groupsPerRow]
      biases := [outDim, groupsPerRow]
      bits := 4
      groupSize
      groups := groupsPerRow * outDim
    }
  }

def quantizeMatrix (qmode : CompileQuantMode) (dtype : String) (raw : List UInt8)
    (outDim inDim : ℕ) : Outcome QuantizedWeight := do
  let values := f32Vals f32 dtype raw
  let groupSize := qmode.groupSize
  let padded ← Outcome.fit 32 (inDim + groupSize)
  let groupsPerRow ← Outcome.quotient (padded - 1) groupSize
  let _ ← Outcome.fit 32 (outDim * groupsPerRow)
  match qmode with
  | .nf4 _ => nf4Weight f32 values outDim inDim groupSize groupsPerRow
  | .af8 _ => af8Weight f32 values outDim inDim groupSize groupsPerRow

/-! ## The loaded source -/

def stem (weightName : String) : String := (Suffix.strip ".weight" weightName).getD weightName

def scalesName (weightName : String) : String := stem weightName ++ ".scales"

def biasesName (weightName : String) : String := stem weightName ++ ".biases"

def companion (name : String) (shape : List ℕ) (data : List UInt8) : SourceTensor where
  name
  dtype := "F32"
  shape
  data
  sourceFilename := ""
  sourceSha256 := ""
  sourceOffset := 0

def TensorBinding.describe (binding : TensorBinding) (weightName : String)
    (packedShape : PackedLinearShapes) : TensorBinding :=
  if binding.name = weightName ∧ binding.packedShape = none then
    { binding with packedShape := some packedShape }
  else binding

def ExecutionSpec.mapBindings (spec : ExecutionSpec) (change : TensorBinding → TensorBinding) :
    ExecutionSpec :=
  { spec with
    globalTensors := spec.globalTensors.map change
    layers := spec.layers.map fun layer => { layer with tensors := layer.tensors.map change } }

/-- Replace a weight, add its companions and describe its packing. -/
def LoadedSource.store (loaded : LoadedSource) (weightName : String) (q : QuantizedWeight) :
    LoadedSource :=
  let replaced := match loaded.sourceTensors.lookup weightName with
    | some st => loaded.sourceTensors.insert weightName
        { st with data := q.data, dtype := q.dtype, shape := q.packedShape.weight }
    | none => loaded.sourceTensors
  let scaled := replaced.insert (scalesName weightName)
    (companion (scalesName weightName) q.packedShape.scales q.scales)
  { loaded with
    sourceTensors := scaled.insert (biasesName weightName)
      (companion (biasesName weightName) q.packedShape.biases q.biases)
    spec := loaded.spec.mapBindings fun binding => binding.describe weightName q.packedShape }

/-- The names of the weights, in the order in which they are quantized. -/
def weightBindings (spec : ExecutionSpec) : List String :=
  (spec.bindings.map TensorBinding.name).filter fun name =>
    (Suffix.strip ".weight" name).isSome

/-- One turn of the loop over the weights: only matrices of halves are quantized. -/
def quantizeBinding (qmode : CompileQuantMode) (loaded : LoadedSource) (name : String) :
    Outcome LoadedSource := do
  let sourceTensor ← Outcome.orReport ("quantize: missing source tensor '" ++ name ++ "'")
    (loaded.sourceTensors.lookup name)
  let dtype := sourceTensor.dtype
  if dtype ≠ "F16" ∧ dtype ≠ "BF16" then return loaded
  else
    match sourceTensor.shape with
    | [outDim, inDim] => do
      let q ← quantizeMatrix f32 qmode dtype sourceTensor.data outDim inDim
      return loaded.store name q
    | _ => return loaded

def applyQuantizeToLoaded (loaded : LoadedSource) (qmode : CompileQuantMode) :
    Outcome LoadedSource :=
  (weightBindings loaded.spec).foldlM (quantizeBinding f32 qmode) loaded

end Arithmetic

end TribunusCompute.ComputeImage
