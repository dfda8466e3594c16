import TribunusCompute.ComputeImage.LayoutTransform
import TribunusCompute.ComputeImage.RoundTrip

/-!
# Prepacking an image's weights

Quantized weights with scales and biases in their segment are packed together with them. A first
pass over all tensors finds out whether there are any; a second one rewrites every segment.
-/
namespace TribunusCompute.ComputeImage

open Outcome LayoutTransform

/-! ## Eligible weights -/

/-- The positions of the scales and the biases of a weight in its segment. -/
def companionsOf (tensors : List TensorEntry) (t : TensorEntry) : Option (ℕ × ℕ) := do
  let base ← Suffix.strip ".weight" t.name
  let position (name : String) :=
    tensors.findIdx? fun e => e.name == name && e.segment == t.segment
  if t.storageDtype = "U8" then
    let scaleIdx ← position (base ++ ".scales")
    let biasIdx ← position (base ++ ".biases")
    return (scaleIdx, biasIdx)
  else none

def groupSizeOf (t : TensorEntry) : ℕ := (t.quantization.map (·.groupSize)).getD 64

/-- The test of the first pass, for matrices only. -/
def isTriplet (tensors : List TensorEntry) (t : TensorEntry) : Outcome Bool :=
  match companionsOf tensors t, t.logicalShape with
  | some _, [k, _] =>
    if groupSizeOf t = 0 then panics else .ok (decide (k % groupSizeOf t = 0))
  | _, _ => .ok false

/-- A weight to be packed: where its companions are, and its dimensions. -/
structure Triplet where
  scales : ℕ
  biases : ℕ
  k : ℕ
  n : ℕ
  groupSize : ℕ
  deriving DecidableEq, Repr

/-- The test of the second pass, which indexes the shape without counting its dimensions. -/
def tripletOf (tensors : List TensorEntry) (t : TensorEntry) : Outcome (Option Triplet) :=
  match companionsOf tensors t with
  | none => .ok none
  | some (scales, biases) =>
    match t.logicalShape with
    | k :: n :: _ =>
      if groupSizeOf t = 0 then panics
      else if k % groupSizeOf t = 0 then .ok (some ⟨scales, biases, k, n, groupSizeOf t⟩)
      else .ok none
    | _ => panics

/-! ## Packing -/

/-- `&payload[start..start + len]`. -/
def slicePayload (payload : List UInt8) (range : ℕ × ℕ) : Outcome (List UInt8) := do
  let stop ← Outcome.fit 64 (range.1 + range.2)
  Outcome.assert (stop ≤ payload.length)
  return Tiling.slice payload range.1 range.2

/-- The singles in a byte string, by their bits; what is left over is not read. -/
def floatsOf (bytes : List UInt8) : List UInt32 :=
  (List.range (bytes.length / 4)).map fun i =>
    UInt32.ofNat (LittleEndian.decode (Tiling.slice bytes (4 * i) 4))

/-- The address of a range is one of a single. A payload with bytes is allocated at such an
address, an empty one is not. -/
def Aligned (payload : List UInt8) (range : ℕ × ℕ) : Prop :=
  0 < payload.length ∧ range.1 % 4 = 0

instance (payload : List UInt8) (range : ℕ × ℕ) : Decidable (Aligned payload range) :=
  inferInstanceAs (Decidable (_ ∧ _))

/-- `from_raw_parts` of singles, which must not be called with any other address: a build that
checks the address stops there. -/
def sliceFloats (payload : List UInt8) (range : ℕ × ℕ) (bytes : List UInt8) :
    Outcome (List UInt32) := do
  Outcome.assert (Aligned payload range)
  return floatsOf bytes

/-- The packed bytes of a weight that has these ranges of the payload. -/
def packTriplet (payload : List UInt8) (weight scales biases : ℕ × ℕ) (triplet : Triplet) :
    Outcome (List UInt8) := do
  let weightBytes ← slicePayload payload weight
  let scaleBytes ← slicePayload payload scales
  let biasBytes ← slicePayload payload biases
  let scaleFloats ← sliceFloats payload scales scaleBytes
  let biasFloats ← sliceFloats payload biases biasBytes
  prepackPipeline weightBytes scaleFloats biasFloats triplet.k triplet.n triplet.groupSize

/-- The physical shape of a packed weight, in 32-bit arithmetic. -/
def packedShape (triplet : Triplet) : Outcome ℕ := do
  let groups ← Outcome.fit 32 (triplet.n * (triplet.k / triplet.groupSize))
  let width ← Outcome.fit 32 (triplet.groupSize + 2)
  Outcome.fit 32 (groups * width)

def rangeAt (tensors : List TensorEntry) (i : ℕ) : ℕ × ℕ :=
  (tensors[i]?.map TensorEntry.range).getD (0, 0)

def packEntry (here length shape : ℕ) (t : TensorEntry) : TensorEntry :=
  { t with
    offset := here
    byteLength := length
    physicalShape := [shape]
    storageDtype := "U8"
    layoutVersion := 2 }

def absorbEntry (here : ℕ) (t : TensorEntry) : TensorEntry :=
  { t with byteLength := 0, offset := here }

def packEntries (tensors : List TensorEntry) (i : ℕ) (triplet : Triplet)
    (here length shape : ℕ) : List TensorEntry :=
  ((tensors.modify i (packEntry here length shape)).modify triplet.scales
    (absorbEntry here)).modify triplet.biases (absorbEntry here)

/-- The table with a tensor at another offset, if it is another one. -/
def moveEntry (tensors : List TensorEntry) (i : ℕ) (t : TensorEntry) (here : ℕ) :
    List TensorEntry :=
  if here ≠ t.offset then tensors.modify i fun t => { t with offset := here } else tensors

/-- What a turn does with the tensor at position `ti`: pack it, pass it, or copy it. -/
def rewriteEntry (payload : List UInt8) (tensors : List TensorEntry) (newPayload : List UInt8)
    (ti : ℕ) (t : TensorEntry) : Option Triplet → Outcome (List TensorEntry × List UInt8)
  | some triplet => do
    let packed ← packTriplet payload t.range (rangeAt tensors triplet.scales)
      (rangeAt tensors triplet.biases) triplet
    let _ ← Outcome.fit 63 (newPayload.length + packed.length)
    let shape ← packedShape triplet
    return (packEntries tensors ti triplet newPayload.length packed.length shape,
      newPayload ++ packed)
  | none =>
    if t.byteLength = 0 then return (tensors, newPayload)
    else do
      let piece ← slicePayload payload t.range
      let _ ← Outcome.fit 63 (newPayload.length + piece.length)
      return (moveEntry tensors ti t newPayload.length, newPayload ++ piece)

/-- One turn of the loop over the tensors of a segment: the table and the new payload. -/
def rewriteTensor (payload : List UInt8) (state : List TensorEntry × List UInt8) (id : ℕ) :
    Outcome (List TensorEntry × List UInt8) :=
  let (tensors, newPayload) := state
  match tensors.findIdx? (·.id == id), tensors.find? (·.id == id) with
  | some ti, some t => do
    let eligible ← tripletOf tensors t
    rewriteEntry payload tensors newPayload ti t eligible
  | _, _ => panics

/-- Each segment in turn, in place; of a segment only its size is updated. -/
def rewriteSegments : List TensorEntry → List Segment → List (List UInt8) →
    Outcome (List TensorEntry × List Segment × List (List UInt8))
  | tensors, [], payloads => .ok (tensors, [], payloads)
  | _, _ :: _, [] => panics
  | tensors, segment :: segments, payload :: payloads => do
    let (tensors, newPayload) ← segment.tensorIds.foldlM (rewriteTensor payload) (tensors, [])
    let (tensors, segments, payloads) ← rewriteSegments tensors segments payloads
    return (tensors, { segment with byteSize := newPayload.length } :: segments,
      newPayload :: payloads)

/-- `prepack_quantized_weights`. -/
def ImageBuilder.prepackQuantizedWeights (b : ImageBuilder) : Outcome ImageBuilder := do
  let marked ← b.tensors.mapM (isTriplet b.tensors)
  if marked.count true = 0 then return b
  else
    let (tensors, segments, segmentPayloads) ←
      rewriteSegments b.tensors b.segments b.segmentPayloads
    return { b with
      tensors
      segments
      segmentPayloads
      manifest := { b.manifest with prepackedLayout := "prepacked-int8-v1" } }

end TribunusCompute.ComputeImage
