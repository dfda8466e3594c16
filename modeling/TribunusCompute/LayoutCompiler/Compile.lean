import Mathlib.Data.List.Sort
import TribunusCompute.Library.Outcome
import TribunusCompute.Library.Placement

/-!
# The layout compiler

Every tensor of a graph gets a place in one of two memory segments: weights by name in the one,
activations by first use in the other. A report says where a tensor lies, and a validator checks
a report on its own.
-/
namespace TribunusCompute.LayoutCompiler

open Outcome

structure LayoutTensor where
  name : String
  logicalShape : List UInt32
  dtype : String
  isWeight : Bool
  ioSurface : Bool
  alignment : UInt32

/-- One operation, by the names of the tensors it consumes and produces. -/
structure LayoutOp where
  inputTensors : List String
  outputTensors : List String

/-- The graph: the operations in execution order, and the tensors as the map yields them. -/
structure LayoutIr where
  ops : List LayoutOp
  tensors : List (String × LayoutTensor)
  distinct : (tensors.map Prod.fst).Nodup

structure DtypeInfo where
  nbytes : ℕ
  alignment : ℕ

def dtypeInfo (dtype : String) : DtypeInfo :=
  if dtype ∈ ["float32", "float"] then ⟨4, 4⟩
  else if dtype ∈ ["bfloat16", "float16", "half"] then ⟨2, 2⟩
  else if dtype ∈ ["int8", "uint8", "int4", "uint4"] then ⟨1, 1⟩
  else if dtype ∈ ["int32", "uint32"] then ⟨4, 4⟩
  else if dtype ∈ ["int64", "uint64"] then ⟨8, 8⟩
  else ⟨4, 4⟩

def defaultActivationSegment : ℕ := 0

def weightSegment : ℕ := 1

def metalPageSize : ℕ := 4096

structure LayoutReport where
  name : String
  logicalShape : List UInt32
  dtype : String
  byteOffset : ℕ
  alignedOffset : ℕ
  segmentIndex : ℕ
  nbytes : ℕ
  strides : List ℕ
  contiguous : Bool
  zeroCopyEligible : Bool
  zeroCopyViolation : Option String
  padBytes : ℕ

def computeNbytes (shape : List UInt32) (elementNbytes : ℕ) : Outcome ℕ := do
  let elements ← shape.foldlM (fun elements dim => fit 64 (elements * dim.toNat)) 1
  fit 64 (elements * elementNbytes)

def alignUp (offset align : ℕ) : Outcome ℕ := do
  if align = 0 then return offset
  let mask := align - 1
  let raised ← fit 64 (offset + mask)
  return raised &&& (2 ^ 64 - 1 - mask)

def computeContiguousStrides (shape : List UInt32) (elementNbytes : ℕ) : Outcome (List ℕ) := do
  let (strides, _) ← shape.reverse.foldlM (fun (strides, stride) dim => do
    let next ← fit 64 (stride * dim.toNat)
    return (strides ++ [stride], next)) (([] : List ℕ), elementNbytes)
  return strides.reverse

def isContiguous (strides : List ℕ) (shape : List UInt32) (elementNbytes : ℕ) : Outcome Bool := do
  if strides.length ≠ shape.length then return false
  if shape = [] then return true
  let contiguous ← computeContiguousStrides shape elementNbytes
  return strides == contiguous

def debugList (numbers : List ℕ) : String :=
  "[" ++ ", ".intercalate (numbers.map toString) ++ "]"

/-- The violation, if any, and the end of the segment afterwards. -/
def validateZeroCopyConditions (byteOffset nbytes alignment : ℕ) (contiguous : Bool)
    (tensor : LayoutTensor) (strides : List ℕ) (currentSegmentEnd segmentCap : ℕ) :
    Outcome (Option String × ℕ) := do
  if tensor.ioSurface ∧ byteOffset % metalPageSize ≠ 0 then
    return (some s!"io_surface tensor '{tensor.name}' offset {byteOffset} not page-aligned",
      currentSegmentEnd)
  Outcome.assert (alignment ≠ 0)
  if byteOffset % alignment ≠ 0 then
    return (some s!"tensor '{tensor.name}' offset {byteOffset} not aligned to {alignment}",
      currentSegmentEnd)
  if !contiguous then
    return (some s!"tensor '{tensor.name}' has non-contiguous strides {debugList strides}",
      currentSegmentEnd)
  let tensorEnd ← fit 64 (byteOffset + nbytes)
  if currentSegmentEnd > byteOffset ∧ segmentCap > 0 then
    return (some (s!"tensor '{tensor.name}' offset {byteOffset} overlaps with previous tensor " ++
      s!"ending at {currentSegmentEnd}"), currentSegmentEnd)
  return (none, if segmentCap > 0 then tensorEnd else currentSegmentEnd)

/-- The alignment a tensor asks for, or that of its dtype. -/
def specAlign (tensor : LayoutTensor) : ℕ :=
  if tensor.alignment > 0 then tensor.alignment.toNat else (dtypeInfo tensor.dtype).alignment

/-- One turn of the loop over the weights: the running offset after it, and the report. -/
def layoutWeight (weightOffset : ℕ) (tensor : LayoutTensor) : Outcome (ℕ × LayoutReport) := do
  let info := dtypeInfo tensor.dtype
  let nbytes ← computeNbytes tensor.logicalShape info.nbytes
  let specAlign := specAlign tensor
  let byteOffset := weightOffset
  let weightOffset ← fit 64 (weightOffset + nbytes)
  let alignedOffset ← alignUp byteOffset specAlign
  let strides ← computeContiguousStrides tensor.logicalShape info.nbytes
  let contiguous ← isContiguous strides tensor.logicalShape info.nbytes
  let zeroCopy := byteOffset % metalPageSize = 0 ∧ contiguous
  let (violation, _) ← validateZeroCopyConditions byteOffset nbytes specAlign contiguous tensor
    strides 0 weightOffset
  return (weightOffset, {
    name := tensor.name
    logicalShape := tensor.logicalShape
    dtype := tensor.dtype
    byteOffset
    alignedOffset
    padBytes := alignedOffset - byteOffset
    segmentIndex := weightSegment
    nbytes
    strides
    contiguous
    zeroCopyEligible := zeroCopy
    zeroCopyViolation := violation })

def layoutActivation (activationOffset : ℕ) (tensor : LayoutTensor) :
    Outcome (ℕ × LayoutReport) := do
  let info := dtypeInfo tensor.dtype
  let nbytes ← computeNbytes tensor.logicalShape info.nbytes
  let specAlign := specAlign tensor
  let byteOffset ← alignUp activationOffset specAlign
  let activationOffset ← fit 64 (byteOffset + nbytes)
  let alignedOffset ←
    (if tensor.ioSurface then alignUp byteOffset metalPageSize else pure byteOffset)
  let strides ← computeContiguousStrides tensor.logicalShape info.nbytes
  let contiguous ← isContiguous strides tensor.logicalShape info.nbytes
  let zeroCopy := byteOffset % metalPageSize = 0 ∧ contiguous ∧ tensor.ioSurface
  let (violation, activationOffset) ← validateZeroCopyConditions byteOffset nbytes specAlign
    contiguous tensor strides activationOffset 0
  return (activationOffset, {
    name := tensor.name
    logicalShape := tensor.logicalShape
    dtype := tensor.dtype
    byteOffset
    alignedOffset
    padBytes := alignedOffset - byteOffset
    segmentIndex := defaultActivationSegment
    nbytes
    strides
    contiguous
    zeroCopyEligible := zeroCopy
    zeroCopyViolation := violation })

/-- The reports of one segment, the running offset carried from each tensor to the next. -/
def layoutSegment (layout : ℕ → LayoutTensor → Outcome (ℕ × LayoutReport)) (offset : ℕ) :
    List LayoutTensor → Outcome (List LayoutReport)
  | [] => return []
  | tensor :: rest => do
    let (offset, report) ← layout offset tensor
    let reports ← layoutSegment layout offset rest
    return report :: reports

def firstUse (ops : List LayoutOp) (name : String) : ℕ :=
  (ops.findIdx? fun op => op.inputTensors.contains name || op.outputTensors.contains name).getD
    (2 ^ 64 - 1)

def sortedWeights (ir : LayoutIr) : List LayoutTensor :=
  ((ir.tensors.map Prod.snd).filter fun tensor => tensor.isWeight).insertionSort
    fun a b => a.name ≤ b.name

def sortedActivations (ir : LayoutIr) : List LayoutTensor :=
  ((ir.tensors.map Prod.snd).filter fun tensor => !tensor.isWeight).insertionSort
    fun a b => firstUse ir.ops a.name ≤ firstUse ir.ops b.name

def compileLayouts (ir : LayoutIr) : Outcome (List LayoutReport) := do
  let weights ← layoutSegment layoutWeight 0 (sortedWeights ir)
  let activations ← layoutSegment layoutActivation 0 (sortedActivations ir)
  return weights ++ activations

/-- Check a report against the zero-copy constraints; each violation has its message. -/
def validateLayout (report : LayoutReport) (segmentNbytes : ℕ) :
    Outcome (Except (List String) Unit) := do
  let errors := []
  let errors :=
    if report.zeroCopyEligible ∧ report.alignedOffset % metalPageSize ≠ 0 then
      errors ++ [s!"zero-copy tensor '{report.name}' aligned_offset {report.alignedOffset} " ++
        s!"is not page-aligned (mod {metalPageSize})"]
    else errors
  let errors :=
    if !report.contiguous then
      errors ++
        [s!"tensor '{report.name}' is not contiguous (strides: {debugList report.strides})"]
    else errors
  let info := dtypeInfo report.dtype
  let errors :=
    if report.byteOffset % info.alignment ≠ 0 then
      errors ++ [s!"tensor '{report.name}' byte_offset {report.byteOffset} is not aligned to " ++
        s!"dtype {report.dtype} (alignment {info.alignment})"]
    else errors
  let stop ← fit 64 (report.byteOffset + report.nbytes)
  let errors :=
    if stop > segmentNbytes then
      errors ++ [s!"tensor '{report.name}' at offset {report.byteOffset}+{report.nbytes} " ++
        s!"exceeds segment size {segmentNbytes}"]
    else errors
  return if errors = [] then .ok () else .error errors

end TribunusCompute.LayoutCompiler
