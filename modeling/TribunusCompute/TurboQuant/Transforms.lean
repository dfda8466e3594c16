import TribunusCompute.KvCache.PageData
import TribunusCompute.TurboQuant.Codecs

/-!
# Transforms and corrections around the codecs

The Hadamard transform before polar quantization, the sign bits of the residuals after it, and
the codec that selects a state for every element.
-/
namespace TribunusCompute.TurboQuant

open Outcome KvCache

/-- Indexing panics out of bounds. -/
def at_ (data : List UInt32) (i : ℕ) : Outcome UInt32 :=
  match data[i]? with
  | some x => .ok x
  | none => panics

variable (ops : FloatOps)

/-! ## Hadamard transform -/

/-- `1 / sqrt(2)`. -/
def invSqrt2 : UInt32 := ops.div one (ops.sqrt two)

def butterfly (len i : ℕ) (data : List UInt32) (j : ℕ) : Outcome (List UInt32) := do
  let a ← at_ data (i + j)
  let b ← at_ data (i + j + len)
  let data := data.set (i + j) (ops.mul (ops.add a b) (invSqrt2 ops))
  return data.set (i + j + len) (ops.mul (ops.sub a b) (invSqrt2 ops))

/-- One stage, over the blocks at the multiples of `2 * len`. -/
def hadamardStage (n len : ℕ) (data : List UInt32) : Outcome (List UInt32) :=
  let step := len * 2
  (List.range ((n + step - 1) / step)).foldlM (fun data block =>
    (List.range len).foldlM (butterfly ops len (block * step)) data) data

/-- The stages from `len` on, which is never zero. -/
def hadamardStages (n len : ℕ) (data : List UInt32) : Outcome (List UInt32) := do
  if 0 < len ∧ len < n then
    let data ← hadamardStage ops n len data
    hadamardStages n (len * 2) data
  else return data
termination_by n - len

def fastHadamardTransform (data : List UInt32) : Outcome (List UInt32) := do
  let n := data.length
  Outcome.assert n.isPowerOfTwo
  hadamardStages ops n 1 data

def quantizePolarHadamard (data : List UInt32) (bits : ℕ) : Outcome (List UInt8) := do
  let transformed ← fastHadamardTransform ops data
  quantizePolarStoredScale ops transformed bits

def dequantizePolarHadamard (buf : List UInt8) (len bits : ℕ) : Outcome (List UInt32) := do
  let result ← dequantizePolarStoredScale ops buf len bits
  fastHadamardTransform ops result

/-! ## Residual signs -/

def noCorrection : QjlCorrection := ⟨[], 0, 0⟩

/-- The sign bits of a chunk of up to eight elements and their reconstructions. -/
def residualByte (chunk : List (UInt32 × UInt32)) : UInt8 :=
  chunk.zipIdx.foldl (fun byte element =>
    if ops.lt 0 (ops.sub element.1.1 element.1.2) then byte ||| 1 <<< UInt8.ofNat element.2
    else byte) 0

def computeQjlCorrection (original dequantized : List UInt32) : Outcome QjlCorrection := do
  Outcome.assert (original.length = dequantized.length)
  let n := original.length
  let pairs := original.zip dequantized
  let total := pairs.foldl (fun total pair =>
    ops.add total (ops.abs (ops.sub pair.1 pair.2))) 0
  return {
    residualBits := (pairs.toChunks 8).map (residualByte ops)
    numElements := n
    residualMagnitude := ops.div total (ops.ofNat n) }

def applyQjlCorrection (dequantized : List UInt32) (correction : QjlCorrection) : List UInt32 :=
  let n := min dequantized.length correction.numElements
  dequantized.mapIdx fun i x =>
    if i < n then
      let byteIdx := i / 8
      let bitIdx := i % 8
      let bitSet := byteIdx < correction.residualBits.length ∧
        (correction.residualBits.getD byteIdx 0 >>> UInt8.ofNat bitIdx) &&& 1 = 1
      if bitSet then ops.add x correction.residualMagnitude
      else ops.sub x correction.residualMagnitude
    else x

/-! ## State selection -/

def mseScale (data : List UInt32) (quantLevels : ℕ) : UInt32 :=
  let maxAbs := maxAbs ops data
  if ops.eq maxAbs 0 then one else ops.div maxAbs (ops.ofNat quantLevels)

/-- One turn of the search for the state that comes closest. -/
def nearerState (codebook : List UInt32) (targetQval : UInt32) (bestIdx quantLevels : ℕ)
    (best : ℕ × UInt32) (s : ℕ) : Outcome (ℕ × UInt32) := do
  let rotated ← fit 64 (s * bestIdx)
  let stateVal ← at_ codebook (rotated % quantLevels)
  let err := ops.abs (ops.sub targetQval stateVal)
  return if ops.lt err best.2 then (s % 2 ^ 32, err) else best

def quantizeMse (data : List UInt32) (bits stateBits : ℕ) : Outcome (List UInt8) := do
  let numStates ← shl 64 1 stateBits
  let quantLevels ← shl 64 1 bits
  let scale := mseScale ops data quantLevels
  let codebook := (List.range quantLevels).map fun i => ops.mul (ops.ofNat i) scale
  let bitsPerElem ← fit 32 (stateBits + bits)
  let packed ← packCodes (bitsPerElem + 1) (fun x => do
    let bestIdx :=
      if ops.eq scale 0 then 0
      else min (ops.toU32 (ops.round (ops.div (ops.abs x) scale))) ((quantLevels - 1) % 2 ^ 32)
    let targetQval := ops.mul (ops.ofNat bestIdx) scale
    let best ← (List.range numStates).foldlM
      (nearerState ops codebook targetQval bestIdx quantLevels) (0, floatMax)
    let aboveSign ← fit 32 (1 + bits)
    let state ← shl 32 best.1 aboveSign
    let sign ← shl 32 (signOf ops x) bits
    return state ||| sign ||| bestIdx) [] 0 data
  return packed ++ leBytes bits ++ leBytes stateBits ++ leBytes scale.toNat

def dequantizeMse (buf : List UInt8) (len : ℕ) : Outcome (List UInt32) := do
  if buf.length < 12 then return List.replicate len 0
  let off := buf.length - 12
  let scale := readFloat buf off
  let rbits := readU32 buf (off + 4)
  let rstateBits := readU32 buf (off + 8)
  let width ← fit 32 (rstateBits + rbits)
  let bitsPerElem := width + 1
  unpackCodes bitsPerElem (fun val => do
    let aboveSign ← fit 32 (rbits + 1)
    let _stateId ← shr 32 val aboveSign
    let sign ← shr 32 val rbits
    let levels ← shl 32 1 rbits
    return withSign ops (sign % 2) (ops.mul (ops.ofNat (val &&& (levels - 1))) scale)) buf len

end TribunusCompute.TurboQuant
