import TribunusCompute.Library.LittleEndian
import TribunusCompute.Library.Outcome
import TribunusCompute.Library.Strides

/-!
# The codecs of the compressed cache

Vectors of floats are quantized to codes of a few bits, packed back to back, and followed by the
scales and widths that decoding needs. Floats are their bit patterns, and their arithmetic is a
parameter.
-/
namespace TribunusCompute.TurboQuant

open Outcome

/-- Single-precision arithmetic on bit patterns. -/
structure FloatOps where
  abs : UInt32 → UInt32
  neg : UInt32 → UInt32
  sqrt : UInt32 → UInt32
  round : UInt32 → UInt32
  max : UInt32 → UInt32 → UInt32
  add : UInt32 → UInt32 → UInt32
  sub : UInt32 → UInt32 → UInt32
  mul : UInt32 → UInt32 → UInt32
  div : UInt32 → UInt32 → UInt32
  lt : UInt32 → UInt32 → Bool
  eq : UInt32 → UInt32 → Bool
  /-- The saturating cast to `u32`. -/
  toU32 : UInt32 → ℕ
  /-- The cast of an integer. -/
  ofNat : ℕ → UInt32
  max_abs_zero : max 0 (abs 0) = 0
  zero_eq_zero : eq 0 0 = true

/-! ## The machine's arithmetic -/

def isNaN (x : UInt32) : Bool := 0x7F800000 < x &&& 0x7FFFFFFF

/-- The place of a pattern in the order of the numbers; both zeros have the same. -/
def rank (x : UInt32) : ℤ := if x < 0x80000000 then x.toNat else -(x &&& 0x7FFFFFFF).toNat

def isLess (x y : UInt32) : Bool := !isNaN x && !isNaN y && decide (rank x < rank y)

def onFloats (f : Float32 → Float32 → Float32) (x y : UInt32) : UInt32 :=
  (f (Float32.ofBits x) (Float32.ofBits y)).toBits

/-- Comparisons and signs are read off the patterns; the rest is the machine's. -/
def FloatOps.machine : FloatOps where
  abs x := x &&& 0x7FFFFFFF
  neg x := x ^^^ 0x80000000
  sqrt x := (Float32.ofBits x).sqrt.toBits
  round x := (Float32.ofBits x).round.toBits
  -- A NaN gives way to the other operand.
  max x y := if isNaN x then y else if isLess x y then y else x
  add := onFloats (· + ·)
  sub := onFloats (· - ·)
  mul := onFloats (· * ·)
  div := onFloats (· / ·)
  lt := isLess
  eq x y := !isNaN x && !isNaN y && decide (rank x = rank y)
  toU32 x := (Float32.ofBits x).toUInt32.toNat
  ofNat n := (Float32.ofNat n).toBits
  max_abs_zero := by decide
  zero_eq_zero := by decide

/-- `1.0`. -/
def one : UInt32 := 0x3F800000

/-- `2.0`. -/
def two : UInt32 := 0x40000000

/-- `1e-10`. -/
def tiny : UInt32 := 0x2EDBE6FF

/-- `f32::MAX`. -/
def floatMax : UInt32 := 0x7F7FFFFF

/-- A left shift panics where the shift reaches the width. -/
def shl (width a n : ℕ) : Outcome ℕ := if n < width then .ok (a <<< n % 2 ^ width) else panics

def shr (width a n : ℕ) : Outcome ℕ := if n < width then .ok (a >>> n) else panics

/-! ## Bit-level helpers -/

def writeBit (bitOffset value : ℕ) (buf : List UInt8) (i : ℕ) : Outcome (List UInt8) := do
  let byteIdx := (bitOffset + i) / 8
  let bitIdx := (bitOffset + i) % 8
  let buf := if byteIdx ≥ buf.length then buf ++ [0] else buf
  let shifted ← shr 32 value i
  if shifted % 2 = 1 then
    Outcome.assert (byteIdx < buf.length)
    return buf.set byteIdx (buf.getD byteIdx 0 ||| 1 <<< UInt8.ofNat bitIdx)
  else return buf

def bitWrite (buf : List UInt8) (bitOffset numBits value : ℕ) : Outcome (List UInt8) :=
  (List.range numBits).foldlM (writeBit bitOffset value) buf

def readBit (buf : List UInt8) (bitOffset val i : ℕ) : Outcome ℕ := do
  let byteIdx := (bitOffset + i) / 8
  let bitIdx := (bitOffset + i) % 8
  if byteIdx < buf.length ∧ (buf.getD byteIdx 0 >>> UInt8.ofNat bitIdx) &&& 1 = 1 then
    let one ← shl 32 1 i
    return val ||| one
  else return val

def bitRead (buf : List UInt8) (bitOffset numBits : ℕ) : Outcome ℕ :=
  (List.range numBits).foldlM (readBit buf bitOffset) 0

/-- The loop of the encoders: one code after another, each of the same width. -/
def packCodes (width : ℕ) (code : UInt32 → Outcome ℕ) :
    List UInt8 → ℕ → List UInt32 → Outcome (List UInt8)
  | packed, _, [] => return packed
  | packed, bitPos, x :: data => do
    let val ← code x
    let packed ← bitWrite packed bitPos width val
    packCodes width code packed (bitPos + width) data

def unpackCodes (width : ℕ) (recon : ℕ → Outcome UInt32) (buf : List UInt8) (len : ℕ) :
    Outcome (List UInt32) :=
  (List.range len).mapM fun k => do
    let val ← bitRead buf (k * width) width
    recon val

def readU32 (buf : List UInt8) (offset : ℕ) : ℕ := LittleEndian.decode (Tiling.slice buf offset 4)

def readFloat (buf : List UInt8) (offset : ℕ) : UInt32 := UInt32.ofNat (readU32 buf offset)

/-- The float in the last four bytes, zeros where there are fewer. -/
def lastFloat (buf : List UInt8) : UInt32 :=
  let scalePos := buf.length - 4
  UInt32.ofNat (LittleEndian.decode
    [buf.getD scalePos 0, buf.getD (scalePos + 1) 0, buf.getD (scalePos + 2) 0,
      buf.getD (scalePos + 3) 0])

def leBytes (n : ℕ) : List UInt8 := LittleEndian.encode 4 n

variable (ops : FloatOps)

def maxAbs (data : List UInt32) : UInt32 := data.foldl (fun a b => ops.max a (ops.abs b)) 0

def signOf (x : UInt32) : ℕ := if ops.lt x 0 then 1 else 0

def withSign (sign : ℕ) (magnitude : UInt32) : UInt32 :=
  if sign = 0 then magnitude else ops.neg magnitude

/-! ## Polar quantization -/

def polarScale (data : List UInt32) (maxLevels : ℕ) : UInt32 :=
  let maxAbs := maxAbs ops data
  if ops.eq maxAbs 0 then one else ops.div maxAbs (ops.ofNat maxLevels)

def polarCode (scale : UInt32) (maxLevels : ℕ) (x : UInt32) : ℕ × ℕ :=
  (signOf ops x, min (ops.toU32 (ops.round (ops.div (ops.abs x) scale))) maxLevels)

def polarRecon (scale : UInt32) (code : ℕ × ℕ) : UInt32 :=
  withSign ops code.1 (ops.mul (ops.ofNat code.2) scale)

def quantizePolarStoredScale (data : List UInt32) (bits : ℕ) : Outcome (List UInt8) := do
  Outcome.assert (1 ≤ bits)
  let magBits := bits - 1
  let levels ← shl 32 1 magBits
  let maxLevels := levels - 1
  let scale := polarScale ops data maxLevels
  let result ← packCodes bits (fun x => do
    let code := polarCode ops scale maxLevels x
    let high ← shl 32 code.1 magBits
    return high ||| code.2) [] 0 data
  return result ++ leBytes scale.toNat

def dequantizePolarStoredScale (buf : List UInt8) (len bits : ℕ) : Outcome (List UInt32) := do
  Outcome.assert (1 ≤ bits)
  let magBits := bits - 1
  let levels ← shl 32 1 magBits
  let maxLevels := levels - 1
  let scale := lastFloat buf
  unpackCodes bits (fun encoded => do
    let high ← shr 32 encoded magBits
    return polarRecon ops scale (high % 2, encoded &&& maxLevels)) buf len

/-! ## Product quantization -/

def productScale (sqrtMax : UInt32) (levels : ℕ) : UInt32 :=
  if levels ≤ 1 then one else ops.div sqrtMax (ops.ofNat (levels - 1))

def productCode (scaleA scaleB : UInt32) (levelsA levelsB : ℕ) (x : UInt32) : ℕ × ℕ × ℕ :=
  let ax := ops.abs x
  let idxA :=
    if ops.eq scaleA 0 then 0
    else min (ops.toU32 (ops.round (ops.div (ops.sqrt ax) scaleA))) ((levelsA - 1) % 2 ^ 32)
  let cbA := ops.mul (ops.ofNat idxA) scaleA
  let idxB :=
    if ops.eq scaleB 0 || ops.eq cbA 0 then 0
    else min (ops.toU32 (ops.round (ops.div (ops.div ax cbA) scaleB))) ((levelsB - 1) % 2 ^ 32)
  (signOf ops x, idxA, idxB)

def productRecon (scaleA scaleB : UInt32) (code : ℕ × ℕ × ℕ) : UInt32 :=
  withSign ops code.1
    (ops.mul (ops.mul (ops.ofNat code.2.1) scaleA) (ops.mul (ops.ofNat code.2.2) scaleB))

def quantizeProduct (data : List UInt32) (bits : ℕ) : Outcome (List UInt8) := do
  let above ← fit 32 (bits + 1)
  let subBitsA := above / 2
  let subBitsB := bits - subBitsA
  let levelsA ← shl 64 1 subBitsA
  let levelsB ← shl 64 1 subBitsB
  let sqrtMax := ops.sqrt (maxAbs ops data)
  let scaleA := productScale ops sqrtMax levelsA
  let scaleB := productScale ops sqrtMax levelsB
  let bitsPerVal ← fit 32 (1 + subBitsA + subBitsB)
  let packed ← packCodes bitsPerVal (fun x => do
    let code := productCode ops scaleA scaleB levelsA levelsB x
    let high ← shl 32 code.1 (subBitsA + subBitsB)
    let middle ← shl 32 code.2.1 subBitsB
    return high ||| middle ||| code.2.2) [] 0 data
  return packed ++ leBytes scaleA.toNat ++ leBytes scaleB.toNat ++ leBytes subBitsA ++
    leBytes subBitsB ++ leBytes levelsA ++ leBytes levelsB

def dequantizeProduct (buf : List UInt8) (len : ℕ) : Outcome (List UInt32) := do
  if buf.length < 24 then return List.replicate len 0
  let off := buf.length - 24
  let scaleA := readFloat buf off
  let scaleB := readFloat buf (off + 4)
  let subBitsA := readU32 buf (off + 8)
  let subBitsB := readU32 buf (off + 12)
  let bitsPerVal ← fit 32 (1 + subBitsA + subBitsB)
  unpackCodes bitsPerVal (fun val => do
    let high ← shr 32 val (subBitsA + subBitsB)
    let middle ← shr 32 val subBitsB
    let levelsA ← shl 32 1 subBitsA
    let levelsB ← shl 32 1 subBitsB
    return productRecon ops scaleA scaleB
      (high % 2, middle &&& (levelsA - 1), val &&& (levelsB - 1))) buf len

/-! ## Split quantization -/

/-- The two halves, of different widths, and the first half on its own. -/
def quantizeSplit (data : List UInt32) (headDim bits : ℕ) :
    Outcome (List UInt8 × List UInt8) := do
  let half := headDim / 2
  let firstBits := bits
  let secondBits := if bits > 2 then bits - 1 else bits
  Outcome.assert (half ≤ data.length)
  let packedFirst ← quantizePolarStoredScale ops (data.take half) firstBits
  let packedSecond ← quantizePolarStoredScale ops (data.drop half) secondBits
  return (packedFirst ++ packedSecond ++ leBytes firstBits ++ leBytes secondBits ++
    leBytes (headDim % 2 ^ 32), packedFirst)

def dequantizeSplit (buf : List UInt8) (len : ℕ) : Outcome (List UInt32) := do
  if buf.length < 12 then return List.replicate len 0
  let off := buf.length - 12
  let firstBits := readU32 buf off
  let secondBits := readU32 buf (off + 4)
  let headDim := readU32 buf (off + 8)
  let half := headDim / 2
  let dataEnd := buf.length - 12
  let firstPackedSize := (firstBits * half + 7) / 8 + 4
  Outcome.assert (firstPackedSize ≤ dataEnd)
  let firstPart := buf.take (min firstPackedSize dataEnd)
  let secondPart := Tiling.slice buf (min firstPackedSize dataEnd)
    (dataEnd - min firstPackedSize dataEnd)
  let firstRecon ← dequantizePolarStoredScale ops firstPart half firstBits
  Outcome.assert (half ≤ len)
  let secondRecon ← dequantizePolarStoredScale ops secondPart (len - half) secondBits
  return firstRecon ++ secondRecon

/-! ## Polar and product quantization, one after the other -/

def polarBitsOf (bits : ℕ) : ℕ := max (bits / 2) 1

def prodBitsOf (bits : ℕ) : ℕ := max (bits - polarBitsOf bits) 1

def quantizePolarprod (data : List UInt32) (bits : ℕ) : Outcome (List UInt8) := do
  let polarBits := polarBitsOf bits
  let prodBits := prodBitsOf bits
  let polarPacked ← quantizePolarStoredScale ops data polarBits
  let polarRecon ← dequantizePolarStoredScale ops polarPacked data.length polarBits
  let residuals := List.zipWith ops.sub data polarRecon
  let prodPacked ← quantizeProduct ops residuals prodBits
  return polarPacked ++ prodPacked ++ leBytes polarBits ++ leBytes prodBits ++
    leBytes (data.length % 2 ^ 32)

def dequantizePolarprod (buf : List UInt8) (len : ℕ) : Outcome (List UInt32) := do
  if buf.length < 12 then return List.replicate len 0
  let off := buf.length - 12
  let polarBits := readU32 buf off
  let polarSize := (polarBits * len + 7) / 8 + 4
  let dataEnd := buf.length - 12
  let polarPart := buf.take (min polarSize dataEnd)
  let prodPart := Tiling.slice buf (min polarSize dataEnd) (dataEnd - min polarSize dataEnd)
  let polarRecon ← dequantizePolarStoredScale ops polarPart len polarBits
  let prodRecon ← dequantizeProduct ops prodPart len
  return List.zipWith ops.add polarRecon prodRecon

end TribunusCompute.TurboQuant
