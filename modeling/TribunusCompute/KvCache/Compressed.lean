import TribunusCompute.TurboQuant.CacheLaw

/-!
# The compressed cache

Tokens are appended to the slots of the quantizer, one after another. A rollback cuts the slots
back to the committed length and leaves the quantizer's own slots stale, to be overwritten.
-/
namespace TribunusCompute.KvCache

open Outcome TurboQuant TurboQuantKvCache

def CompressedKvSlot.new (kvOffset : UInt32) : CompressedKvSlot where
  compressedKeys := []
  compressedValues := []
  qjlCorrection := none
  kvOffset
  numTokens := 0

structure CompressedKvCache where
  tq : TurboQuantKvCache
  slots : List CompressedKvSlot
  committedLen : ℕ
  seqLen : ℕ

def debugError : TurboQuantError → String
  | .unsupportedMode => "UnsupportedMode"
  | .shapeMismatch => "ShapeMismatch"
  | .slotOutOfBounds slot capacity => s!"SlotOutOfBounds({slot}, {capacity})"
  | .emptySlot slot => s!"EmptySlot({slot})"
  | .invalidDataLength dataLen headDim =>
    s!"InvalidDataLength \x7b data_len: {dataLen}, head_dim: {headDim} \x7d"

/-- What is appended: keys and values, with a mode of their own where they are asymmetric. -/
structure Token where
  keys : List UInt32
  values : List UInt32
  asymMode : Option AsymmetricQuantMode

namespace CompressedKvCache

variable (ops : FloatOps)

def new (mode : KvQuantMode) (groupSize numSlots : ℕ) : CompressedKvCache where
  tq := .new mode groupSize numSlots
  slots := []
  committedLen := 0
  seqLen := 0

/-- The body that both ways to append share, with the quantizer's call and its name. -/
def appendQuantized (cache : CompressedKvCache) (kvOffset : UInt32) (call : String)
    (quantized : ℕ → Outcome (Except TurboQuantError Unit × TurboQuantKvCache)) :
    Outcome (Except String Unit × CompressedKvCache) := do
  let slotIdx := cache.slots.length
  let slot := CompressedKvSlot.new kvOffset
  let (result, tq) ← quantized slotIdx
  match result with
  | .error e => return (.error s!"TQ {call}: {debugError e}", { cache with tq })
  | .ok () =>
    match tq.state[slotIdx]? with
    | none => return (.error s!"TQ slot state missing after {call}", { cache with tq })
    | some tqState => do
      let slot := { slot with
        compressedKeys := tqState.keys
        compressedValues := tqState.values
        numTokens := 1 }
      let seqLen ← fit 32 (cache.seqLen + 1)
      return (.ok (), { cache with tq, slots := cache.slots ++ [slot], seqLen })

def append (cache : CompressedKvCache) (keys values : List UInt32) (kvOffset : UInt32) :
    Outcome (Except String Unit × CompressedKvCache) :=
  cache.appendQuantized kvOffset "quantize" fun slotIdx =>
    cache.tq.quantize ops slotIdx keys values

def appendAsymmetric (cache : CompressedKvCache) (keys values : List UInt32) (kvOffset : UInt32)
    (asymMode : AsymmetricQuantMode) : Outcome (Except String Unit × CompressedKvCache) :=
  cache.appendQuantized kvOffset "quantize_asymmetric" fun slotIdx =>
    cache.tq.quantizeAsymmetric ops slotIdx keys values asymMode

def decompressSlot (cache : CompressedKvCache) (slotIdx : ℕ) :
    Outcome (Except String (List UInt32 × List UInt32)) := do
  let result ← cache.tq.dequantize ops slotIdx
  match result with
  | .error e => return .error s!"TQ dequantize slot {slotIdx}: {debugError e}"
  | .ok both => return .ok both

/-- `&data[start..stop]`. -/
def sliceRange (data : List UInt32) (start stop : ℕ) : Outcome (List UInt32) := do
  Outcome.assert (start ≤ stop ∧ stop ≤ data.length)
  return (data.drop start).take (stop - start)

/-- The loop of `read_window` over the slots from `idx` on. -/
def readSlots (cache : CompressedKvCache) (start stop : ℕ) :
    ℕ → List CompressedKvSlot → List UInt32 × List UInt32 →
      Outcome (Except String (List UInt32 × List UInt32))
  | _, [], read => return .ok read
  | idx, slot :: rest, read => do
    let slotStart := slot.kvOffset.toNat
    let slotEnd ← fit 32 (slotStart + slot.numTokens % 2 ^ 32)
    if slotEnd ≤ start ∨ slotStart ≥ stop then readSlots cache start stop (idx + 1) rest read
    else
      let result ← cache.decompressSlot ops idx
      match result with
      | .error e => return .error e
      | .ok (kDeq, vDeq) =>
        let rangeStartInSlot := if start > slotStart then start - slotStart else 0
        let rangeEndInSlot := if stop < slotEnd then stop - slotStart else slot.numTokens
        let elemsPerToken ← Outcome.quotient kDeq.length slot.numTokens
        let keys ← sliceRange kDeq (rangeStartInSlot * elemsPerToken)
          (rangeEndInSlot * elemsPerToken)
        let vElems ← Outcome.quotient vDeq.length slot.numTokens
        let values ← sliceRange vDeq (rangeStartInSlot * vElems) (rangeEndInSlot * vElems)
        readSlots cache start stop (idx + 1) rest (read.1 ++ keys, read.2 ++ values)

def readWindow (cache : CompressedKvCache) (start stop : ℕ) :
    Outcome (Except String (List UInt32 × List UInt32)) :=
  if start ≥ stop ∨ cache.slots = [] then return .ok ([], [])
  else readSlots ops cache start stop 0 cache.slots ([], [])

def commitStep (cache : CompressedKvCache) : CompressedKvCache :=
  { cache with committedLen := cache.seqLen }

def rollback (cache : CompressedKvCache) : CompressedKvCache :=
  if cache.seqLen = cache.committedLen then cache
  else { cache with
    slots := cache.slots.take cache.committedLen
    seqLen := cache.committedLen }

def appendToken (cache : CompressedKvCache) (token : Token) :
    Outcome (Except String Unit × CompressedKvCache) :=
  match token.asymMode with
  | none => cache.append ops token.keys token.values (UInt32.ofNat cache.seqLen)
  | some asymMode =>
    cache.appendAsymmetric ops token.keys token.values (UInt32.ofNat cache.seqLen) asymMode

end CompressedKvCache

end TribunusCompute.KvCache
