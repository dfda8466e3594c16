import TribunusCompute.TurboQuant.Transforms

/-!
# The quantized cache

A slot of the cache holds one token, its keys and values quantized by the mode of the cache or,
asymmetrically, by a mode of its own.
-/
namespace TribunusCompute.TurboQuant

open Outcome KvCache

inductive KvQuantMode
  | polar (bits : ℕ)
  | prod (bits : ℕ)
  | split (bits : ℕ)
  | polarProd (bits : ℕ)
  | mse (bits stateBits : ℕ)
  | polarHadamard (bits : ℕ)
  | turboQuant3 (bits qjlBits : ℕ)

def KvQuantMode.bits : KvQuantMode → ℕ
  | polar bits => bits
  | prod bits => bits
  | split bits => bits
  | polarProd bits => bits
  | mse bits _ => bits
  | polarHadamard bits => bits
  | turboQuant3 bits _ => bits

inductive AsymmetricQuantMode
  | keyLightValueHeavy (kBits vBits : ℕ)
  | keyPolarValueProd (kBits vBits : ℕ)
  | keySplitValuePolar (kBits vBits : ℕ)

def AsymmetricQuantMode.kBits : AsymmetricQuantMode → ℕ
  | keyLightValueHeavy kBits _ => kBits
  | keyPolarValueProd kBits _ => kBits
  | keySplitValuePolar kBits _ => kBits

def AsymmetricQuantMode.vBits : AsymmetricQuantMode → ℕ
  | keyLightValueHeavy _ vBits => vBits
  | keyPolarValueProd _ vBits => vBits
  | keySplitValuePolar _ vBits => vBits

structure TurboQuantState where
  keys : List UInt8
  values : List UInt8
  numTokens : ℕ
  bits : ℕ
  headDim : ℕ
  kBits : ℕ
  vBits : ℕ
  asymMode : Option AsymmetricQuantMode
  qjlKeys : List UInt8
  qjlValues : List UInt8
  qjlKeyMagnitude : UInt32
  qjlValMagnitude : UInt32

/-- A slot that was skipped. -/
def TurboQuantState.empty (bits : ℕ) : TurboQuantState where
  keys := []
  values := []
  numTokens := 0
  bits := bits
  headDim := 0
  kBits := 0
  vBits := 0
  asymMode := none
  qjlKeys := []
  qjlValues := []
  qjlKeyMagnitude := 0
  qjlValMagnitude := 0

/-- The slots are a vector that never grows beyond the capacity it was made with. -/
structure TurboQuantKvCache where
  quantMode : KvQuantMode
  groupSize : ℕ
  capacity : ℕ
  state : List TurboQuantState
  fits : state.length ≤ capacity

inductive TurboQuantError
  | unsupportedMode
  | shapeMismatch
  | slotOutOfBounds (slot capacity : ℕ)
  | emptySlot (slot : ℕ)
  | invalidDataLength (dataLen headDim : ℕ)
  deriving DecidableEq, Repr

namespace TurboQuantKvCache

def new (quantMode : KvQuantMode) (groupSize numSlots : ℕ) : TurboQuantKvCache where
  quantMode
  groupSize
  capacity := numSlots
  state := []
  fits := Nat.zero_le _

/-- A slot within the capacity is overwritten; the slots before it are filled up. -/
def store (cache : TurboQuantKvCache) (slot : ℕ) (inside : slot < cache.capacity)
    (filler st : TurboQuantState) : TurboQuantKvCache where
  quantMode := cache.quantMode
  groupSize := cache.groupSize
  capacity := cache.capacity
  state := (cache.state ++ List.replicate (slot + 1 - cache.state.length) filler).set slot st
  fits := by
    have fits := cache.fits
    rw [List.length_set, List.length_append, List.length_replicate]
    omega

variable (ops : FloatOps)

def quantizeData (mode : KvQuantMode) (headDim : ℕ) (data : List UInt32) : Outcome (List UInt8) :=
  match mode with
  | .polar bits => quantizePolarStoredScale ops data bits
  | .prod bits => quantizeProduct ops data bits
  | .split bits => Prod.fst <$> quantizeSplit ops data headDim bits
  | .polarProd bits => quantizePolarprod ops data bits
  | .mse bits stateBits => quantizeMse ops data bits stateBits
  | .polarHadamard bits => quantizePolarHadamard ops data bits
  | .turboQuant3 bits _ => quantizePolarHadamard ops data bits

def dequantizeData (mode : KvQuantMode) (buf : List UInt8) (numElems bits : ℕ) :
    Outcome (List UInt32) :=
  match mode with
  | .polar _ => dequantizePolarStoredScale ops buf numElems bits
  | .prod _ => dequantizeProduct ops buf numElems
  | .split _ => dequantizeSplit ops buf numElems
  | .polarProd _ => dequantizePolarprod ops buf numElems
  | .mse _ _ => dequantizeMse ops buf numElems
  | .polarHadamard _ => dequantizePolarHadamard ops buf numElems bits
  | .turboQuant3 _ _ => dequantizePolarHadamard ops buf numElems bits

/-- The residual signs of one vector, where the mode corrects them. -/
def correctionOf (mode : KvQuantMode) (data : List UInt32) (quantized : List UInt8) :
    Outcome QjlCorrection :=
  match mode with
  | .turboQuant3 bits _ => do
    let deq ← dequantizePolarHadamard ops quantized data.length bits
    computeQjlCorrection ops data deq
  | _ => return noCorrection

def quantizeState (mode : KvQuantMode) (keys values : List UInt32) : Outcome TurboQuantState := do
  let headDim := keys.length
  let keysQuantized ← quantizeData ops mode headDim keys
  let valuesQuantized ← quantizeData ops mode headDim values
  let qjlKeyCorrection ← correctionOf ops mode keys keysQuantized
  let qjlValCorrection ← correctionOf ops mode values valuesQuantized
  return {
    keys := keysQuantized
    values := valuesQuantized
    numTokens := 1
    bits := mode.bits
    headDim
    kBits := mode.bits
    vBits := mode.bits
    asymMode := none
    qjlKeys := qjlKeyCorrection.residualBits
    qjlValues := qjlValCorrection.residualBits
    qjlKeyMagnitude := qjlKeyCorrection.residualMagnitude
    qjlValMagnitude := qjlValCorrection.residualMagnitude }

def quantize (cache : TurboQuantKvCache) (slot : ℕ) (keys values : List UInt32) :
    Outcome (Except TurboQuantError Unit × TurboQuantKvCache) := do
  if inside : slot < cache.capacity then
    let st ← quantizeState ops cache.quantMode keys values
    return (.ok (), cache.store slot inside (.empty cache.quantMode.bits) st)
  else return (.error (.slotOutOfBounds slot cache.capacity), cache)

def corrected (data : List UInt32) (residualBits : List UInt8) (magnitude : UInt32) :
    List UInt32 :=
  applyQjlCorrection ops data ⟨residualBits, data.length, ops.max magnitude tiny⟩

def dequantizeState (mode : KvQuantMode) (st : TurboQuantState) :
    Outcome (List UInt32 × List UInt32) := do
  let keys ← dequantizeData ops mode st.keys st.headDim st.kBits
  let values ← dequantizeData ops mode st.values st.headDim st.vBits
  match mode with
  | .turboQuant3 _ _ =>
    if st.qjlKeys ≠ [] then
      return (corrected ops keys st.qjlKeys st.qjlKeyMagnitude,
        corrected ops values st.qjlValues st.qjlValMagnitude)
    else return (keys, values)
  | _ => return (keys, values)

/-! ## Asymmetric slots -/

def quantizeKeys (asymMode : AsymmetricQuantMode) (keys : List UInt32) : Outcome (List UInt8) :=
  match asymMode with
  | .keyLightValueHeavy kBits _ => quantizePolarHadamard ops keys kBits
  | .keyPolarValueProd kBits _ => quantizePolarStoredScale ops keys kBits
  | .keySplitValuePolar kBits _ => Prod.fst <$> quantizeSplit ops keys keys.length kBits

/-- The bytes of the values, and their residual signs with the magnitude of the residuals. -/
def quantizeValues (asymMode : AsymmetricQuantMode) (values : List UInt32) :
    Outcome (List UInt8 × List UInt8 × UInt32) :=
  match asymMode with
  | .keyLightValueHeavy _ vBits => do
    let vq ← quantizePolarHadamard ops values vBits
    let vDeq ← dequantizePolarHadamard ops vq values.length vBits
    let qjl ← computeQjlCorrection ops values vDeq
    return (vq, qjl.residualBits, qjl.residualMagnitude)
  | .keyPolarValueProd _ vBits => do
    let vq ← quantizeProduct ops values vBits
    return (vq, [], 0)
  | .keySplitValuePolar _ vBits => do
    let vq ← quantizePolarStoredScale ops values vBits
    return (vq, [], 0)

def quantizeStateAsymmetric (asymMode : AsymmetricQuantMode) (keys values : List UInt32) :
    Outcome TurboQuantState := do
  let sum ← fit 32 (asymMode.kBits + asymMode.vBits)
  let keysQuantized ← quantizeKeys ops asymMode keys
  let (valuesQuantized, qjlVal, qjlValMag) ← quantizeValues ops asymMode values
  return {
    keys := keysQuantized
    values := valuesQuantized
    numTokens := 1
    bits := sum / 2
    headDim := keys.length
    kBits := asymMode.kBits
    vBits := asymMode.vBits
    asymMode := some asymMode
    qjlKeys := []
    qjlValues := qjlVal
    qjlKeyMagnitude := 0
    qjlValMagnitude := qjlValMag }

def quantizeAsymmetric (cache : TurboQuantKvCache) (slot : ℕ) (keys values : List UInt32)
    (asymMode : AsymmetricQuantMode) :
    Outcome (Except TurboQuantError Unit × TurboQuantKvCache) := do
  if inside : slot < cache.capacity then
    let st ← quantizeStateAsymmetric ops asymMode keys values
    return (.ok (), cache.store slot inside (.empty 0) st)
  else return (.error (.slotOutOfBounds slot cache.capacity), cache)

def dequantizeKeys (asymMode : AsymmetricQuantMode) (st : TurboQuantState) :
    Outcome (List UInt32) :=
  match asymMode with
  | .keyLightValueHeavy _ _ => dequantizePolarHadamard ops st.keys st.headDim st.kBits
  | .keyPolarValueProd _ _ => dequantizePolarStoredScale ops st.keys st.headDim st.kBits
  | .keySplitValuePolar _ _ => dequantizeSplit ops st.keys st.headDim

def dequantizeValues (asymMode : AsymmetricQuantMode) (st : TurboQuantState) :
    Outcome (List UInt32) :=
  match asymMode with
  | .keyLightValueHeavy _ _ => do
    let v ← dequantizePolarHadamard ops st.values st.headDim st.vBits
    return if st.qjlValues ≠ [] then corrected ops v st.qjlValues st.qjlValMagnitude else v
  | .keyPolarValueProd _ _ => dequantizeProduct ops st.values st.headDim
  | .keySplitValuePolar _ _ => dequantizePolarStoredScale ops st.values st.headDim st.vBits

def dequantizeStateAsymmetric (asymMode : AsymmetricQuantMode) (st : TurboQuantState) :
    Outcome (List UInt32 × List UInt32) := do
  let keys ← dequantizeKeys ops asymMode st
  let values ← dequantizeValues ops asymMode st
  return (keys, values)

def dequantizeAsymmetric (cache : TurboQuantKvCache) (slot : ℕ) :
    Outcome (Except TurboQuantError (List UInt32 × List UInt32)) :=
  match cache.state[slot]? with
  | none => return .error (.slotOutOfBounds slot cache.state.length)
  | some st =>
    if st.keys = [] then return .error (.emptySlot slot)
    else match st.asymMode with
      | none => panics
      | some asymMode => .ok <$> dequantizeStateAsymmetric ops asymMode st

def dequantize (cache : TurboQuantKvCache) (slot : ℕ) :
    Outcome (Except TurboQuantError (List UInt32 × List UInt32)) :=
  match cache.state[slot]? with
  | none => return .error (.slotOutOfBounds slot cache.state.length)
  | some st =>
    if st.keys = [] then return .error (.emptySlot slot)
    else if st.asymMode.isSome then cache.dequantizeAsymmetric ops slot
    else .ok <$> dequantizeState ops cache.quantMode st

end TurboQuantKvCache

end TribunusCompute.TurboQuant
