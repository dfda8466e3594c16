import TribunusCompute.Library.LittleEndian

/-!
# Page-data blobs of compressed KV slots

`kv_cache.rs`: `CompressedKvSlot::to_page_data` and `from_page_data`. The encoder
writes each length in front of its own buffer; the decoder reads both lengths
from the first eight bytes. The two layouts agree exactly when the key bytes
commute with the second length header.
-/
namespace TribunusCompute.KvCache

open LittleEndian

/-- QJL error correction state of one slot; the `f32` magnitude by its bit pattern. -/
structure QjlCorrection where
  residualBits : List UInt8
  numElements : ℕ
  residualMagnitude : UInt32
  deriving DecidableEq, Repr

structure CompressedKvSlot where
  compressedKeys : List UInt8
  compressedValues : List UInt8
  qjlCorrection : Option QjlCorrection
  kvOffset : UInt32
  numTokens : ℕ
  deriving DecidableEq, Repr

namespace CompressedKvSlot

/-- `(len as u32).to_le_bytes()`. -/
def lengthHeader (buffer : List UInt8) : List UInt8 :=
  encode 4 (UInt32.ofNat buffer.length).toNat

def toPageData (slot : CompressedKvSlot) : List UInt8 :=
  lengthHeader slot.compressedKeys ++ slot.compressedKeys ++
    lengthHeader slot.compressedValues ++ slot.compressedValues

def fromPageData (data : List UInt8) : Except String CompressedKvSlot :=
  if data.length < 8 then
    .error "page data too short: need at least 8 bytes for headers"
  else
    let keyLen := decode (data.take 4)
    let valLen := decode ((data.drop 4).take 4)
    if 8 + keyLen + valLen ≠ data.length then
      .error s!"page data length mismatch: expected {8 + keyLen + valLen} bytes, got {data.length}"
    else
      let keysEnd := 8 + keyLen
      .ok { compressedKeys := (data.take keysEnd).drop 8
            compressedValues := data.drop keysEnd
            qjlCorrection := none
            kvOffset := 0
            numTokens := 1 }

@[simp] theorem length_lengthHeader (buffer : List UInt8) : (lengthHeader buffer).length = 4 :=
  length_encode 4 _

theorem decode_lengthHeader {buffer : List UInt8} (short : buffer.length < 2 ^ 32) :
    decode (lengthHeader buffer) = buffer.length := by
  have same : (UInt32.ofNat buffer.length).toNat = buffer.length := by
    rw [UInt32.toNat_ofNat']
    omega
  rw [lengthHeader, same]
  exact decode_encode 4 _ (by omega)

/-- A four-byte header is the header of any buffer of the length it decodes to. -/
theorem lengthHeader_of_decode {header buffer : List UInt8} (width : header.length = 4)
    (len : buffer.length = decode header) : lengthHeader buffer = header := by
  have bound := decode_lt header
  rw [width] at bound
  have same : (UInt32.ofNat buffer.length).toNat = decode header := by
    rw [UInt32.toNat_ofNat', len]
    omega
  rw [lengthHeader, same, ← width]
  exact encode_decode header

/-- The decoder accepts the blobs whose two leading headers account for the rest. -/
theorem fromPageData_ok_iff (data : List UInt8) (slot : CompressedKvSlot) :
    fromPageData data = .ok slot ↔
      ∃ keyHeader valHeader keys values,
        data = keyHeader ++ valHeader ++ keys ++ values ∧ keyHeader.length = 4 ∧
        valHeader.length = 4 ∧ decode keyHeader = keys.length ∧
        decode valHeader = values.length ∧
        slot = { compressedKeys := keys, compressedValues := values, qjlCorrection := none,
                 kvOffset := 0, numTokens := 1 } := by
  constructor
  · intro h
    simp only [fromPageData] at h
    split_ifs at h with short mismatch
    cases h
    refine ⟨data.take 4, (data.drop 4).take 4,
      (data.take (8 + decode (data.take 4))).drop 8, data.drop (8 + decode (data.take 4)), ?_⟩
    have parts : data = data.take 4 ++ (data.drop 4).take 4 ++
        (data.take (8 + decode (data.take 4))).drop 8 ++ data.drop (8 + decode (data.take 4)) := by
      have eight : data.take 4 ++ (data.drop 4).take 4 = data.take 8 := by
        rw [show 8 = 4 + 4 from rfl, List.take_add]
      have head : data.take 8 = (data.take (8 + decode (data.take 4))).take 8 := by
        rw [List.take_take, Nat.min_eq_left (by omega)]
      rw [eight, head, List.take_append_drop, List.take_append_drop]
    refine ⟨parts, ?_, ?_, ?_, ?_, rfl⟩ <;> simp <;> omega
  · rintro ⟨keyHeader, valHeader, keys, values, rfl, hk, hv, dk, dv, rfl⟩
    have first : (keyHeader ++ valHeader ++ keys ++ values).take 4 = keyHeader := by
      rw [List.append_assoc, List.append_assoc, ← hk, List.take_left']
      rfl
    have second : ((keyHeader ++ valHeader ++ keys ++ values).drop 4).take 4 = valHeader := by
      rw [List.append_assoc, List.append_assoc, ← hk, List.drop_left' rfl, hk, ← hv,
        List.take_left' rfl]
    have len : (keyHeader ++ valHeader ++ keys).length = 8 + keys.length := by
      simp only [List.length_append, hk, hv]
    have start : (keyHeader ++ valHeader).length = 8 := by
      simp [hk, hv]
    simp only [fromPageData, first, second, dk, dv]
    rw [if_neg (by simp [hk, hv]; omega), if_neg (by simp [hk, hv]; omega),
      List.take_left' len, List.drop_left' len, List.drop_left' start]

/-- The layout condition on a blob: its key bytes commute with the second header. -/
def HeaderCommutes (data : List UInt8) : Prop :=
  let valHeader := (data.drop 4).take 4
  let keys := (data.drop 8).take (decode (data.take 4))
  keys ++ valHeader = valHeader ++ keys

private theorem headerCommutes_parts {keyHeader valHeader keys values : List UInt8}
    (hk : keyHeader.length = 4) (hv : valHeader.length = 4)
    (dk : decode keyHeader = keys.length) :
    HeaderCommutes (keyHeader ++ valHeader ++ keys ++ values) ↔
      keys ++ valHeader = valHeader ++ keys := by
  have first : (keyHeader ++ valHeader ++ keys ++ values).take 4 = keyHeader := by
    rw [List.append_assoc, List.append_assoc, List.take_left' hk]
  have second : ((keyHeader ++ valHeader ++ keys ++ values).drop 4).take 4 = valHeader := by
    rw [List.append_assoc, List.append_assoc, List.drop_left' hk, List.take_left' hv]
  have third : ((keyHeader ++ valHeader ++ keys ++ values).drop 8).take keys.length = keys := by
    rw [List.append_assoc, List.drop_left' (by simp [hk, hv]), List.take_left]
  simp only [HeaderCommutes, first, second, dk, third]

/-- Decoding what the encoder wrote gives the buffers back exactly when the key bytes
commute with the values' length header. -/
theorem fromPageData_toPageData_iff (slot : CompressedKvSlot)
    (short_keys : slot.compressedKeys.length < 2 ^ 32)
    (short_values : slot.compressedValues.length < 2 ^ 32) :
    (∃ decoded, fromPageData slot.toPageData = .ok decoded ∧
        decoded.compressedKeys = slot.compressedKeys ∧
        decoded.compressedValues = slot.compressedValues) ↔
      slot.compressedKeys ++ lengthHeader slot.compressedValues =
        lengthHeader slot.compressedValues ++ slot.compressedKeys := by
  constructor
  · rintro ⟨decoded, h, keysEq, valuesEq⟩
    obtain ⟨keyHeader, valHeader, keys, values, data, hk, hv, dk, dv, rfl⟩ :=
      (fromPageData_ok_iff _ _).mp h
    simp only at keysEq valuesEq
    subst keysEq valuesEq
    have header : lengthHeader slot.compressedValues = valHeader :=
      lengthHeader_of_decode hv dv.symm
    simp only [toPageData, List.append_assoc] at data
    obtain ⟨-, rest⟩ := List.append_inj data (by simp [hk])
    rw [← header, ← List.append_assoc, ← List.append_assoc] at rest
    exact List.append_cancel_right rest
  · intro commutes
    refine ⟨_, (fromPageData_ok_iff _ _).mpr ⟨lengthHeader slot.compressedKeys,
      lengthHeader slot.compressedValues, slot.compressedKeys, slot.compressedValues, ?_, by simp,
      by simp, decode_lengthHeader short_keys, decode_lengthHeader short_values, rfl⟩, rfl, rfl⟩
    simp only [toPageData, List.append_assoc]
    rw [← List.append_assoc slot.compressedKeys, commutes, List.append_assoc]

/-- Re-encoding an accepted blob gives it back exactly when its key bytes commute with its
second header. -/
theorem toPageData_fromPageData_iff (data : List UInt8) (slot : CompressedKvSlot)
    (accepted : fromPageData data = .ok slot) :
    slot.toPageData = data ↔ HeaderCommutes data := by
  obtain ⟨keyHeader, valHeader, keys, values, rfl, hk, hv, dk, dv, rfl⟩ :=
    (fromPageData_ok_iff _ _).mp accepted
  rw [headerCommutes_parts hk hv dk]
  have keyEq : lengthHeader keys = keyHeader := lengthHeader_of_decode hk dk.symm
  have valEq : lengthHeader values = valHeader := lengthHeader_of_decode hv dv.symm
  simp only [toPageData, keyEq, valEq, List.append_assoc, List.append_cancel_left_eq]
  rw [← List.append_assoc, ← List.append_assoc, List.append_left_inj]

/-- Both round trips, with the exact condition of each. -/
theorem page_data_round_trips (slot : CompressedKvSlot) (data : List UInt8)
    (short_keys : slot.compressedKeys.length < 2 ^ 32)
    (short_values : slot.compressedValues.length < 2 ^ 32) :
    ((∃ decoded, fromPageData slot.toPageData = .ok decoded ∧
        decoded.compressedKeys = slot.compressedKeys ∧
        decoded.compressedValues = slot.compressedValues) ↔
      slot.compressedKeys ++ lengthHeader slot.compressedValues =
        lengthHeader slot.compressedValues ++ slot.compressedKeys) ∧
    ∀ decoded, fromPageData data = .ok decoded →
      (decoded.toPageData = data ↔ HeaderCommutes data) :=
  ⟨fromPageData_toPageData_iff slot short_keys short_values, toPageData_fromPageData_iff data⟩

/-- A slot without key bytes, and a blob with one value byte. -/
theorem page_data_round_trips_empty_keys :
    (∃ decoded, fromPageData
        (toPageData ⟨[], [7, 8], none, 3, 2⟩) = .ok decoded ∧
        decoded.compressedKeys = [] ∧ decoded.compressedValues = [7, 8]) ∧
    ∀ decoded, fromPageData [0, 0, 0, 0, 1, 0, 0, 0, 9] = .ok decoded →
      decoded.toPageData = [0, 0, 0, 0, 1, 0, 0, 0, 9] := by
  have both := page_data_round_trips ⟨[], [7, 8], none, 3, 2⟩ [0, 0, 0, 0, 1, 0, 0, 0, 9]
    (by decide) (by decide)
  exact ⟨both.1.mpr rfl, fun decoded h => (both.2 decoded h).mpr rfl⟩

/-- One key byte is enough to break the round trip: the decoder takes it for the low byte of
the second length. -/
theorem one_key_byte_is_rejected :
    ¬ ∃ decoded, fromPageData (toPageData ⟨[1], [], none, 0, 1⟩) = .ok decoded ∧
      decoded.compressedKeys = [1] ∧ decoded.compressedValues = [] := by
  rintro ⟨decoded, h, -⟩
  have rejected : (fromPageData (toPageData ⟨[1], [], none, 0, 1⟩)).isOk = false := by decide
  rw [h] at rejected
  cases rejected

end CompressedKvSlot

end TribunusCompute.KvCache
