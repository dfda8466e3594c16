import TribunusCompute.TurboQuant.Cache
import TribunusCompute.TurboQuant.Lossless

/-!
# When quantizing a slot succeeds

A vector of a supported length is quantized and dequantized without a panic, and the other slots
stay as they are.
-/
namespace TribunusCompute.TurboQuant

open Outcome BitStream

variable {ops : FloatOps} {data : List UInt32} {buf : List UInt8} {bits len : ℕ}

/-! ## Decoders return on every buffer -/

theorem unpackCodes_total {width : ℕ} (recon : ℕ → Outcome UInt32) (buf : List UInt8) (len : ℕ)
    (narrow : width ≤ 32) (recons : ∀ val, ∃ x, recon val = .ok x) :
    ∃ result, unpackCodes width recon buf len = .ok result := by
  apply exists_mapM_ok
  intro k _
  obtain ⟨val, read, -⟩ := bitRead_ok buf (k * width) narrow
  obtain ⟨x, reconstructed⟩ := recons val
  exact ⟨x, bind_ok_iff.mpr ⟨val, read, reconstructed⟩⟩

theorem dequantizePolarStoredScale_total (ops : FloatOps) (buf : List UInt8) (len : ℕ)
    (low : 1 ≤ bits) (high : bits ≤ 32) :
    ∃ recon, dequantizePolarStoredScale ops buf len bits = .ok recon ∧ recon.length = len := by
  have below : bits - 1 < 32 := by omega
  obtain ⟨recon, ok⟩ := unpackCodes_total (fun encoded => do
      let high ← shr 32 encoded (bits - 1)
      return polarRecon ops (lastFloat buf) (high % 2, encoded &&& (2 ^ (bits - 1) - 1))) buf len high
    (fun val => ⟨_, bind_ok_iff.mpr ⟨_, shr_ok below val, rfl⟩⟩)
  have done : dequantizePolarStoredScale ops buf len bits = .ok recon :=
    bind_ok_iff.mpr ⟨(), assert_ok_iff.mpr low, bind_ok_iff.mpr ⟨_, shl_one below, ok⟩⟩
  exact ⟨recon, done, (dequantizePolarStoredScale_element done).1⟩

/-! ## Hadamard transform -/

theorem at_ok {i : ℕ} (inside : i < data.length) : at_ data i = .ok data[i] := by
  unfold at_
  rw [List.getElem?_eq_getElem inside]

theorem butterfly_ok (ops : FloatOps) {half i j : ℕ} (inside : i + j + half < data.length) :
    ∃ out, butterfly ops half i data j = .ok out ∧ out.length = data.length := by
  refine ⟨_, bind_ok_iff.mpr ⟨_, at_ok (by omega), bind_ok_iff.mpr ⟨_, at_ok inside, rfl⟩⟩, ?_⟩
  rw [List.length_set, List.length_set]

/-- A stage whose blocks tile the vector stays in bounds. -/
theorem hadamardStage_ok (ops : FloatOps) {half blocks : ℕ} (positive : 0 < half)
    (tiled : data.length = blocks * (half * 2)) :
    ∃ out, hadamardStage ops data.length half data = .ok out ∧ out.length = data.length := by
  have count : (data.length + half * 2 - 1) / (half * 2) = blocks := by
    rw [tiled, Nat.add_sub_assoc (by omega), Nat.mul_comm blocks, Nat.mul_add_div (by omega),
      Nat.div_eq_of_lt (by omega), Nat.add_zero]
  unfold hadamardStage
  simp only [count]
  apply foldlM_total (fun out : List UInt32 => out.length = data.length) _ rfl
  intro out block member same
  apply foldlM_total (fun out : List UInt32 => out.length = data.length) _ same
  intro out j inside same
  have block_lt := List.mem_range.mp member
  have j_lt := List.mem_range.mp inside
  have within : block * (half * 2) + j + half < out.length := by
    have room : (block + 1) * (half * 2) ≤ blocks * (half * 2) := Nat.mul_le_mul_right _ block_lt
    rw [Nat.add_mul, Nat.one_mul] at room
    omega
  obtain ⟨next, ok, kept⟩ := butterfly_ok ops within
  exact ⟨next, ok, kept.trans same⟩

theorem hadamardStages_ok (ops : FloatOps) {m k : ℕ} (size : data.length = 2 ^ m) (below : k ≤ m) :
    ∃ out, hadamardStages ops (2 ^ m) (2 ^ k) data = .ok out ∧ out.length = data.length := by
  induction rest : m - k generalizing k data with
  | zero =>
    have last : k = m := by omega
    rw [hadamardStages, last, if_neg (by simp)]
    exact ⟨data, rfl, rfl⟩
  | succ rest ih =>
    have later : k < m := by omega
    have smaller : 2 ^ k < 2 ^ m := Nat.pow_lt_pow_right (by decide) later
    have tiled : data.length = 2 ^ (m - (k + 1)) * (2 ^ k * 2) := by
      rw [size, ← Nat.pow_succ, ← Nat.pow_add, Nat.sub_add_cancel later]
    obtain ⟨middle, stage, same⟩ := hadamardStage_ok ops (Nat.two_pow_pos k) tiled
    obtain ⟨out, stages, kept⟩ := ih (same.trans size) later (by omega)
    rw [hadamardStages, if_pos ⟨Nat.two_pow_pos k, smaller⟩]
    rw [size] at stage
    rw [Nat.pow_succ] at stages
    exact ⟨out, bind_ok_iff.mpr ⟨middle, stage, stages⟩, kept.trans same⟩

theorem fastHadamardTransform_ok (ops : FloatOps) (power : data.length.isPowerOfTwo) :
    ∃ out, fastHadamardTransform ops data = .ok out ∧ out.length = data.length := by
  obtain ⟨m, size⟩ := power
  obtain ⟨out, stages, same⟩ := hadamardStages_ok ops size (Nat.zero_le m)
  refine ⟨out, bind_ok_iff.mpr ⟨(), assert_ok_iff.mpr ⟨m, size⟩, ?_⟩, same⟩
  rw [size]
  exact stages

/-- The transform returns exactly on the powers of two, and keeps the length. -/
theorem fastHadamardTransform_length {out : List UInt32}
    (ok : fastHadamardTransform ops data = .ok out) :
    data.length.isPowerOfTwo ∧ out.length = data.length := by
  obtain ⟨_, checked, -⟩ := bind_ok_iff.mp ok
  have power := assert_ok_iff.mp checked
  obtain ⟨out', ok', same⟩ := fastHadamardTransform_ok ops power
  obtain rfl := Except.ok.inj (ok.symm.trans ok')
  exact ⟨power, same⟩

/-! ## A decoder that returns gives as many elements as it was asked for -/

section Lengths

variable {recon : List UInt32}

theorem dequantizeProduct_length (ok : dequantizeProduct ops buf len = .ok recon) :
    recon.length = len := by
  unfold dequantizeProduct at ok
  split at ok
  · obtain rfl := pure_ok_iff.mp ok
    exact List.length_replicate
  · obtain ⟨width, -, unpacked⟩ := bind_ok_iff.mp ok
    exact (unpackCodes_element unpacked).1

theorem dequantizeSplit_length (ok : dequantizeSplit ops buf len = .ok recon) :
    recon.length = len := by
  unfold dequantizeSplit at ok
  split at ok
  · obtain rfl := pure_ok_iff.mp ok
    exact List.length_replicate
  · obtain ⟨-, -, ok⟩ := bind_ok_iff.mp ok
    obtain ⟨first, firstOk, ok⟩ := bind_ok_iff.mp ok
    obtain ⟨_, checked, ok⟩ := bind_ok_iff.mp ok
    obtain ⟨second, secondOk, ok⟩ := bind_ok_iff.mp ok
    obtain rfl := pure_ok_iff.mp ok
    have half := assert_ok_iff.mp checked
    rw [List.length_append, (dequantizePolarStoredScale_element firstOk).1,
      (dequantizePolarStoredScale_element secondOk).1, Nat.add_sub_cancel' half]

theorem dequantizePolarprod_length (ok : dequantizePolarprod ops buf len = .ok recon) :
    recon.length = len := by
  unfold dequantizePolarprod at ok
  split at ok
  · obtain rfl := pure_ok_iff.mp ok
    exact List.length_replicate
  · obtain ⟨polar, polarOk, ok⟩ := bind_ok_iff.mp ok
    obtain ⟨prod, prodOk, ok⟩ := bind_ok_iff.mp ok
    obtain rfl := pure_ok_iff.mp ok
    rw [List.length_zipWith, (dequantizePolarStoredScale_element polarOk).1,
      dequantizeProduct_length prodOk, Nat.min_self]

theorem dequantizeMse_length (ok : dequantizeMse ops buf len = .ok recon) :
    recon.length = len := by
  unfold dequantizeMse at ok
  split at ok
  · obtain rfl := pure_ok_iff.mp ok
    exact List.length_replicate
  · obtain ⟨width, -, unpacked⟩ := bind_ok_iff.mp ok
    exact (unpackCodes_element unpacked).1

theorem dequantizePolarHadamard_length
    (ok : dequantizePolarHadamard ops buf len bits = .ok recon) : recon.length = len := by
  obtain ⟨polar, polarOk, transformed⟩ := bind_ok_iff.mp ok
  rw [(fastHadamardTransform_length transformed).2,
    (dequantizePolarStoredScale_element polarOk).1]

theorem dequantizeData_length {mode : KvQuantMode}
    (ok : TurboQuantKvCache.dequantizeData ops mode buf len bits = .ok recon) :
    recon.length = len := by
  cases mode with
  | polar _ => exact (dequantizePolarStoredScale_element ok).1
  | prod _ => exact dequantizeProduct_length ok
  | split _ => exact dequantizeSplit_length ok
  | polarProd _ => exact dequantizePolarprod_length ok
  | mse _ _ => exact dequantizeMse_length ok
  | polarHadamard _ => exact dequantizePolarHadamard_length ok
  | turboQuant3 _ _ => exact dequantizePolarHadamard_length ok

end Lengths

/-! ## Vectors that are quantized and read back -/

/-- A vector is quantized to some bytes, which are dequantized to as many elements. -/
def Rereads (ops : FloatOps) (mode : KvQuantMode) (data : List UInt32) : Prop :=
  ∃ buf, TurboQuantKvCache.quantizeData ops mode data.length data = .ok buf ∧ buf ≠ [] ∧
    ∃ recon, TurboQuantKvCache.dequantizeData ops mode buf data.length mode.bits = .ok recon ∧
      recon.length = data.length

theorem rereads_polar (low : 1 ≤ bits) (high : bits ≤ 32) : Rereads ops (.polar bits) data := by
  obtain ⟨packed, -, ok⟩ := quantizePolarStoredScale_ok ops data low high
  refine ⟨_, ok, ?_, dequantizePolarStoredScale_total ops _ data.length low high⟩
  exact List.append_ne_nil_of_right_ne_nil _ (List.ne_nil_of_length_pos (by simp))

theorem rereads_prod (high : bits < 32) : Rereads ops (.prod bits) data := by
  obtain ⟨packed, holds, ok⟩ := quantizeProduct_ok ops data high
  refine ⟨_, ok, ?_, _, dequantizeProduct_ok high holds, length_productDecoded ops data bits⟩
  exact List.append_ne_nil_of_right_ne_nil _
    (List.ne_nil_of_length_pos (by rw [length_productTrailer]; decide))

/-- The split codec returns even where its trailer cannot store the head dimension. -/
theorem rereads_split (low : 1 ≤ bits) (high : bits ≤ 32) : Rereads ops (.split bits) data := by
  obtain ⟨first, second, holds, -, ok⟩ := quantizeSplit_ok ops low high (Nat.div_le_self data.length 2)
  refine ⟨_, congrArg (Prod.fst <$> ·) ok, ?_, ?_⟩
  · apply List.append_ne_nil_of_left_ne_nil
    exact List.append_ne_nil_of_right_ne_nil _ (List.ne_nil_of_length_pos (by simp))
  · have stored : data.length % 2 ^ 32 / 2 ≤ data.length / 2 :=
      Nat.div_le_div_right (Nat.mod_le _ _)
    have size := length_polarBuffer holds
    rw [List.length_take, Nat.min_eq_left (Nat.div_le_self _ _)] at size
    show ∃ recon, dequantizeSplit ops _ data.length = .ok recon ∧ recon.length = data.length
    rw [← List.append_assoc, dequantizeSplit_eq _ _ high]
    obtain ⟨firstRecon, firstOk, firstLength⟩ := dequantizePolarStoredScale_total ops
      ((polarBuffer ops (data.take (data.length / 2)) bits first ++
        polarBuffer ops (data.drop (data.length / 2)) (secondBitsOf bits) second).take
          ((bits * (data.length % 2 ^ 32 / 2) + 7) / 8 + 4)) (data.length % 2 ^ 32 / 2) low high
    obtain ⟨secondRecon, secondOk, secondLength⟩ := dequantizePolarStoredScale_total ops
      ((polarBuffer ops (data.take (data.length / 2)) bits first ++
        polarBuffer ops (data.drop (data.length / 2)) (secondBitsOf bits) second).drop
          ((bits * (data.length % 2 ^ 32 / 2) + 7) / 8 + 4))
      (data.length - data.length % 2 ^ 32 / 2) (one_le_secondBitsOf low)
      (Nat.le_trans (secondBitsOf_le bits) high)
    have half : data.length % 2 ^ 32 / 2 ≤ data.length :=
      Nat.le_trans stored (Nat.div_le_self _ _)
    refine ⟨firstRecon ++ secondRecon, ?_, ?_⟩
    · apply bind_ok_iff.mpr ⟨(), assert_ok_iff.mpr _, _⟩
      · have shorter := Nat.mul_le_mul_left bits stored
        rw [List.length_append, size]
        omega
      apply bind_ok_iff.mpr ⟨_, firstOk, _⟩
      apply bind_ok_iff.mpr ⟨(), assert_ok_iff.mpr half, _⟩
      exact bind_ok_iff.mpr ⟨_, secondOk, rfl⟩
    · rw [List.length_append, firstLength, secondLength, Nat.add_sub_cancel' half]

theorem rereads_polarProd (high : bits < 32) : Rereads ops (.polarProd bits) data := by
  obtain ⟨buf, some, ok, decoded⟩ := polarprod_ok ops data high
  exact ⟨buf, ok, some, _, decoded, dequantizePolarprod_length decoded⟩

theorem rereads_mse {stateBits : ℕ} (high : bits ≤ 16) (states : stateBits < 64) :
    Rereads ops (.mse bits stateBits) [] := by
  have scale : mseScale ops [] (2 ^ bits) = one := by
    unfold mseScale
    exact if_pos ops.zero_eq_zero
  have written : quantizeMse ops [] bits stateBits =
      .ok (leBytes bits ++ leBytes stateBits ++ leBytes one.toNat) := by
    apply bind_ok_iff.mpr ⟨_, shl_one states, _⟩
    apply bind_ok_iff.mpr ⟨_, shl_one (by omega), _⟩
    apply bind_ok_iff.mpr ⟨_, fit_ok_iff.mpr ⟨by omega, rfl⟩, _⟩
    apply bind_ok_iff.mpr ⟨[], rfl, _⟩
    rw [scale]
    rfl
  have middle : readU32 (leBytes bits ++ leBytes stateBits ++ leBytes one.toNat) 4 = stateBits :=
    readU32_eq (leBytes bits) (leBytes one.toNat) (List.append_assoc _ _ _) (by simp) (by omega)
  have last : readU32 (leBytes bits ++ leBytes stateBits ++ leBytes one.toNat) 8 = one.toNat :=
    readU32_eq (leBytes bits ++ leBytes stateBits) [] (by simp) (by simp) (by decide)
  refine ⟨_, written, List.ne_nil_of_length_pos (by simp), [], ?_, rfl⟩
  show dequantizeMse ops _ 0 = _
  unfold dequantizeMse
  rw [if_neg (by simp)]
  have off : (leBytes bits ++ leBytes stateBits ++ leBytes one.toNat).length - 12 = 0 := by simp
  simp only [off, Nat.zero_add, middle, last]
  have fits : one.toNat + stateBits < 2 ^ 32 := by
    show 0x3F800000 + stateBits < 2 ^ 32
    omega
  exact bind_ok_iff.mpr ⟨_, fit_ok_iff.mpr ⟨fits, rfl⟩, rfl⟩

theorem rereads_hadamard (low : 1 ≤ bits) (high : bits ≤ 32) (power : data.length.isPowerOfTwo) :
    ∃ buf, quantizePolarHadamard ops data bits = .ok buf ∧ buf ≠ [] ∧
      ∃ recon, dequantizePolarHadamard ops buf data.length bits = .ok recon ∧
        recon.length = data.length := by
  obtain ⟨transformed, first, same⟩ := fastHadamardTransform_ok ops power
  obtain ⟨packed, -, ok⟩ := quantizePolarStoredScale_ok ops transformed low high
  refine ⟨_, bind_ok_iff.mpr ⟨transformed, first, ok⟩, ?_, ?_⟩
  · exact List.append_ne_nil_of_right_ne_nil _ (List.ne_nil_of_length_pos (by simp))
  · obtain ⟨polar, polarOk, polarLength⟩ := dequantizePolarStoredScale_total ops
      (packed ++ leBytes (polarScale ops transformed (maxLevelsOf bits)).toNat) data.length low high
    obtain ⟨recon, second, kept⟩ := fastHadamardTransform_ok ops (polarLength.symm ▸ power)
    exact ⟨recon, bind_ok_iff.mpr ⟨polar, polarOk, second⟩, kept.trans polarLength⟩

def KvQuantMode.Supports (mode : KvQuantMode) (len : ℕ) : Prop :=
  match mode with
  | .polar _ => True
  | .prod _ => True
  | .split _ => True
  | .polarProd _ => True
  | .mse _ stateBits => len = 0 ∧ stateBits < 64
  | .polarHadamard _ => len.isPowerOfTwo
  | .turboQuant3 _ _ => len.isPowerOfTwo

theorem rereads_of_supports (ops : FloatOps) {mode : KvQuantMode} (low : 2 ≤ mode.bits) (high : mode.bits ≤ 16)
    (supports : mode.Supports data.length) : Rereads ops mode data := by
  cases mode with
  | polar bits => exact rereads_polar (Nat.le_of_succ_le low) (Nat.le_trans high (by decide))
  | prod bits => exact rereads_prod (Nat.lt_of_le_of_lt high (by decide))
  | split bits => exact rereads_split (Nat.le_of_succ_le low) (Nat.le_trans high (by decide))
  | polarProd bits => exact rereads_polarProd (Nat.lt_of_le_of_lt high (by decide))
  | mse bits stateBits =>
    obtain ⟨none, states⟩ := supports
    obtain rfl := List.length_eq_zero_iff.mp none
    exact rereads_mse high states
  | polarHadamard bits =>
    exact rereads_hadamard (Nat.le_of_succ_le low) (Nat.le_trans high (by decide)) supports
  | turboQuant3 bits _ =>
    exact rereads_hadamard (Nat.le_of_succ_le low) (Nat.le_trans high (by decide)) supports

/-! ## The trailer of the state codec -/

section Mse

variable {width : ℕ}

/-- A set bit behind the first 32 is shifted out of the code, which panics. -/
theorem bit_of_bitRead {bitOffset val : ℕ} (ok : bitRead buf bitOffset width = .ok val) {i : ℕ}
    (inside : i < width) (wide : 32 ≤ i) : bit buf (bitOffset + i) = false := by
  induction width generalizing val with
  | zero => cases inside
  | succ width ih =>
    obtain ⟨middle, before, turn⟩ := foldlM_range_succ_ok_iff.mp ok
    rcases Nat.lt_or_ge i width with earlier | last
    · exact ih before earlier
    · obtain rfl : i = width := Nat.le_antisymm (Nat.le_of_lt_succ inside) last
      by_contra set
      rw [Bool.not_eq_false] at set
      unfold readBit at turn
      rw [if_pos ((bit_probe _ _).mpr set)] at turn
      obtain ⟨_, shifted, -⟩ := bind_ok_iff.mp turn
      rw [shl, if_neg (Nat.not_lt.mpr wide)] at shifted
      cases shifted

theorem length_bitWrite_le {bitOffset value : ℕ} {written : List UInt8}
    (ok : bitWrite buf bitOffset width value = .ok written) :
    written.length ≤ buf.length + width := by
  induction width generalizing written with
  | zero =>
    obtain rfl := pure_ok_iff.mp ok
    exact Nat.le_refl _
  | succ width ih =>
    obtain ⟨middle, before, turn⟩ := foldlM_range_succ_ok_iff.mp ok
    have earlier := ih before
    obtain ⟨shifted, -, rest⟩ := bind_ok_iff.mp turn
    have last : written.length ≤ middle.length + 1 := by
      split at rest
      · obtain ⟨-, -, rest⟩ := bind_ok_iff.mp rest
        obtain rfl := pure_ok_iff.mp rest
        rw [List.length_set]
        split <;> simp
      · obtain rfl := pure_ok_iff.mp rest
        split <;> simp
    omega

theorem length_packCodes_le {code : UInt32 → Outcome ℕ} {bitPos : ℕ} {packed : List UInt8}
    (ok : packCodes width code buf bitPos data = .ok packed) :
    packed.length ≤ buf.length + data.length * width := by
  induction data generalizing buf bitPos with
  | nil =>
    obtain rfl := pure_ok_iff.mp ok
    simp
  | cons x data ih =>
    obtain ⟨val, -, ok⟩ := bind_ok_iff.mp ok
    obtain ⟨written, first, later⟩ := bind_ok_iff.mp ok
    have here := length_bitWrite_le first
    have rest := ih later
    rw [List.length_cons, Nat.add_mul, Nat.one_mul]
    omega

theorem maxAbs_zeros (ops : FloatOps) (len : ℕ) : maxAbs ops (List.replicate len 0) = 0 := by
  unfold maxAbs
  induction len with
  | zero => rfl
  | succ len ih => rw [List.replicate_succ, List.foldl_cons, ops.max_abs_zero, ih]

theorem quantizeMse_zeros {stateBits : ℕ}
    (ok : quantizeMse ops (List.replicate len 0) bits stateBits = .ok buf) :
    stateBits < 64 ∧ ∃ packed, packed.length ≤ len * (stateBits + bits + 1) ∧
      buf = packed ++ leBytes bits ++ leBytes stateBits ++ leBytes one.toNat := by
  obtain ⟨numStates, states, ok⟩ := bind_ok_iff.mp ok
  obtain ⟨quantLevels, -, ok⟩ := bind_ok_iff.mp ok
  obtain ⟨bitsPerElem, summed, ok⟩ := bind_ok_iff.mp ok
  obtain ⟨packed, packs, ok⟩ := bind_ok_iff.mp ok
  obtain rfl := pure_ok_iff.mp ok
  obtain ⟨-, rfl⟩ := fit_ok_iff.mp summed
  constructor
  · unfold shl at states
    split at states
    next below => exact below
    next => cases states
  · have short := length_packCodes_le packs
    rw [List.length_nil, List.length_replicate, Nat.zero_add] at short
    refine ⟨packed, short, ?_⟩
    have scale : mseScale ops (List.replicate len 0) quantLevels = one := by
      unfold mseScale
      rw [maxAbs_zeros]
      exact if_pos ops.zero_eq_zero
    rw [scale]

/-- The decoder takes the scale for a width: it reads the trailer in another order than it was
written, and no code of that width fits. -/
theorem not_dequantizeMse_zeros {packed : List UInt8} {stateBits : ℕ} {recon : List UInt32}
    (low : 2 ≤ bits) (high : bits ≤ 16) (states : stateBits < 64) (some : 0 < len)
    (short : packed.length ≤ len * (stateBits + bits + 1)) :
    dequantizeMse ops (packed ++ leBytes bits ++ leBytes stateBits ++ leBytes one.toNat) len ≠
      .ok recon := by
  intro ok
  generalize bufIs : packed ++ leBytes bits ++ leBytes stateBits ++ leBytes one.toNat = buf at ok
  have off : buf.length - 12 = packed.length := by simp [← bufIs]
  have middle : readU32 buf (packed.length + 4) = stateBits :=
    readU32_eq (packed ++ leBytes bits) (leBytes one.toNat) (by simp [← bufIs]) (by simp) (by omega)
  have last : readU32 buf (packed.length + 8) = one.toNat :=
    readU32_eq (packed ++ leBytes bits ++ leBytes stateBits) [] (by simp [← bufIs]) (by simp)
      (by decide)
  unfold dequantizeMse at ok
  rw [if_neg (by simp [← bufIs])] at ok
  simp only [off, middle, last] at ok
  obtain ⟨width, summed, unpacked⟩ := bind_ok_iff.mp ok
  obtain ⟨-, rfl⟩ := fit_ok_iff.mp summed
  obtain ⟨-, each⟩ := unpackCodes_element unpacked
  have clear : ∀ k < len, ∀ i, 32 ≤ i → i < one.toNat + stateBits + 1 →
      bit buf (k * (one.toNat + stateBits + 1) + i) = false := by
    intro k inside i wide within
    obtain ⟨val, read, -⟩ := each k inside
    exact bit_of_bitRead read within wide
  -- one bit of the widths, and one of the scale
  obtain ⟨j, near, first⟩ : ∃ j < 5, bit buf (8 * packed.length + j) = true := by
    have field : ∀ n < 17, 2 ≤ n → ∃ j < 5, bit (leBytes n) j = true := by decide
    obtain ⟨j, near, set⟩ := field bits (by omega) low
    refine ⟨j, near, ?_⟩
    rw [← bufIs, List.append_assoc, List.append_assoc, bit_append_right, bit_append_left, set]
    rw [length_leBytes]
    omega
  have second : bit buf (8 * packed.length + 87) = true := by
    have place : 8 * packed.length + 87 =
        8 * (packed ++ leBytes bits ++ leBytes stateBits).length + 23 := by
      simp only [List.length_append, length_leBytes]
      omega
    rw [← bufIs, place, bit_append_right]
    decide
  have scale : one.toNat = 1065353216 := rfl
  rw [scale] at clear
  generalize widthIs : 1065353216 + stateBits + 1 = width at clear
  have inside : (8 * packed.length + 87) / width < len := by
    apply Nat.div_lt_of_lt_mul
    have codes : len * (stateBits + bits + 1) ≤ len * 81 := Nat.mul_le_mul_left len (by omega)
    have windows : 1065353217 * len ≤ width * len := Nat.mul_le_mul_right len (by omega)
    omega
  have place : (8 * packed.length + 87) / width * width + (8 * packed.length + 87) % width =
      8 * packed.length + 87 := Nat.div_add_mod' _ _
  have within : (8 * packed.length + 87) % width < width := Nat.mod_lt _ (by omega)
  generalize (8 * packed.length + 87) / width = k at inside place
  generalize (8 * packed.length + 87) % width = r at place within
  rcases Nat.lt_or_ge r 32 with start | later
  · -- the window starts at the scale, so that the widths lie at the end of the one before
    cases k with
    | zero => omega
    | succ k =>
      have before : 8 * packed.length + j = k * width + (width + r - (87 - j)) := by
        rw [Nat.add_mul, Nat.one_mul] at place
        omega
      have cleared := clear k (Nat.lt_of_succ_lt inside) (width + r - (87 - j)) (by omega) (by omega)
      rw [← before, first] at cleared
      cases cleared
  · have cleared := clear k inside r later within
    rw [place, second] at cleared
    cases cleared

end Mse

namespace TurboQuantKvCache

theorem correctionOf_ok {mode : KvQuantMode} {recon : List UInt32}
    (decoded : dequantizeData ops mode buf data.length mode.bits = .ok recon)
    (length : recon.length = data.length) :
    ∃ correction, correctionOf ops mode data buf = .ok correction := by
  cases mode with
  | turboQuant3 bits qjlBits =>
    exact ⟨_, bind_ok_iff.mpr ⟨recon, decoded,
      bind_ok_iff.mpr ⟨(), assert_ok_iff.mpr length.symm, rfl⟩⟩⟩
  | _ => exact ⟨_, rfl⟩

theorem length_corrected (residualBits : List UInt8) (magnitude : UInt32) :
    (corrected ops data residualBits magnitude).length = data.length := by
  simp [corrected, applyQjlCorrection]

theorem dequantizeState_ok {mode : KvQuantMode} {st : TurboQuantState} {keys values : List UInt32}
    (first : dequantizeData ops mode st.keys st.headDim st.kBits = .ok keys)
    (second : dequantizeData ops mode st.values st.headDim st.vBits = .ok values) :
    ∃ k v, dequantizeState ops mode st = .ok (k, v) ∧ k.length = keys.length ∧
      v.length = values.length := by
  unfold dequantizeState
  rw [first, second]
  cases mode with
  | turboQuant3 bits qjlBits =>
    by_cases corrects : st.qjlKeys ≠ []
    · exact ⟨_, _, if_pos corrects, length_corrected _ _, length_corrected _ _⟩
    · exact ⟨_, _, if_neg corrects, rfl, rfl⟩
  | _ => exact ⟨_, _, rfl, rfl, rfl⟩

theorem dequantizeState_length {mode : KvQuantMode} {st : TurboQuantState} {k v : List UInt32}
    (ok : dequantizeState ops mode st = .ok (k, v)) :
    k.length = st.headDim ∧ v.length = st.headDim := by
  obtain ⟨keys, first, rest⟩ := bind_ok_iff.mp ok
  obtain ⟨values, second, -⟩ := bind_ok_iff.mp rest
  obtain ⟨k', v', ok', keysLength, valuesLength⟩ := dequantizeState_ok first second
  obtain ⟨rfl, rfl⟩ := Prod.mk.inj (Except.ok.inj (ok.symm.trans ok'))
  exact ⟨keysLength.trans (dequantizeData_length first),
    valuesLength.trans (dequantizeData_length second)⟩

structure Records (ops : FloatOps) (mode : KvQuantMode) (keys values : List UInt32)
    (st : TurboQuantState) : Prop where
  keyBytes : quantizeData ops mode keys.length keys = .ok st.keys
  valueBytes : quantizeData ops mode keys.length values = .ok st.values
  headDim : st.headDim = keys.length
  kBits : st.kBits = mode.bits
  vBits : st.vBits = mode.bits
  symmetric : st.asymMode = none

theorem quantizeState_records {mode : KvQuantMode} {keys values : List UInt32}
    {st : TurboQuantState} (ok : quantizeState ops mode keys values = .ok st) :
    Records ops mode keys values st := by
  obtain ⟨keyBuf, keysOk, ok⟩ := bind_ok_iff.mp ok
  obtain ⟨valBuf, valuesOk, ok⟩ := bind_ok_iff.mp ok
  obtain ⟨keyCorrection, -, ok⟩ := bind_ok_iff.mp ok
  obtain ⟨valCorrection, -, ok⟩ := bind_ok_iff.mp ok
  obtain rfl := pure_ok_iff.mp ok
  exact ⟨keysOk, valuesOk, rfl, rfl, rfl, rfl⟩

theorem quantizeState_ok (ops : FloatOps) {mode : KvQuantMode} {keys values : List UInt32}
    (low : 2 ≤ mode.bits) (high : mode.bits ≤ 16) (same : keys.length = values.length)
    (supports : mode.Supports keys.length) :
    ∃ st, quantizeState ops mode keys values = .ok st ∧ st.keys ≠ [] ∧ st.asymMode = none ∧
      ∃ k v, dequantizeState ops mode st = .ok (k, v) ∧ k.length = keys.length ∧
        v.length = values.length := by
  obtain ⟨keyBuf, keysOk, some, keyRecon, keysBack, keyLength⟩ :=
    rereads_of_supports ops low high supports
  obtain ⟨valBuf, valuesOk, -, valRecon, valuesBack, valLength⟩ :=
    rereads_of_supports ops low high (same ▸ supports)
  obtain ⟨keyCorrection, keyOk⟩ := correctionOf_ok keysBack keyLength
  obtain ⟨valCorrection, valOk⟩ := correctionOf_ok valuesBack valLength
  rw [← same] at valuesOk valuesBack
  obtain ⟨st, ok⟩ : ∃ st, quantizeState ops mode keys values = .ok st :=
    ⟨_, bind_ok_iff.mpr ⟨keyBuf, keysOk, bind_ok_iff.mpr ⟨valBuf, valuesOk,
      bind_ok_iff.mpr ⟨keyCorrection, keyOk, bind_ok_iff.mpr ⟨valCorrection, valOk, rfl⟩⟩⟩⟩⟩
  have records := quantizeState_records ok
  obtain rfl : keyBuf = st.keys := Except.ok.inj (keysOk.symm.trans records.keyBytes)
  obtain rfl : valBuf = st.values := Except.ok.inj (valuesOk.symm.trans records.valueBytes)
  rw [← records.kBits, ← records.headDim] at keysBack
  rw [← records.vBits, ← records.headDim] at valuesBack
  obtain ⟨k, v, decoded, kLength, vLength⟩ := dequantizeState_ok keysBack valuesBack
  exact ⟨st, ok, some, records.symmetric, k, v, decoded, kLength.trans keyLength,
    vLength.trans valLength⟩

/-! ## The other slots -/

section Store

variable {cache : TurboQuantKvCache} {slot other : ℕ} {filler st : TurboQuantState}

theorem store_at (inside : slot < cache.capacity) :
    (cache.store slot inside filler st).state[slot]? = some st := by
  apply List.getElem?_set_self
  rw [List.length_append, List.length_replicate]
  omega

theorem store_below (inside : slot < cache.capacity) (apart : other ≠ slot)
    (present : other < cache.state.length) :
    (cache.store slot inside filler st).state[other]? = cache.state[other]? := by
  show (List.set _ _ _)[other]? = _
  rw [List.getElem?_set_ne apart.symm, List.getElem?_append_left present]

theorem store_beyond (filler st : TurboQuantState) (inside : slot < cache.capacity) (apart : other ≠ slot)
    (absent : cache.state.length ≤ other) :
    (cache.store slot inside filler st).state[other]? = none ∨
      (cache.store slot inside filler st).state[other]? = some filler := by
  show (List.set _ _ _)[other]? = none ∨ (List.set _ _ _)[other]? = some filler
  rw [List.getElem?_set_ne apart.symm, List.getElem?_append_right absent, List.getElem?_replicate]
  split
  · exact .inr rfl
  · exact .inl rfl

theorem dequantize_congr {left right : TurboQuantKvCache} (modes : left.quantMode = right.quantMode)
    {st : TurboQuantState} (here : left.state[other]? = some st)
    (there : right.state[other]? = some st) :
    left.dequantize ops other = right.dequantize ops other := by
  unfold dequantize dequantizeAsymmetric
  simp only [here, there, modes]

/-- A slot reads as before: the same way, or with an error as before. -/
def ReadsAsBefore (ops : FloatOps) (before after : TurboQuantKvCache) (other : ℕ) : Prop :=
  after.dequantize ops other = before.dequantize ops other ∨
    (∃ error, before.dequantize ops other = .ok (.error error)) ∧
      ∃ error, after.dequantize ops other = .ok (.error error)

theorem dequantize_absent (absent : cache.state[other]? = none) :
    ∃ error, cache.dequantize ops other = .ok (.error error) := by
  unfold dequantize
  rw [absent]
  exact ⟨_, rfl⟩

theorem store_readsAsBefore (inside : slot < cache.capacity) (apart : other ≠ slot)
    (unused : filler.keys = []) :
    ReadsAsBefore ops cache (cache.store slot inside filler st) other := by
  rcases Nat.lt_or_ge other cache.state.length with present | absent
  · have here := List.getElem?_eq_getElem present
    exact .inl (dequantize_congr rfl ((store_below inside apart present).trans here) here)
  · refine .inr ⟨dequantize_absent (List.getElem?_eq_none absent), ?_⟩
    rcases store_beyond filler st inside apart absent with none | skipped
    · exact dequantize_absent none
    · unfold dequantize
      rw [skipped]
      exact ⟨_, if_pos unused⟩

theorem dequantize_store {mode : KvQuantMode} (inside : slot < cache.capacity)
    (modes : cache.quantMode = mode) (used : st.keys ≠ []) (symmetric : st.asymMode = none) :
    (cache.store slot inside filler st).dequantize ops slot =
      Except.ok <$> dequantizeState ops mode st := by
  unfold dequantize
  rw [store_at]
  simp only [if_neg used, symmetric, Option.isSome_none, Bool.false_eq_true, if_false, ← modes]
  rfl

end Store

/-! ## The law of a quantized slot -/

/-- The call returns; with an error, and the cache as it was, or with the token in its slot, where
it is dequantized to vectors of its lengths, while the other slots read as before. -/
def QuantizeLaw (ops : FloatOps) (cache : TurboQuantKvCache) (slot : ℕ)
    (keys values : List UInt32) : Prop :=
  ∃ result after, cache.quantize ops slot keys values = .ok (result, after) ∧
    match result with
    | .error _ => after = cache
    | .ok () =>
      (∃ k v, after.dequantize ops slot = .ok (.ok (k, v)) ∧ k.length = keys.length ∧
        v.length = values.length) ∧ ∀ other ≠ slot, ReadsAsBefore ops cache after other

theorem quantize_outside {cache : TurboQuantKvCache} {slot : ℕ} (outside : cache.capacity ≤ slot)
    (keys values : List UInt32) : QuantizeLaw ops cache slot keys values := by
  refine ⟨.error (.slotOutOfBounds slot cache.capacity), cache, ?_, rfl⟩
  unfold quantize
  rw [dif_neg (Nat.not_lt.mpr outside)]
  rfl

theorem quantize_inside {cache : TurboQuantKvCache} {slot : ℕ} (inside : slot < cache.capacity)
    (keys values : List UInt32) :
    cache.quantize ops slot keys values =
      (quantizeState ops cache.quantMode keys values >>= fun st =>
        pure (.ok (), cache.store slot inside (.empty cache.quantMode.bits) st)) := by
  unfold quantize
  rw [dif_pos inside]

theorem quantizeLaw_of_supports {cache : TurboQuantKvCache} {slot : ℕ} {keys values : List UInt32}
    (low : 2 ≤ cache.quantMode.bits) (high : cache.quantMode.bits ≤ 16)
    (inside : slot < cache.capacity) (same : keys.length = values.length)
    (supports : cache.quantMode.Supports keys.length) : QuantizeLaw ops cache slot keys values := by
  obtain ⟨st, ok, used, symmetric, k, v, decoded, kLength, vLength⟩ :=
    quantizeState_ok ops low high same supports
  refine ⟨.ok (), cache.store slot inside (.empty cache.quantMode.bits) st, ?_,
    ⟨k, v, ?_, kLength, vLength⟩, ?_⟩
  · rw [quantize_inside inside]
    exact bind_ok_iff.mpr ⟨st, ok, rfl⟩
  · rw [dequantize_store inside rfl used symmetric, decoded]
    rfl
  · intro other apart
    exact store_readsAsBefore inside apart rfl

theorem dequantizeState_of_dequantize {cache : TurboQuantKvCache} {slot : ℕ}
    {st : TurboQuantState} {k v : List UInt32} (here : cache.state[slot]? = some st)
    (symmetric : st.asymMode = none) (ok : cache.dequantize ops slot = .ok (.ok (k, v))) :
    dequantizeState ops cache.quantMode st = .ok (k, v) := by
  unfold dequantize at ok
  rw [here] at ok
  by_cases unused : st.keys = []
  · simp only [if_pos unused] at ok
    cases ok
  · simp only [if_neg unused, symmetric, Option.isSome_none, Bool.false_eq_true, if_false] at ok
    cases decoded : dequantizeState ops cache.quantMode st with
    | error fault =>
      rw [decoded] at ok
      cases ok
    | ok both =>
      rw [decoded] at ok
      cases ok
      rfl

/-- A law that holds for vectors of zeros is one of supported lengths. -/
theorem supports_of_quantizeLaw {cache : TurboQuantKvCache} {slot keyLen valueLen : ℕ}
    (low : 2 ≤ cache.quantMode.bits) (high : cache.quantMode.bits ≤ 16)
    (inside : slot < cache.capacity)
    (law : QuantizeLaw ops cache slot (List.replicate keyLen 0) (List.replicate valueLen 0)) :
    keyLen = valueLen ∧ cache.quantMode.Supports keyLen := by
  obtain ⟨result, after, ok, lawful⟩ := law
  rw [quantize_inside inside] at ok
  obtain ⟨st, quantized, done⟩ := bind_ok_iff.mp ok
  obtain ⟨rfl, rfl⟩ := Prod.mk.inj (pure_ok_iff.mp done)
  obtain ⟨⟨k, v, decoded, kLength, vLength⟩, -⟩ := lawful
  have records := quantizeState_records quantized
  have decoded := dequantizeState_of_dequantize (store_at inside) records.symmetric decoded
  constructor
  · have same := (dequantizeState_length decoded).2
    rw [records.headDim, vLength, List.length_replicate, List.length_replicate] at same
    exact same.symm
  · have bytes := records.keyBytes
    obtain ⟨recon, keysBack, -⟩ := bind_ok_iff.mp decoded
    rw [records.headDim, records.kBits, List.length_replicate] at keysBack
    rw [show (cache.store slot inside (.empty cache.quantMode.bits) st).quantMode =
      cache.quantMode from rfl] at keysBack
    generalize cache.quantMode = mode at low high bytes keysBack
    cases mode with
    | mse bits stateBits =>
      obtain ⟨states, packed, short, written⟩ := quantizeMse_zeros bytes
      refine ⟨?_, states⟩
      by_contra some
      rw [written] at keysBack
      exact not_dequantizeMse_zeros low high states (Nat.pos_of_ne_zero some) short keysBack
    | polarHadamard bits =>
      obtain ⟨transformed, first, -⟩ := bind_ok_iff.mp bytes
      have power := (fastHadamardTransform_length first).1
      rwa [List.length_replicate] at power
    | turboQuant3 bits qjlBits =>
      obtain ⟨transformed, first, -⟩ := bind_ok_iff.mp bytes
      have power := (fastHadamardTransform_length first).1
      rwa [List.length_replicate] at power
    | _ => trivial

/-- Quantizing is lawful for all vectors of two lengths exactly when the slot is beyond the
capacity, or the lengths agree and the mode supports them. -/
theorem quantizeLaw_iff (ops : FloatOps) (cache : TurboQuantKvCache) (slot keyLen valueLen : ℕ)
    (low : 2 ≤ cache.quantMode.bits) (high : cache.quantMode.bits ≤ 16) :
    (∀ keys values : List UInt32, keys.length = keyLen → values.length = valueLen →
      QuantizeLaw ops cache slot keys values) ↔
        cache.capacity ≤ slot ∨ keyLen = valueLen ∧ cache.quantMode.Supports keyLen := by
  constructor
  · intro law
    rcases Nat.lt_or_ge slot cache.capacity with inside | outside
    · exact .inr (supports_of_quantizeLaw low high inside
        (law _ _ List.length_replicate List.length_replicate))
    · exact .inl outside
  · rintro (outside | ⟨rfl, supports⟩) keys values rfl same
    · exact quantize_outside outside keys values
    · rcases Nat.lt_or_ge slot cache.capacity with inside | outside
      · exact quantizeLaw_of_supports low high inside same.symm supports
      · exact quantize_outside outside keys values

/-- Two keys and two values, in four bits each. -/
theorem polar_quantizeLaw :
    QuantizeLaw .machine (new (.polar 4) 32 1) 0 [0x3F800000, 0xBF800000] [0x40000000, 0] :=
  (quantizeLaw_iff .machine (new (.polar 4) 32 1) 0 2 2 (by decide) (by decide)).mpr
    (.inr ⟨rfl, trivial⟩) _ _ rfl rfl

/-- Three keys cannot be transformed. -/
theorem three_keys_not_quantizeLaw :
    ¬ ∀ (cache : TurboQuantKvCache) (slot : ℕ) (keys values : List UInt32),
      2 ≤ cache.quantMode.bits → cache.quantMode.bits ≤ 16 →
        QuantizeLaw .machine cache slot keys values := by
  intro all
  have law := all (new (.polarHadamard 4) 32 1) 0 (List.replicate 3 0) (List.replicate 3 0)
    (by decide) (by decide)
  obtain ⟨-, power⟩ := supports_of_quantizeLaw (by decide) (by decide) Nat.one_pos law
  have notPower : ¬Nat.isPowerOfTwo 3 := by decide
  exact notPower power


end TurboQuantKvCache

end TribunusCompute.TurboQuant
