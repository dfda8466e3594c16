import TribunusCompute.TurboQuant.Packing

/-!
# Decoding what was encoded

Each codec gives back, for every element, the reconstruction from the stored scales and from the
code that the encoder computed.
-/
namespace TribunusCompute.TurboQuant

open Outcome BitStream

/-! ## Codes -/

theorem shl_fits {width a m : ℕ} (n : ℕ) (fits : a < 2 ^ n) (below : m < width)
    (narrow : n + m ≤ width) : shl width a m = .ok (a <<< m) := by
  rw [shl_ok below]
  congr 1
  apply Nat.mod_eq_of_lt
  rw [Nat.shiftLeft_eq]
  calc a * 2 ^ m < 2 ^ n * 2 ^ m := Nat.mul_lt_mul_of_pos_right fits (Nat.two_pow_pos m)
    _ = 2 ^ (n + m) := (Nat.pow_add 2 n m).symm
    _ ≤ 2 ^ width := Nat.pow_le_pow_right (by decide) narrow

theorem shl_one {width m : ℕ} (below : m < width) : shl width 1 m = .ok (2 ^ m) := by
  rw [shl_fits 1 (by decide) below (by omega), Nat.one_shiftLeft]

theorem shiftLeft_or_lt {a b m n : ℕ} (high : a < 2 ^ n) (low : b < 2 ^ m) :
    a <<< m ||| b < 2 ^ (n + m) := by
  rw [← Nat.shiftLeft_add_eq_or_of_lt low, Nat.shiftLeft_eq, Nat.pow_add]
  calc a * 2 ^ m + b < a * 2 ^ m + 2 ^ m := Nat.add_lt_add_left low _
    _ = (a + 1) * 2 ^ m := by rw [Nat.add_mul, Nat.one_mul]
    _ ≤ 2 ^ n * 2 ^ m := Nat.mul_le_mul_right _ high

theorem shiftLeft_or_shiftRight {a b m : ℕ} (low : b < 2 ^ m) : (a <<< m ||| b) >>> m = a := by
  rw [← Nat.shiftLeft_add_eq_or_of_lt low, Nat.shiftLeft_eq, Nat.shiftRight_eq_div_pow,
    Nat.mul_comm, Nat.mul_add_div (Nat.two_pow_pos m), Nat.div_eq_of_lt low, Nat.add_zero]

theorem shiftLeft_or_and {a b m : ℕ} (low : b < 2 ^ m) :
    (a <<< m ||| b) &&& (2 ^ m - 1) = b := by
  rw [Nat.and_two_pow_sub_one_eq_mod, ← Nat.shiftLeft_add_eq_or_of_lt low, Nat.shiftLeft_eq,
    Nat.add_comm, Nat.add_mul_mod_self_right, Nat.mod_eq_of_lt low]

variable (ops : FloatOps) (data : List UInt32)

theorem signOf_lt (x : UInt32) : signOf ops x < 2 ^ 1 := by
  unfold signOf
  split <;> decide

@[simp] theorem length_leBytes (n : ℕ) : (leBytes n).length = 4 := LittleEndian.length_encode 4 n

theorem readU32_eq {buf : List UInt8} {off n : ℕ} (before after : List UInt8)
    (written : buf = before ++ (leBytes n ++ after)) (place : off = before.length)
    (fits : n < 2 ^ 32) : readU32 buf off = n := by
  have slice := Tiling.slice_append_append before (leBytes n) after
  rw [length_leBytes, ← written, ← place] at slice
  rw [readU32, slice, leBytes, LittleEndian.decode_encode _ _ (by simpa using fits)]

theorem readFloat_eq {buf : List UInt8} {off : ℕ} {x : UInt32} (before after : List UInt8)
    (written : buf = before ++ (leBytes x.toNat ++ after)) (place : off = before.length) :
    readFloat buf off = x := by
  rw [readFloat, readU32_eq before after written place x.toNat_lt]
  exact UInt32.ofNat_toNat

/-! ## Polar -/

def maxLevelsOf (bits : ℕ) : ℕ := 2 ^ (bits - 1) - 1

def polarValue (bits : ℕ) (code : ℕ × ℕ) : ℕ := code.1 <<< (bits - 1) ||| code.2

def polarDecoded (bits : ℕ) : List UInt32 :=
  let scale := polarScale ops data (maxLevelsOf bits)
  data.map fun x => polarRecon ops scale (polarCode ops scale (maxLevelsOf bits) x)

def polarBits (bits : ℕ) : List Bool :=
  let scale := polarScale ops data (maxLevelsOf bits)
  (data.map fun x => polarValue bits (polarCode ops scale (maxLevelsOf bits) x)).flatMap
    (digits bits)

theorem polarCode_snd_lt (scale : UInt32) (bits : ℕ) (x : UInt32) :
    (polarCode ops scale (maxLevelsOf bits) x).2 < 2 ^ (bits - 1) := by
  apply Nat.lt_of_le_of_lt (Nat.min_le_right _ _)
  exact Nat.sub_lt (Nat.two_pow_pos _) Nat.one_pos

variable {ops data} {bits : ℕ}

theorem length_polarDecoded (ops : FloatOps) (data : List UInt32) (bits : ℕ) :
    (polarDecoded ops data bits).length = data.length := by
  simp [polarDecoded]

theorem quantizePolarStoredScale_ok (ops : FloatOps) (data : List UInt32) {bits : ℕ}
    (low : 1 ≤ bits) (high : bits ≤ 32) :
    ∃ packed, Holds packed (polarBits ops data bits) ∧
      quantizePolarStoredScale ops data bits =
        .ok (packed ++ leBytes (polarScale ops data (maxLevelsOf bits)).toNat) := by
  have below : bits - 1 < 32 := by omega
  obtain ⟨packed, ok, holds⟩ := packCodes_ok (fun x => do
      let code := polarCode ops (polarScale ops data (maxLevelsOf bits)) (maxLevelsOf bits) x
      let high ← shl 32 code.1 (bits - 1)
      return high ||| code.2)
    (fun x => polarValue bits
      (polarCode ops (polarScale ops data (maxLevelsOf bits)) (maxLevelsOf bits) x))
    holds_nil high (by
      intro x _
      exact bind_ok_iff.mpr ⟨_, shl_fits 1 (signOf_lt ops x) below (by omega), rfl⟩)
  refine ⟨packed, holds, ?_⟩
  apply bind_ok_iff.mpr ⟨(), assert_ok_iff.mpr low, _⟩
  exact bind_ok_iff.mpr ⟨_, shl_one below, bind_ok_iff.mpr ⟨packed, ok, rfl⟩⟩

theorem lastFloat_append (packed : List UInt8) (scale : UInt32) :
    lastFloat (packed ++ leBytes scale.toNat) = scale := by
  have start : (packed ++ leBytes scale.toNat).length - 4 = packed.length := by simp
  have byte : ∀ i, (packed ++ leBytes scale.toNat).getD (packed.length + i) 0 =
      (leBytes scale.toNat).getD i 0 := by
    intro i
    rw [List.getD_append_right _ _ _ _ (Nat.le_add_right _ _), Nat.add_sub_cancel_left]
  have first := byte 0
  rw [Nat.add_zero] at first
  unfold lastFloat
  simp only [start, first, byte]
  show UInt32.ofNat (LittleEndian.decode (leBytes scale.toNat)) = scale
  rw [leBytes, LittleEndian.decode_encode _ _ (by simpa using scale.toNat_lt)]
  exact UInt32.ofNat_toNat

theorem dequantizePolarStoredScale_ok {packed : List UInt8} (low : 1 ≤ bits) (high : bits ≤ 32)
    (holds : Holds packed (polarBits ops data bits)) :
    dequantizePolarStoredScale ops
      (packed ++ leBytes (polarScale ops data (maxLevelsOf bits)).toNat) data.length bits =
        .ok (polarDecoded ops data bits) := by
  have below : bits - 1 < 32 := by omega
  apply bind_ok_iff.mpr ⟨(), assert_ok_iff.mpr low, _⟩
  apply bind_ok_iff.mpr ⟨_, shl_one below, _⟩
  simp only [lastFloat_append]
  apply unpackCodes_packed holds high
  · intro x _
    have fits := shiftLeft_or_lt (signOf_lt ops x)
      (polarCode_snd_lt ops (polarScale ops data (maxLevelsOf bits)) bits x)
    rwa [Nat.add_sub_cancel' low] at fits
  · intro x _
    apply bind_ok_iff.mpr ⟨_, shr_ok below _, _⟩
    have small := polarCode_snd_lt ops (polarScale ops data (maxLevelsOf bits)) bits x
    have sign : (polarCode ops (polarScale ops data (maxLevelsOf bits)) (maxLevelsOf bits) x).1 % 2 =
        (polarCode ops (polarScale ops data (maxLevelsOf bits)) (maxLevelsOf bits) x).1 :=
      Nat.mod_eq_of_lt (signOf_lt ops x)
    rw [polarValue, shiftLeft_or_shiftRight small, shiftLeft_or_and small, sign]
    rfl

/-- What a decoder that returns has read, whatever the buffer is. -/
theorem dequantizePolarStoredScale_element {buf : List UInt8} {len : ℕ} {recon : List UInt32}
    (ok : dequantizePolarStoredScale ops buf len bits = .ok recon) :
    recon.length = len ∧ ∃ scale maxLevels, ∀ k < len, ∃ val,
      bitRead buf (k * bits) bits = .ok val ∧
        recon.getD k 0 = polarRecon ops scale (val >>> (bits - 1) % 2, val &&& maxLevels) := by
  obtain ⟨-, -, ok⟩ := bind_ok_iff.mp ok
  obtain ⟨levels, -, ok⟩ := bind_ok_iff.mp ok
  obtain ⟨length, each⟩ := unpackCodes_element ok
  refine ⟨length, lastFloat buf, levels - 1, ?_⟩
  intro k inside
  obtain ⟨val, read, reconstructed⟩ := each k inside
  obtain ⟨high, shifted, done⟩ := bind_ok_iff.mp reconstructed
  unfold shr at shifted
  split at shifted
  · obtain rfl := Except.ok.inj shifted
    exact ⟨val, read, (pure_ok_iff.mp done).symm⟩
  · cases shifted

/-! ## Product -/

section Product

variable (ops : FloatOps) (data : List UInt32) (bits : ℕ)

def subBitsA : ℕ := (bits + 1) / 2

def subBitsB : ℕ := bits - subBitsA bits

def productScaleA : UInt32 :=
  productScale ops (ops.sqrt (maxAbs ops data)) (2 ^ subBitsA bits)

def productScaleB : UInt32 :=
  productScale ops (ops.sqrt (maxAbs ops data)) (2 ^ subBitsB bits)

def productCodeOf (x : UInt32) : ℕ × ℕ × ℕ :=
  productCode ops (productScaleA ops data bits) (productScaleB ops data bits) (2 ^ subBitsA bits)
    (2 ^ subBitsB bits) x

def productValue (code : ℕ × ℕ × ℕ) : ℕ :=
  (code.1 <<< subBitsA bits ||| code.2.1) <<< subBitsB bits ||| code.2.2

def productDecoded : List UInt32 :=
  data.map fun x =>
    productRecon ops (productScaleA ops data bits) (productScaleB ops data bits)
      (productCodeOf ops data bits x)

def productBits : List Bool :=
  (data.map fun x => productValue bits (productCodeOf ops data bits x)).flatMap (digits (bits + 1))

theorem subBits_add : subBitsA bits + subBitsB bits = bits := by
  unfold subBitsB subBitsA
  omega

theorem clamped_lt (unscaled : Bool) (raw levels : ℕ) (some : 0 < levels) :
    (if unscaled then 0 else min raw ((levels - 1) % 2 ^ 32)) < levels := by
  have below := Nat.mod_le (levels - 1) (2 ^ 32)
  split
  · exact some
  · omega

theorem productCodeOf_lt (x : UInt32) :
    (productCodeOf ops data bits x).1 < 2 ^ 1 ∧
      (productCodeOf ops data bits x).2.1 < 2 ^ subBitsA bits ∧
        (productCodeOf ops data bits x).2.2 < 2 ^ subBitsB bits := by
  refine ⟨signOf_lt ops x, ?_, ?_⟩
  · exact clamped_lt _ _ _ (Nat.two_pow_pos _)
  · exact clamped_lt _ _ _ (Nat.two_pow_pos _)

def productTrailer : List UInt8 :=
  leBytes (productScaleA ops data bits).toNat ++ (leBytes (productScaleB ops data bits).toNat ++
    (leBytes (subBitsA bits) ++ (leBytes (subBitsB bits) ++
      (leBytes (2 ^ subBitsA bits) ++ leBytes (2 ^ subBitsB bits)))))

variable {ops data bits}

theorem quantizeProduct_ok (ops : FloatOps) (data : List UInt32) {bits : ℕ} (high : bits < 32) :
    ∃ packed, Holds packed (productBits ops data bits) ∧
      quantizeProduct ops data bits = .ok (packed ++ productTrailer ops data bits) := by
  have widths := subBits_add bits
  obtain ⟨packed, ok, holds⟩ := packCodes_ok (fun x => do
      let code := productCodeOf ops data bits x
      let high ← shl 32 code.1 (subBitsA bits + subBitsB bits)
      let middle ← shl 32 code.2.1 (subBitsB bits)
      return high ||| middle ||| code.2.2)
    (fun x => productValue bits (productCodeOf ops data bits x))
    holds_nil (Nat.succ_le_of_lt high) (by
      intro x _
      obtain ⟨sign, indexA, -⟩ := productCodeOf_lt ops data bits x
      apply bind_ok_iff.mpr ⟨_, shl_fits 1 sign (by omega) (by omega), _⟩
      apply bind_ok_iff.mpr ⟨_, shl_fits _ indexA (by omega) (by omega), _⟩
      rw [productValue, Nat.shiftLeft_or_distrib, ← Nat.shiftLeft_add]
      rfl)
  refine ⟨packed, holds, ?_⟩
  have width : 1 + subBitsA bits + subBitsB bits = bits + 1 := by omega
  apply bind_ok_iff.mpr ⟨bits + 1, fit_ok_iff.mpr ⟨by omega, rfl⟩, _⟩
  apply bind_ok_iff.mpr ⟨2 ^ subBitsA bits, shl_one (by omega), _⟩
  apply bind_ok_iff.mpr ⟨2 ^ subBitsB bits, shl_one (by omega), _⟩
  apply bind_ok_iff.mpr ⟨bits + 1, fit_ok_iff.mpr ⟨by omega, width⟩, _⟩
  apply bind_ok_iff.mpr ⟨packed, ok, _⟩
  simp only [productTrailer, ← List.append_assoc]
  rfl

theorem length_productTrailer : (productTrailer ops data bits).length = 24 := by
  simp [productTrailer]

theorem dequantizeProduct_ok {packed : List UInt8} (high : bits < 32)
    (holds : Holds packed (productBits ops data bits)) :
    dequantizeProduct ops (packed ++ productTrailer ops data bits) data.length =
      .ok (productDecoded ops data bits) := by
  have widths := subBits_add bits
  have length : (packed ++ productTrailer ops data bits).length = packed.length + 24 := by
    rw [List.length_append, length_productTrailer]
  have off : (packed ++ productTrailer ops data bits).length - 24 = packed.length := by omega
  have scaleA : readFloat (packed ++ productTrailer ops data bits) packed.length =
      productScaleA ops data bits := readFloat_eq packed _ rfl rfl
  have scaleB : readFloat (packed ++ productTrailer ops data bits) (packed.length + 4) =
      productScaleB ops data bits :=
    readFloat_eq (packed ++ leBytes (productScaleA ops data bits).toNat) _
      (by rw [productTrailer, List.append_assoc]) (by simp)
  have widthA : readU32 (packed ++ productTrailer ops data bits) (packed.length + 8) =
      subBitsA bits :=
    readU32_eq (packed ++ leBytes (productScaleA ops data bits).toNat ++
      leBytes (productScaleB ops data bits).toNat) _
      (by rw [productTrailer, List.append_assoc, List.append_assoc]) (by simp) (by omega)
  have widthB : readU32 (packed ++ productTrailer ops data bits) (packed.length + 12) =
      subBitsB bits :=
    readU32_eq (packed ++ leBytes (productScaleA ops data bits).toNat ++
      leBytes (productScaleB ops data bits).toNat ++ leBytes (subBitsA bits))
      (leBytes (2 ^ subBitsA bits) ++ leBytes (2 ^ subBitsB bits))
      (by simp only [productTrailer, List.append_assoc]) (by simp) (by omega)
  unfold dequantizeProduct
  rw [if_neg (by omega)]
  simp only [off, scaleA, scaleB, widthA, widthB]
  have width : 1 + subBitsA bits + subBitsB bits = bits + 1 := by omega
  apply bind_ok_iff.mpr ⟨bits + 1, fit_ok_iff.mpr ⟨by omega, width⟩, _⟩
  apply unpackCodes_packed holds (Nat.succ_le_of_lt high)
  · intro x _
    obtain ⟨sign, indexA, indexB⟩ := productCodeOf_lt ops data bits x
    have fits := shiftLeft_or_lt (shiftLeft_or_lt sign indexA) indexB
    rwa [width] at fits
  · intro x _
    obtain ⟨sign, indexA, indexB⟩ := productCodeOf_lt ops data bits x
    apply bind_ok_iff.mpr ⟨_, shr_ok (by omega) _, _⟩
    apply bind_ok_iff.mpr ⟨_, shr_ok (by omega) _, _⟩
    apply bind_ok_iff.mpr ⟨_, shl_one (by omega), _⟩
    apply bind_ok_iff.mpr ⟨_, shl_one (by omega), _⟩
    -- the three parts of the code
    have first : productValue bits (productCodeOf ops data bits x) >>>
        (subBitsA bits + subBitsB bits) % 2 = (productCodeOf ops data bits x).1 := by
      rw [Nat.add_comm, Nat.shiftRight_add, productValue, shiftLeft_or_shiftRight indexB,
        shiftLeft_or_shiftRight indexA]
      exact Nat.mod_eq_of_lt sign
    have second : productValue bits (productCodeOf ops data bits x) >>> subBitsB bits &&&
        (2 ^ subBitsA bits - 1) = (productCodeOf ops data bits x).2.1 := by
      rw [productValue, shiftLeft_or_shiftRight indexB, shiftLeft_or_and indexA]
    have third : productValue bits (productCodeOf ops data bits x) &&& (2 ^ subBitsB bits - 1) =
        (productCodeOf ops data bits x).2.2 := shiftLeft_or_and indexB
    rw [first, second, third]
    rfl

end Product

/-! ## Split -/

section Split

variable (ops : FloatOps) (data : List UInt32) (headDim bits : ℕ)

def secondBitsOf : ℕ := if bits > 2 then bits - 1 else bits

def splitDecoded : List UInt32 :=
  polarDecoded ops (data.take (headDim / 2)) bits ++
    polarDecoded ops (data.drop (headDim / 2)) (secondBitsOf bits)

def polarBuffer (packed : List UInt8) : List UInt8 :=
  packed ++ leBytes (polarScale ops data (maxLevelsOf bits)).toNat

def splitTrailer : List UInt8 :=
  leBytes bits ++ (leBytes (secondBitsOf bits) ++ leBytes (headDim % 2 ^ 32))

variable {ops data headDim bits}

theorem secondBitsOf_le (bits : ℕ) : secondBitsOf bits ≤ bits := by
  unfold secondBitsOf
  split <;> omega

theorem one_le_secondBitsOf (low : 1 ≤ bits) : 1 ≤ secondBitsOf bits := by
  unfold secondBitsOf
  split <;> omega

theorem length_polarBuffer {packed : List UInt8} (holds : Holds packed (polarBits ops data bits)) :
    (polarBuffer ops data bits packed).length = (bits * data.length + 7) / 8 + 4 := by
  rw [polarBuffer, List.length_append, length_leBytes, holds.length, polarBits,
    length_flatMap_digits, List.length_map, Nat.mul_comm]

theorem quantizeSplit_ok (ops : FloatOps) {data : List UInt32} {headDim bits : ℕ} (low : 1 ≤ bits)
    (high : bits ≤ 32) (half : headDim / 2 ≤ data.length) :
    ∃ first second, Holds first (polarBits ops (data.take (headDim / 2)) bits) ∧
      Holds second (polarBits ops (data.drop (headDim / 2)) (secondBitsOf bits)) ∧
      quantizeSplit ops data headDim bits =
        .ok (polarBuffer ops (data.take (headDim / 2)) bits first ++
          (polarBuffer ops (data.drop (headDim / 2)) (secondBitsOf bits) second ++
            splitTrailer headDim bits), polarBuffer ops (data.take (headDim / 2)) bits first) := by
  obtain ⟨first, holds, ok⟩ :=
    quantizePolarStoredScale_ok ops (data.take (headDim / 2)) low high
  obtain ⟨second, holds', ok'⟩ :=
    quantizePolarStoredScale_ok ops (data.drop (headDim / 2))
      (one_le_secondBitsOf low) (Nat.le_trans (secondBitsOf_le bits) high)
  refine ⟨first, second, holds, holds', ?_⟩
  apply bind_ok_iff.mpr ⟨(), assert_ok_iff.mpr half, _⟩
  apply bind_ok_iff.mpr ⟨_, ok, _⟩
  apply bind_ok_iff.mpr ⟨_, ok', _⟩
  simp only [polarBuffer, splitTrailer, ← List.append_assoc]
  rfl

/-- The decoder reads its metadata, and the halves as the stored head dimension splits them. -/
theorem dequantizeSplit_eq (body : List UInt8) (len : ℕ) (narrow : bits ≤ 32) :
    dequantizeSplit ops (body ++ splitTrailer headDim bits) len = (do
      let half := headDim % 2 ^ 32 / 2
      let size := (bits * half + 7) / 8 + 4
      Outcome.assert (size ≤ body.length)
      let first ← dequantizePolarStoredScale ops (body.take size) half bits
      Outcome.assert (half ≤ len)
      let second ← dequantizePolarStoredScale ops (body.drop size) (len - half) (secondBitsOf bits)
      return first ++ second) := by
  have second := secondBitsOf_le bits
  have off : (body ++ splitTrailer headDim bits).length - 12 = body.length := by
    simp [splitTrailer]
  have long : ¬(body ++ splitTrailer headDim bits).length < 12 := by
    simp [splitTrailer]
  have firstBits : readU32 (body ++ splitTrailer headDim bits) body.length = bits :=
    readU32_eq body _ rfl rfl (by omega)
  have secondBits : readU32 (body ++ splitTrailer headDim bits) (body.length + 4) =
      secondBitsOf bits :=
    readU32_eq (body ++ leBytes bits) _ (by rw [splitTrailer, List.append_assoc]) (by simp)
      (by omega)
  have dim : readU32 (body ++ splitTrailer headDim bits) (body.length + 8) = headDim % 2 ^ 32 :=
    readU32_eq (body ++ leBytes bits ++ leBytes (secondBitsOf bits)) []
      (by simp [splitTrailer]) (by simp) (Nat.mod_lt _ (by decide))
  unfold dequantizeSplit
  rw [if_neg long]
  simp only [off, firstBits, secondBits, dim]
  generalize headDim % 2 ^ 32 / 2 = half
  by_cases inside : (bits * half + 7) / 8 + 4 ≤ body.length
  · rw [Nat.min_eq_left inside, List.take_append_of_le_length inside, Tiling.slice,
      List.drop_append_of_le_length inside]
    have rest : (body.drop ((bits * half + 7) / 8 + 4)).length =
        body.length - ((bits * half + 7) / 8 + 4) := List.length_drop
    rw [← rest, List.take_left]
  · have panicked : Outcome.assert ((bits * half + 7) / 8 + 4 ≤ body.length) = panics := by
      rw [Outcome.assert, if_neg inside]
    rw [panicked]
    exact (bind_panics_iff.mpr (.inl rfl)).trans (bind_panics_iff.mpr (.inl rfl)).symm

theorem dequantizeSplit_ok {first second : List UInt8} (low : 1 ≤ bits) (high : bits ≤ 32)
    (half : headDim / 2 ≤ data.length) (stored : headDim < 2 ^ 32)
    (holds : Holds first (polarBits ops (data.take (headDim / 2)) bits))
    (holds' : Holds second (polarBits ops (data.drop (headDim / 2)) (secondBitsOf bits))) :
    dequantizeSplit ops (polarBuffer ops (data.take (headDim / 2)) bits first ++
      (polarBuffer ops (data.drop (headDim / 2)) (secondBitsOf bits) second ++
        splitTrailer headDim bits)) data.length = .ok (splitDecoded ops data headDim bits) := by
  have taken : (data.take (headDim / 2)).length = headDim / 2 := by
    rw [List.length_take, Nat.min_eq_left half]
  have size := length_polarBuffer holds
  rw [taken] at size
  rw [← List.append_assoc, dequantizeSplit_eq _ _ high, Nat.mod_eq_of_lt stored]
  simp only [← size, List.take_left, List.drop_left]
  have firstOk := dequantizePolarStoredScale_ok low high holds
  have secondOk := dequantizePolarStoredScale_ok (one_le_secondBitsOf low)
    (Nat.le_trans (secondBitsOf_le bits) high) holds'
  rw [taken] at firstOk
  rw [List.length_drop] at secondOk
  apply bind_ok_iff.mpr ⟨(), assert_ok_iff.mpr _, _⟩
  · rw [List.length_append]
    exact Nat.le_add_right _ _
  apply bind_ok_iff.mpr ⟨_, firstOk, _⟩
  apply bind_ok_iff.mpr ⟨(), assert_ok_iff.mpr half, _⟩
  exact bind_ok_iff.mpr ⟨_, secondOk, rfl⟩

end Split

/-! ## Polar and product -/

section PolarProd

variable (ops : FloatOps) (data : List UInt32) (bits : ℕ)

def residuals : List UInt32 :=
  List.zipWith ops.sub data (polarDecoded ops data (polarBitsOf bits))

def polarprodDecoded : List UInt32 :=
  List.zipWith ops.add (polarDecoded ops data (polarBitsOf bits))
    (productDecoded ops (residuals ops data bits) (prodBitsOf bits))

variable {ops data bits}

theorem length_productDecoded (ops : FloatOps) (data : List UInt32) (bits : ℕ) :
    (productDecoded ops data bits).length = data.length := by
  simp [productDecoded]

theorem length_residuals : (residuals ops data bits).length = data.length := by
  rw [residuals, List.length_zipWith, length_polarDecoded, Nat.min_self]

theorem polarprod_ok (ops : FloatOps) (data : List UInt32) {bits : ℕ} (high : bits < 32) :
    ∃ buf, buf ≠ [] ∧ quantizePolarprod ops data bits = .ok buf ∧
      dequantizePolarprod ops buf data.length = .ok (polarprodDecoded ops data bits) := by
  have low : 1 ≤ polarBitsOf bits := Nat.le_max_right _ _
  have polarHigh : polarBitsOf bits ≤ 32 := by
    unfold polarBitsOf
    omega
  have prodHigh : prodBitsOf bits < 32 := by
    unfold prodBitsOf
    omega
  obtain ⟨polar, holds, polarOk⟩ := quantizePolarStoredScale_ok ops data low polarHigh
  obtain ⟨prod, holds', prodOk⟩ :=
    quantizeProduct_ok ops (residuals ops data bits) prodHigh
  -- each part is decoded alone
  have recon := dequantizePolarStoredScale_ok low polarHigh holds
  have prodRecon := dequantizeProduct_ok prodHigh holds'
  rw [length_residuals] at prodRecon
  let body := polarBuffer ops data (polarBitsOf bits) polar ++
    (prod ++ productTrailer ops (residuals ops data bits) (prodBitsOf bits))
  let trailer := leBytes (polarBitsOf bits) ++ (leBytes (prodBitsOf bits) ++
    leBytes (data.length % 2 ^ 32))
  refine ⟨body ++ trailer, ?_, ?_, ?_⟩
  · apply List.append_ne_nil_of_right_ne_nil
    exact List.ne_nil_of_length_pos (by simp [trailer])
  · apply bind_ok_iff.mpr ⟨_, polarOk, _⟩
    apply bind_ok_iff.mpr ⟨_, recon, _⟩
    apply bind_ok_iff.mpr ⟨_, prodOk, _⟩
    simp only [body, trailer, polarBuffer, List.append_assoc]
    rfl
  -- the trailer is found from the end, and the length of the first part from its bits
  · have off : (body ++ trailer).length - 12 = body.length := by
      simp [trailer]
    have long : ¬(body ++ trailer).length < 12 := by
      simp [trailer]
    have polarBits : readU32 (body ++ trailer) body.length = polarBitsOf bits :=
      readU32_eq body _ rfl rfl (by omega)
    have size := length_polarBuffer holds
    have inside : (polarBuffer ops data (polarBitsOf bits) polar).length ≤ body.length := by
      simp [body]
    unfold dequantizePolarprod
    rw [if_neg long]
    simp only [off, polarBits, ← size, Nat.min_eq_left inside, Tiling.slice]
    rw [List.take_append_of_le_length inside, List.drop_append_of_le_length inside,
      List.take_left, List.drop_left]
    apply bind_ok_iff.mpr ⟨_, recon, _⟩
    refine bind_ok_iff.mpr ⟨productDecoded ops (residuals ops data bits) (prodBitsOf bits), ?_, rfl⟩
    have rest : body.length - (polarBuffer ops data (polarBitsOf bits) polar).length =
        (prod ++ productTrailer ops (residuals ops data bits) (prodBitsOf bits)).length := by
      simp [body]
    rw [rest, List.take_left]
    exact prodRecon

end PolarProd

/-! ## Head dimensions that the trailer cannot store -/

section Wide

/-- Arithmetic in which every magnitude is zero, and only a sign makes a difference. -/
def signOnly : FloatOps where
  abs x := x
  neg x := x + 1
  sqrt x := x
  round x := x
  max a _ := a
  add a _ := a
  sub a _ := a
  mul _ _ := 0
  div a _ := a
  lt x _ := x = 1
  eq a b := a = b
  toU32 _ := 0
  ofNat _ := 0
  max_abs_zero := rfl
  zero_eq_zero := rfl

def oneNegative (len k : ℕ) : List UInt32 := (List.replicate len 0).set k 1

theorem polarValue_signOnly (scale : UInt32) (maxLevels bits : ℕ) (x : UInt32) :
    polarValue bits (polarCode signOnly scale maxLevels x) =
      if x = 1 then 1 <<< (bits - 1) else 0 := by
  by_cases negative : x = 1
  · simp [polarValue, polarCode, signOf, signOnly, negative]
  · simp [polarValue, polarCode, signOf, signOnly, negative]

/-- The decoder of the second half starts among the codes of the first, where all bits are
zeros. -/
theorem bit_behind_half {packed rest : List UInt8} {len half short bits i : ℕ} (low : 1 ≤ bits)
    (high : bits ≤ 32) (inside : half ≤ len) (apart : short + 128 ≤ half) (near : i < 32)
    (holds : Holds packed (polarBits signOnly ((oneNegative len short).take half) bits)) :
    bit (packed ++ rest) (8 * ((bits * short + 7) / 8 + 4) + i) = false := by
  let p := 8 * ((bits * short + 7) / 8 + 4) + i
  have taken : ((oneNegative len short).take half).length = half := by
    rw [List.length_take, oneNegative, List.length_set, List.length_replicate, Nat.min_eq_left inside]
  have room := holds.length
  rw [polarBits, length_flatMap_digits, List.length_map, taken] at room
  have above : bits * (short + 1) ≤ p := by
    rw [Nat.mul_add]
    omega
  have below : p < half * bits := by
    have far : bits * (short + 128) ≤ bits * half := Nat.mul_le_mul_left bits apart
    rw [Nat.mul_add] at far
    have gap : bits * 128 ≥ 128 := by omega
    rw [Nat.mul_comm half]
    omega
  -- the code that holds the bit
  have place : p = p / bits * bits + p % bits := (Nat.div_add_mod' p bits).symm
  have later : short < p / bits := by
    apply (Nat.le_div_iff_mul_le low).mpr
    rwa [Nat.mul_comm]
  have within : p / bits < half := Nat.div_lt_of_lt_mul (by rwa [Nat.mul_comm])
  have zero : ((oneNegative len short).take half)[p / bits]? = some 0 := by
    rw [List.getElem?_take_of_lt within, oneNegative, List.getElem?_set_ne later.ne,
      List.getElem?_replicate, if_pos (by omega)]
  show bit (packed ++ rest) p = false
  rw [bit_append_left (by omega), holds.bit, polarBits, place,
    getD_flatMap_digits (by rwa [List.length_map, taken]) (Nat.mod_lt p low)]
  simp only [polarValue_signOnly]
  rw [List.getD_eq_getElem?_getD, List.getElem?_map, zero]
  exact Nat.zero_testBit _

/-- A head dimension above 32 bits is stored short, and the element at the shortened half loses
its sign. -/
theorem split_loses {headDim bits len : ℕ} {buf first : List UInt8} (low : 1 ≤ bits)
    (high : bits ≤ 32) (inside : headDim / 2 ≤ len) (wide : 2 ^ 32 ≤ headDim)
    (ok : quantizeSplit signOnly (oneNegative len (headDim % 2 ^ 32 / 2)) headDim bits =
      .ok (buf, first)) :
    dequantizeSplit signOnly buf len ≠
      .ok (splitDecoded signOnly (oneNegative len (headDim % 2 ^ 32 / 2)) headDim bits) := by
  generalize shortIs : headDim % 2 ^ 32 / 2 = short at ok ⊢
  have apart : short + 128 ≤ headDim / 2 := by omega
  have length : (oneNegative len short).length = len := by
    rw [oneNegative, List.length_set, List.length_replicate]
  obtain ⟨packed, packed', holds, -, written⟩ :=
    quantizeSplit_ok signOnly low high (length.symm ▸ inside)
  rw [ok] at written
  obtain ⟨rfl, -⟩ := Prod.mk.inj (Except.ok.inj written)
  intro decoded
  rw [← List.append_assoc, dequantizeSplit_eq _ _ high, shortIs] at decoded
  obtain ⟨-, -, decoded⟩ := bind_ok_iff.mp decoded
  obtain ⟨firstRecon, firstOk, decoded⟩ := bind_ok_iff.mp decoded
  obtain ⟨-, -, decoded⟩ := bind_ok_iff.mp decoded
  obtain ⟨secondRecon, secondOk, decoded⟩ := bind_ok_iff.mp decoded
  have same := pure_ok_iff.mp decoded
  obtain ⟨firstLength, -⟩ := dequantizePolarStoredScale_element firstOk
  obtain ⟨-, scale, maxLevels, each⟩ := dequantizePolarStoredScale_element secondOk
  obtain ⟨val, read, element⟩ := each 0 (by omega)
  -- what the decoder reads there
  have zero : val = 0 := by
    have narrow := Nat.le_trans (secondBitsOf_le bits) high
    obtain ⟨val', read', bits_val⟩ := bitRead_ok _ _ narrow
    obtain rfl := Except.ok.inj (read.symm.trans read')
    apply Nat.eq_of_testBit_eq
    intro i
    rw [bits_val, Nat.zero_testBit]
    by_cases within : i < secondBitsOf bits
    · rw [Nat.zero_mul, Nat.zero_add, bit_drop, polarBuffer, List.append_assoc,
        bit_behind_half low high inside apart (Nat.lt_of_lt_of_le within narrow) holds,
        Bool.and_false]
    · rw [decide_eq_false within, Bool.false_and]
  have lost : (firstRecon ++ secondRecon).getD short 0 = 0 := by
    rw [List.getD_append_right _ _ _ _ firstLength.le, firstLength, Nat.sub_self, element, zero]
    simp [polarRecon, withSign, signOnly]
  -- what it should give
  have expected : (splitDecoded signOnly (oneNegative len short) headDim bits).getD short 0 = 1 := by
    have there : ((oneNegative len short).take (headDim / 2))[short]? = some 1 := by
      rw [List.getElem?_take_of_lt (by omega), oneNegative, List.getElem?_set_self]
      rw [List.length_replicate]
      omega
    rw [splitDecoded, List.getD_append, polarDecoded, List.getD_eq_getElem?_getD,
      List.getElem?_map, there]
    · simp [polarRecon, polarCode, signOf, withSign, signOnly]
    · rw [length_polarDecoded, List.length_take, length]
      omega
  rw [same, expected] at lost
  exact absurd lost (by decide)

end Wide

/-! ## The codecs -/

/-- The encoder gives a buffer from which the decoder gives one element for each input, as
reconstructed from the stored scales and the computed codes. -/
def Lossless (encoded : Outcome (List UInt8)) (decode : List UInt8 → ℕ → Outcome (List UInt32))
    (data decoded : List UInt32) : Prop :=
  decoded.length = data.length ∧
    ∃ buf, encoded = .ok buf ∧ decode buf data.length = .ok decoded

section Codecs

variable (ops : FloatOps) (data : List UInt32) (headDim bits : ℕ)

def PolarLossless : Prop :=
  Lossless (quantizePolarStoredScale ops data bits)
    (fun buf len => dequantizePolarStoredScale ops buf len bits) data (polarDecoded ops data bits)

def ProductLossless : Prop :=
  Lossless (quantizeProduct ops data bits) (dequantizeProduct ops) data
    (productDecoded ops data bits)

def SplitLossless : Prop :=
  Lossless (Prod.fst <$> quantizeSplit ops data headDim bits) (dequantizeSplit ops) data
    (splitDecoded ops data headDim bits)

def PolarprodLossless : Prop :=
  Lossless (quantizePolarprod ops data bits) (dequantizePolarprod ops) data
    (polarprodDecoded ops data bits)

variable {ops data headDim bits}

theorem polarLossless (low : 1 ≤ bits) (high : bits ≤ 32) : PolarLossless ops data bits := by
  obtain ⟨packed, holds, ok⟩ := quantizePolarStoredScale_ok ops data low high
  exact ⟨length_polarDecoded ops data bits, _, ok, dequantizePolarStoredScale_ok low high holds⟩

theorem productLossless (high : bits < 32) : ProductLossless ops data bits := by
  obtain ⟨packed, holds, ok⟩ := quantizeProduct_ok ops data high
  exact ⟨length_productDecoded ops data bits, _, ok, dequantizeProduct_ok high holds⟩

theorem polarprodLossless (high : bits < 32) : PolarprodLossless ops data bits := by
  constructor
  · rw [polarprodDecoded, List.length_zipWith, length_polarDecoded, length_productDecoded,
      length_residuals, Nat.min_self]
  · obtain ⟨buf, -, ok⟩ := polarprod_ok ops data high
    exact ⟨buf, ok⟩

theorem splitLossless (low : 1 ≤ bits) (high : bits ≤ 32) (half : headDim / 2 ≤ data.length)
    (stored : headDim < 2 ^ 32) : SplitLossless ops data headDim bits := by
  obtain ⟨first, second, holds, holds', ok⟩ := quantizeSplit_ok ops low high half
  constructor
  · rw [splitDecoded, List.length_append, length_polarDecoded, length_polarDecoded,
      ← List.length_append, List.take_append_drop]
  · exact ⟨_, congrArg (Prod.fst <$> ·) ok, dequantizeSplit_ok low high half stored holds holds'⟩

theorem not_splitLossless {len : ℕ} (low : 1 ≤ bits) (high : bits ≤ 32) (half : headDim / 2 ≤ len)
    (wide : 2 ^ 32 ≤ headDim) :
    ¬SplitLossless signOnly (oneNegative len (headDim % 2 ^ 32 / 2)) headDim bits := by
  rintro ⟨-, buf, encoded, decoded⟩
  have length : (oneNegative len (headDim % 2 ^ 32 / 2)).length = len := by
    rw [oneNegative, List.length_set, List.length_replicate]
  obtain ⟨packed, packed', -, -, ok⟩ := quantizeSplit_ok signOnly low high (length.symm ▸ half)
  rw [ok] at encoded
  obtain rfl := Except.ok.inj encoded
  rw [length] at decoded
  exact split_loses low high half wide ok decoded

end Codecs

/-- Polar, product and polar-product codes are read back whatever the vector is; split codes
exactly when the trailer can store the head dimension. -/
theorem codecs_lossless_iff (bits : ℕ) (low : 1 ≤ bits) (high : bits ≤ 16) :
    (∀ ops data, ProductLossless ops data bits) ∧
      (2 ≤ bits →
        (∀ ops data, PolarLossless ops data bits) ∧ (∀ ops data, PolarprodLossless ops data bits) ∧
          ∀ headDim len, headDim / 2 ≤ len →
            ((∀ ops data, data.length = len → SplitLossless ops data headDim bits) ↔
              headDim < 2 ^ 32)) := by
  refine ⟨fun ops data => productLossless (by omega), fun _ => ⟨?_, ?_, ?_⟩⟩
  · exact fun ops data => polarLossless low (by omega)
  · exact fun ops data => polarprodLossless (by omega)
  · intro headDim len half
    constructor
    · intro lossless
      by_contra wide
      apply not_splitLossless low (by omega) half (Nat.not_lt.mp wide)
      apply lossless
      rw [oneNegative, List.length_set, List.length_replicate]
    · rintro stored ops data rfl
      exact splitLossless low (by omega) half stored

theorem four_bits_codecs_lossless :
    (∀ ops data, ProductLossless ops data 4) ∧
      (∀ ops data, PolarLossless ops data 4) ∧ (∀ ops data, PolarprodLossless ops data 4) ∧
        ∀ ops data, data.length = 128 → SplitLossless ops data 128 4 := by
  obtain ⟨product, others⟩ := codecs_lossless_iff 4 (by decide) (by decide)
  obtain ⟨polar, polarprod, split⟩ := others (by decide)
  exact ⟨product, polar, polarprod, (split 128 128 (by decide)).mpr (by decide)⟩

/-- A vector of 2 ^ 32 elements, the first of them negative. -/
theorem long_vector_not_lossless :
    ¬ ∀ bits ops data, 2 ≤ bits → bits ≤ 16 →
      PolarLossless ops data bits ∧ ProductLossless ops data bits ∧
        SplitLossless ops data data.length bits ∧ PolarprodLossless ops data bits := by
  intro all
  obtain ⟨-, -, split, -⟩ := all 2 signOnly (oneNegative (2 ^ 32) (2 ^ 32 % 2 ^ 32 / 2)) (by decide)
    (by decide)
  have length : (oneNegative (2 ^ 32) (2 ^ 32 % 2 ^ 32 / 2)).length = 2 ^ 32 := by
    rw [oneNegative, List.length_set, List.length_replicate]
  rw [length] at split
  exact not_splitLossless (by decide) (by decide) (Nat.div_le_self _ _) (Nat.le_refl _) split

end TribunusCompute.TurboQuant
