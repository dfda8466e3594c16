import Mathlib.Data.Rat.Floor
import TribunusCompute.ComputeImage.Quantize

/-!
# Conversion of halves

Over exact arithmetic the conversion to singles keeps the value of every finite datum, except
that of a half-precision subnormal.
-/
namespace TribunusCompute.ComputeImage

def roundHalfAway (x : ℚ) : ℤ := if 0 ≤ x then ⌊x + 1 / 2⌋ else -⌊-x + 1 / 2⌋

/-- Exact arithmetic, with any way to store its numbers. -/
def F32.exact (toLeBytes : ℚ → List UInt8) : F32 ℚ where
  fromBits := Ieee.value 8 23
  literal x := x
  sub x y := x - y
  mul x y := x * y
  div x y := x / y
  abs x := |x|
  min := Min.min
  max := Max.max
  round x := roundHalfAway x
  copysign x y := if y < 0 then -|x| else |x|
  lt x y := x < y
  toU8 x := UInt8.ofNat (Min.min 255 ⌊x⌋.toNat)
  toLeBytes

variable {toLeBytes : ℚ → List UInt8} {bits : ℕ}

theorem value_bf16 (bits : ℕ) : Ieee.value 8 23 (bits <<< 16) = Ieee.value 8 7 bits := by
  have shifted : bits <<< 16 = 2 ^ 16 * bits := by rw [Nat.shiftLeft_eq, Nat.mul_comm]
  have sign : Ieee.negative 8 23 (bits <<< 16) = Ieee.negative 8 7 bits := by
    rw [Ieee.negative, Ieee.negative, shifted, show 2 ^ (8 + 23) = 2 ^ 16 * 2 ^ (8 + 7) by norm_num,
      Nat.mul_div_mul_left _ _ (by norm_num)]
  have exponent : Ieee.exponent 8 23 (bits <<< 16) = Ieee.exponent 8 7 bits := by
    rw [Ieee.exponent, Ieee.exponent, shifted, show 2 ^ 23 = 2 ^ 16 * 2 ^ 7 by norm_num,
      Nat.mul_div_mul_left _ _ (by norm_num)]
  have fraction : Ieee.fraction 23 (bits <<< 16) = 2 ^ 16 * Ieee.fraction 7 bits := by
    rw [Ieee.fraction, Ieee.fraction, shifted, show 2 ^ 23 = 2 ^ 16 * 2 ^ 7 by norm_num,
      Nat.mul_mod_mul_left]
  have scaled (exponent fraction : ℕ) :
      Ieee.magnitude 8 23 exponent (2 ^ 16 * fraction) = Ieee.magnitude 8 7 exponent fraction := by
    unfold Ieee.magnitude
    have scale : (2 : ℚ) ^ (16 : ℤ) = 2 ^ 16 := by norm_num
    split
    · rw [show (1 - Ieee.bias 8 - ((7 : ℕ) : ℤ)) = 16 + (1 - Ieee.bias 8 - ((23 : ℕ) : ℤ)) by
        push_cast; ring, zpow_add₀ (by norm_num), scale]
      push_cast
      ring
    · rw [show ((exponent : ℤ) - Ieee.bias 8 - ((7 : ℕ) : ℤ)) =
        16 + ((exponent : ℤ) - Ieee.bias 8 - ((23 : ℕ) : ℤ)) by push_cast; ring,
        zpow_add₀ (by norm_num), scale]
      push_cast
      ring
  rw [Ieee.value, Ieee.value, sign, exponent, fraction, scaled]

theorem shifted_eq_pack {negative : Bool} {exponent fraction : ℕ} (fits : exponent < 256)
    (small : fraction < 1024) :
    negative.toNat <<< 31 ||| (exponent <<< 23 ||| fraction <<< 13) =
      Ieee.pack 8 23 negative exponent (fraction * 2 ^ 13) := by
  have low : fraction <<< 13 < 2 ^ 23 := by
    rw [Nat.shiftLeft_eq]
    omega
  have middle : exponent <<< 23 + fraction <<< 13 < 2 ^ 31 := by
    rw [Nat.shiftLeft_eq, Nat.shiftLeft_eq]
    omega
  rw [← Nat.shiftLeft_add_eq_or_of_lt low, ← Nat.shiftLeft_add_eq_or_of_lt middle, Ieee.pack,
    Nat.shiftLeft_eq, Nat.shiftLeft_eq, Nat.shiftLeft_eq, Nat.add_assoc]

/-- `half_to_f32` in terms of the fields of a half. -/
theorem halfToF32_eq :
    halfToF32 (F32.exact toLeBytes) bits =
      if Ieee.exponent 5 10 bits = 0 then
        if Ieee.fraction 10 bits = 0 then 0
        else Ieee.value 8 23
          (Ieee.pack 8 23 (Ieee.negative 5 10 bits) 215 (Ieee.fraction 10 bits * 2 ^ 13)) / 2 ^ 24
      else if Ieee.exponent 5 10 bits = 31 then
        Ieee.value 8 23
          (Ieee.pack 8 23 (Ieee.negative 5 10 bits) 255 (Ieee.fraction 10 bits * 2 ^ 13))
      else Ieee.value 8 23 (Ieee.pack 8 23 (Ieee.negative 5 10 bits)
        (Ieee.exponent 5 10 bits + 112) (Ieee.fraction 10 bits * 2 ^ 13)) := by
  -- the three fields of the half, each by a shift and a mask
  have sign : bits >>> 15 &&& 1 = (Ieee.negative 5 10 bits).toNat := by
    rw [Nat.and_one_is_mod, Nat.shiftRight_eq_div_pow, Ieee.negative]
    rcases Nat.mod_two_eq_zero_or_one (bits / 2 ^ 15) with zero | one
    · rw [show 5 + 10 = 15 from rfl, zero]
      rfl
    · rw [show 5 + 10 = 15 from rfl, one]
      rfl
  have exp : bits >>> 10 &&& 0x1f = Ieee.exponent 5 10 bits := by
    rw [show 0x1f = 2 ^ 5 - 1 by norm_num, Nat.and_two_pow_sub_one_eq_mod,
      Nat.shiftRight_eq_div_pow, Ieee.exponent]
  have mantissa : bits &&& 0x3ff = Ieee.fraction 10 bits := by
    rw [show 0x3ff = 2 ^ 10 - 1 by norm_num, Nat.and_two_pow_sub_one_eq_mod, Ieee.fraction]
  have small : Ieee.fraction 10 bits < 1024 := Nat.mod_lt _ (by norm_num)
  have fits : Ieee.exponent 5 10 bits < 32 := Nat.mod_lt _ (by norm_num)
  unfold halfToF32
  simp only [sign, exp, mantissa]
  rw [shifted_eq_pack (by norm_num) small, shifted_eq_pack (by norm_num) small,
    shifted_eq_pack (by omega) small, show Ieee.exponent 5 10 bits + 127 - 15 =
      Ieee.exponent 5 10 bits + 112 by omega]
  have zero : (F32.exact toLeBytes).copysign 0 (1 - 2 * ((Ieee.negative 5 10 bits).toNat : ℚ)) =
      0 := by
    simp [F32.exact]
  split
  · split
    · exact zero
    · show Ieee.value 8 23 _ * (1 / 16777216) = _
      norm_num
      ring
  · rfl

theorem magnitude_widen {exponent fraction : ℕ} (normal : exponent ≠ 0) :
    Ieee.magnitude 8 23 (exponent + 112) (fraction * 2 ^ 13) =
      Ieee.magnitude 5 10 exponent fraction := by
  have biases : ((exponent + 112 : ℕ) : ℤ) - Ieee.bias 8 - ((23 : ℕ) : ℤ) =
      (exponent - Ieee.bias 5 - ((10 : ℕ) : ℤ)) + -13 := by
    norm_num [Ieee.bias]
    ring
  rw [Ieee.magnitude, Ieee.magnitude, if_neg (by omega), if_neg normal, biases,
    zpow_add₀ (by norm_num), show (2 : ℚ) ^ (-13 : ℤ) = 1 / 2 ^ 13 by norm_num]
  push_cast
  ring

theorem halfToF32_of_not_subnormal (finite : Ieee.Finite 5 10 bits)
    (normal : ¬Ieee.Subnormal 5 10 bits) :
    halfToF32 (F32.exact toLeBytes) bits = Ieee.value 5 10 bits := by
  have small : Ieee.fraction 10 bits < 1024 := Nat.mod_lt _ (by norm_num)
  have fits : Ieee.exponent 5 10 bits < 32 := Nat.mod_lt _ (by norm_num)
  rw [halfToF32_eq]
  by_cases zero : Ieee.exponent 5 10 bits = 0
  · have none : Ieee.fraction 10 bits = 0 := by
      by_contra some
      exact normal ⟨zero, some⟩
    rw [if_pos zero, if_pos none, Ieee.value, zero, none]
    simp [Ieee.magnitude, Ieee.signed]
  · rw [if_neg zero, if_neg (by exact finite), Ieee.value_pack (by norm_num; omega)
      (by norm_num; omega), Ieee.value, magnitude_widen zero]

/-- The exponent of a converted subnormal is off by 88. -/
theorem halfToF32_of_subnormal (subnormal : Ieee.Subnormal 5 10 bits) :
    halfToF32 (F32.exact toLeBytes) bits =
      Ieee.signed (Ieee.negative 5 10 bits) (2 ^ 54 * (1024 + Ieee.fraction 10 bits)) := by
  have small : Ieee.fraction 10 bits < 1024 := Nat.mod_lt _ (by norm_num)
  rw [halfToF32_eq, if_pos subnormal.1, if_neg subnormal.2,
    Ieee.value_pack (by norm_num) (by norm_num; omega)]
  have magnitude : Ieee.magnitude 8 23 215 (Ieee.fraction 10 bits * 2 ^ 13) / 2 ^ 24 =
      2 ^ 54 * (1024 + (Ieee.fraction 10 bits : ℚ)) := by
    rw [Ieee.magnitude, if_neg (by norm_num),
      show ((215 : ℕ) : ℤ) - Ieee.bias 8 - ((23 : ℕ) : ℤ) = 65 by norm_num [Ieee.bias]]
    push_cast
    norm_num
    ring
  rw [← magnitude]
  unfold Ieee.signed
  split
  · ring
  · rfl

theorem abs_value_of_subnormal (subnormal : Ieee.Subnormal 5 10 bits) :
    |Ieee.value 5 10 bits| ≤ 1 := by
  have small : Ieee.fraction 10 bits < 1024 := Nat.mod_lt _ (by norm_num)
  have small' : (Ieee.fraction 10 bits : ℚ) ≤ 1024 := by exact_mod_cast small.le
  rw [Ieee.value, Ieee.abs_signed _ (Ieee.magnitude_nonneg _ _), Ieee.magnitude,
    if_pos subnormal.1,
    show (1 - Ieee.bias 5 - ((10 : ℕ) : ℤ)) = -24 by norm_num [Ieee.bias],
    show (2 : ℚ) ^ (-24 : ℤ) = 1 / 2 ^ 24 by norm_num]
  calc (Ieee.fraction 10 bits : ℚ) * (1 / 2 ^ 24) ≤ 1024 * (1 / 2 ^ 24) := by gcongr
    _ ≤ 1 := by norm_num

variable (toLeBytes) in
theorem abs_halfToF32_of_subnormal (subnormal : Ieee.Subnormal 5 10 bits) :
    2 ^ 64 ≤ |halfToF32 (F32.exact toLeBytes) bits| := by
  rw [halfToF32_of_subnormal subnormal, Ieee.abs_signed _ (by positivity)]
  have nonneg : (0 : ℚ) ≤ Ieee.fraction 10 bits := by positivity
  linarith

/-! ## Bounds -/

/-- What a finite half is converted to is below `2 ^ 65`. -/
theorem abs_halfToF32_le (finite : Ieee.Finite 5 10 bits) :
    |halfToF32 (F32.exact toLeBytes) bits| ≤ 2 ^ 65 := by
  have fits : Ieee.exponent 5 10 bits < 32 := Nat.mod_lt _ (by norm_num)
  have small : Ieee.fraction 10 bits < 1024 := Nat.mod_lt _ (by norm_num)
  by_cases subnormal : Ieee.Subnormal 5 10 bits
  · have small' : (Ieee.fraction 10 bits : ℚ) ≤ 1024 := by exact_mod_cast small.le
    rw [halfToF32_of_subnormal subnormal, Ieee.abs_signed _ (by positivity)]
    linarith
  · rw [halfToF32_of_not_subnormal finite subnormal]
    have bound := Ieee.abs_value_le 5 10 bits 30 (by norm_num) (by
      have := finite
      unfold Ieee.Finite at this
      omega)
    refine bound.trans ?_
    rw [show (((30 : ℕ) : ℤ) - Ieee.bias 5 - ((10 : ℕ) : ℤ)) = 5 by norm_num [Ieee.bias]]
    norm_num

end TribunusCompute.ComputeImage
