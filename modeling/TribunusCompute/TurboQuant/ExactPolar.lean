import Mathlib.Data.Rat.Floor
import Mathlib.Tactic.Positivity
import TribunusCompute.TurboQuant.Lossless

/-!
# The error of polar quantization

The polar codec over any numbers, of which the codec on floats is an instance, with the scale kept
as a number beside the packed codes. Over the rationals every element comes back within half a
scale and never under the opposite sign, for widths that fit into a code word.
-/
namespace TribunusCompute.TurboQuant

open Outcome BitStream

/-! ## The codec over any numbers -/

/-- What the codec uses of its numbers. -/
structure PolarOps (F : Type) where
  zero : F
  one : F
  abs : F → F
  neg : F → F
  round : F → F
  max : F → F → F
  mul : F → F → F
  div : F → F → F
  lt : F → F → Bool
  eq : F → F → Bool
  /-- The saturating cast to `u32`. -/
  toU32 : F → ℕ
  ofNat : ℕ → F

structure PolarBuffer (F : Type) where
  packed : List UInt8
  scale : F

section

variable {F : Type} (ops : PolarOps F)

def polarScaleOver (data : List F) (maxLevels : ℕ) : F :=
  let maxAbs := data.foldl (fun a b => ops.max a (ops.abs b)) ops.zero
  if ops.eq maxAbs ops.zero then ops.one else ops.div maxAbs (ops.ofNat maxLevels)

def polarCodeOver (scale : F) (maxLevels : ℕ) (x : F) : ℕ × ℕ :=
  (if ops.lt x ops.zero then 1 else 0,
    min (ops.toU32 (ops.round (ops.div (ops.abs x) scale))) maxLevels)

def polarReconOver (scale : F) (code : ℕ × ℕ) : F :=
  let magnitude := ops.mul (ops.ofNat code.2) scale
  if code.1 = 0 then magnitude else ops.neg magnitude

def quantizePolarOver (data : List F) (bits : ℕ) : Outcome (PolarBuffer F) := do
  Outcome.assert (1 ≤ bits)
  let magBits := bits - 1
  let levels ← shl 32 1 magBits
  let maxLevels := levels - 1
  let scale := polarScaleOver ops data maxLevels
  let packed ← packAll bits (fun x => do
    let code := polarCodeOver ops scale maxLevels x
    let high ← shl 32 code.1 magBits
    return high ||| code.2) [] 0 data
  return ⟨packed, scale⟩

def dequantizePolarOver (buf : PolarBuffer F) (len bits : ℕ) : Outcome (List F) := do
  Outcome.assert (1 ≤ bits)
  let magBits := bits - 1
  let levels ← shl 32 1 magBits
  let maxLevels := levels - 1
  unpackAll bits (fun encoded => do
    let high ← shr 32 encoded magBits
    return polarReconOver ops buf.scale (high % 2, encoded &&& maxLevels)) buf.packed len

theorem polarCodeOver_lt (scale : F) (bits : ℕ) (x : F) :
    (polarCodeOver ops scale (maxLevelsOf bits) x).1 < 2 ^ 1 ∧
      (polarCodeOver ops scale (maxLevelsOf bits) x).2 < 2 ^ (bits - 1) := by
  constructor
  · unfold polarCodeOver
    simp only
    split <;> decide
  · apply Nat.lt_of_le_of_lt (Nat.min_le_right _ _)
    exact Nat.sub_lt (Nat.two_pow_pos _) Nat.one_pos

theorem polarOver_ok (data : List F) {bits : ℕ} (low : 1 ≤ bits) (high : bits ≤ 32) :
    ∃ packed, Holds packed ((data.map fun x => polarValue bits
        (polarCodeOver ops (polarScaleOver ops data (maxLevelsOf bits)) (maxLevelsOf bits) x)).flatMap
          (digits bits)) ∧
      quantizePolarOver ops data bits =
        .ok ⟨packed, polarScaleOver ops data (maxLevelsOf bits)⟩ ∧
      dequantizePolarOver ops ⟨packed, polarScaleOver ops data (maxLevelsOf bits)⟩ data.length bits =
        .ok (data.map fun x => polarReconOver ops (polarScaleOver ops data (maxLevelsOf bits))
          (polarCodeOver ops (polarScaleOver ops data (maxLevelsOf bits)) (maxLevelsOf bits) x)) := by
  generalize scaleIs : polarScaleOver ops data (maxLevelsOf bits) = scale
  have below : bits - 1 < 32 := by omega
  have code := polarCodeOver_lt ops scale bits
  have encodes : ∀ x ∈ data, (do
      let code := polarCodeOver ops scale (maxLevelsOf bits) x
      let high ← shl 32 code.1 (bits - 1)
      return high ||| code.2) =
        Except.ok (polarValue bits (polarCodeOver ops scale (maxLevelsOf bits) x)) := by
    intro x _
    exact bind_ok_iff.mpr ⟨_, shl_fits 1 (code x).1 below (by omega), rfl⟩
  obtain ⟨packed, ok, holds⟩ := packAll_ok _ _ holds_nil high encodes
  rw [List.nil_append] at holds
  refine ⟨packed, holds, ?_, ?_⟩
  · apply bind_ok_iff.mpr ⟨(), assert_ok_iff.mpr low, _⟩
    apply bind_ok_iff.mpr ⟨_, shl_one below, _⟩
    show (packAll bits _ [] 0 data >>= _) = _
    rw [show 2 ^ (bits - 1) - 1 = maxLevelsOf bits from rfl, scaleIs]
    exact bind_ok_iff.mpr ⟨packed, ok, rfl⟩
  -- the decoder, without a trailer behind the codes
  · apply bind_ok_iff.mpr ⟨(), assert_ok_iff.mpr low, _⟩
    apply bind_ok_iff.mpr ⟨_, shl_one below, _⟩
    show unpackAll bits _ packed data.length = _
    rw [← List.append_nil packed]
    apply unpackAll_packed holds high
    · intro x _
      have fits := shiftLeft_or_lt (code x).1 (code x).2
      rwa [Nat.add_sub_cancel' low] at fits
    · intro x _
      apply bind_ok_iff.mpr ⟨_, shr_ok below _, _⟩
      have sign : (polarCodeOver ops scale (maxLevelsOf bits) x).1 % 2 =
          (polarCodeOver ops scale (maxLevelsOf bits) x).1 := Nat.mod_eq_of_lt (code x).1
      rw [polarValue, shiftLeft_or_shiftRight (code x).2, shiftLeft_or_and (code x).2, sign]
      rfl

end

/-! ## The codec on floats is an instance -/

def FloatOps.polarOps (ops : FloatOps) : PolarOps UInt32 where
  zero := 0
  one := one
  abs := ops.abs
  neg := ops.neg
  round := ops.round
  max := ops.max
  mul := ops.mul
  div := ops.div
  lt := ops.lt
  eq := ops.eq
  toU32 := ops.toU32
  ofNat := ops.ofNat

/-- The float encoder writes the bytes of the scale behind the codes. -/
theorem quantizePolarStoredScale_eq (ops : FloatOps) (data : List UInt32) (bits : ℕ) :
    quantizePolarStoredScale ops data bits =
      (fun buf => buf.packed ++ leBytes buf.scale.toNat) <$>
        quantizePolarOver ops.polarOps data bits := by
  unfold quantizePolarStoredScale quantizePolarOver
  simp only [map_bind, map_pure, packCodes_eq]
  rfl

/-- The float decoder gives what the codec gives on the same codes and the same scale. -/
theorem dequantizePolarStoredScale_eq (ops : FloatOps) (data : List UInt32) {bits : ℕ}
    (low : 1 ≤ bits) (high : bits ≤ 32) {buf : PolarBuffer UInt32}
    (ok : quantizePolarOver ops.polarOps data bits = .ok buf) :
    dequantizePolarStoredScale ops (buf.packed ++ leBytes buf.scale.toNat) data.length bits =
      dequantizePolarOver ops.polarOps buf data.length bits := by
  obtain ⟨packed, holds, ok', decoded⟩ := polarOver_ok ops.polarOps data low high
  obtain rfl := Except.ok.inj (ok'.symm.trans ok)
  rw [decoded]
  exact dequantizePolarStoredScale_ok low high holds

/-! ## Exact arithmetic -/

def roundHalfAway (q : ℚ) : ℚ := if 0 ≤ q then ⌊q + 1 / 2⌋ else -⌊-q + 1 / 2⌋

def exactOps : PolarOps ℚ where
  zero := 0
  one := 1
  abs := fun q => |q|
  neg := fun q => -q
  round := roundHalfAway
  max := fun a b => max a b
  mul := fun a b => a * b
  div := fun a b => a / b
  lt := fun a b => a < b
  eq := fun a b => a = b
  toU32 := fun q => min ⌊q⌋.toNat (2 ^ 32 - 1)
  ofNat := fun n => n

/-- The scale is one for a vector of zeros, and else the largest magnitude over the levels. -/
def IsStoredScale (data : List ℚ) (bits : ℕ) (scale : ℚ) : Prop :=
  (∀ x ∈ data, x = 0) ∧ scale = 1 ∨
    ∃ top ∈ data, top ≠ 0 ∧ (∀ x ∈ data, |x| ≤ |top|) ∧ scale = |top| / (2 ^ (bits - 1) - 1)

theorem foldl_max (data : List ℚ) (start : ℚ) :
    start ≤ data.foldl (fun a b => max a |b|) start ∧
      (∀ x ∈ data, |x| ≤ data.foldl (fun a b => max a |b|) start) ∧
      (data.foldl (fun a b => max a |b|) start = start ∨
        ∃ x ∈ data, data.foldl (fun a b => max a |b|) start = |x|) := by
  induction data generalizing start with
  | nil => simp
  | cons x data ih =>
    obtain ⟨above, all, source⟩ := ih (max start |x|)
    rw [List.foldl_cons]
    refine ⟨le_trans (le_max_left _ _) above, ?_, ?_⟩
    · rw [List.forall_mem_cons]
      exact ⟨le_trans (le_max_right _ _) above, all⟩
    · rcases source with same | ⟨y, member, same⟩
      · rcases max_choice start |x| with left | right
        · exact .inl (same.trans left)
        · exact .inr ⟨x, List.mem_cons_self, same.trans right⟩
      · exact .inr ⟨y, List.mem_cons_of_mem _ member, same⟩

section

variable {data : List ℚ} {bits : ℕ}

theorem maxLevelsOf_cast (low : 2 ≤ bits) :
    (maxLevelsOf bits : ℚ) = 2 ^ (bits - 1) - 1 ∧ 1 ≤ maxLevelsOf bits := by
  have two : 2 ^ 1 ≤ 2 ^ (bits - 1) := Nat.pow_le_pow_right (by decide) (by omega)
  constructor
  · rw [maxLevelsOf, Nat.cast_sub (by omega)]
    norm_num
  · unfold maxLevelsOf
    omega

theorem polarScaleOver_spec (data : List ℚ) (low : 2 ≤ bits) :
    IsStoredScale data bits (polarScaleOver exactOps data (maxLevelsOf bits)) ∧
      0 < polarScaleOver exactOps data (maxLevelsOf bits) ∧
      ∀ x ∈ data, |x| ≤ maxLevelsOf bits * polarScaleOver exactOps data (maxLevelsOf bits) := by
  obtain ⟨cast, some⟩ := maxLevelsOf_cast low
  have levels : (1 : ℚ) ≤ maxLevelsOf bits := by exact_mod_cast some
  obtain ⟨above, all, source⟩ := foldl_max data 0
  generalize maxIs : data.foldl (fun a b => max a |b|) 0 = top at above all source
  have scaleIs : polarScaleOver exactOps data (maxLevelsOf bits) =
      if top = 0 then 1 else top / maxLevelsOf bits := by
    unfold polarScaleOver
    simp only [exactOps, maxIs, decide_eq_true_eq]
  rw [scaleIs]
  -- the early exit for zeros, which would have the scale zero
  by_cases zero : top = 0
  · have zeros : ∀ x ∈ data, x = 0 := by
      intro x member
      have small := all x member
      rw [zero] at small
      exact abs_nonpos_iff.mp small
    rw [if_pos zero]
    refine ⟨.inl ⟨zeros, rfl⟩, one_pos, fun x member => ?_⟩
    rw [zeros x member, abs_zero]
    linarith
  · rw [if_neg zero]
    have positive : 0 < top := lt_of_le_of_ne above (Ne.symm zero)
    obtain ⟨x, member, same⟩ := source.resolve_left zero
    refine ⟨.inr ⟨x, member, ?_, fun y there => same ▸ all y there, by rw [same, cast]⟩,
      by positivity, fun y there => ?_⟩
    · rintro rfl
      rw [abs_zero] at same
      exact zero same
    · rw [mul_div_cancel₀ _ (by positivity)]
      exact all y there

/-- An element between the levels is rounded to the nearest, and none is cut off. -/
theorem magnitude_error {x scale : ℚ} (high : bits ≤ 32) (positive : 0 < scale)
    (within : |x| ≤ maxLevelsOf bits * scale) :
    abs (((polarCodeOver exactOps scale (maxLevelsOf bits) x).2 : ℚ) * scale - |x|) ≤ scale / 2 := by
  have whole : |x| = |x| / scale * scale := (div_mul_cancel₀ _ positive.ne').symm
  have bound : |x| / scale ≤ maxLevelsOf bits := (div_le_iff₀ positive).mpr within
  have nonneg : 0 ≤ |x| / scale := div_nonneg (abs_nonneg x) positive.le
  have rounded : roundHalfAway (|x| / scale) = (⌊|x| / scale + 1 / 2⌋ : ℚ) := if_pos nonneg
  -- rounding a quotient that is not above the levels gives a level
  have code : ((polarCodeOver exactOps scale (maxLevelsOf bits) x).2 : ℚ) =
      (⌊|x| / scale + 1 / 2⌋ : ℚ) := by
    have floor_nonneg : 0 ≤ ⌊|x| / scale + 1 / 2⌋ := Int.floor_nonneg.mpr (by linarith)
    -- the largest quotient is rounded to the last level
    have floor_lt : ⌊|x| / scale + 1 / 2⌋ < (maxLevelsOf bits : ℤ) + 1 := by
      apply Int.floor_lt.mpr
      push_cast
      linarith
    have levels_lt : maxLevelsOf bits < 2 ^ 32 := by
      have power : 2 ^ (bits - 1) ≤ 2 ^ 32 := Nat.pow_le_pow_right (by decide) (by omega)
      have some := Nat.two_pow_pos (bits - 1)
      unfold maxLevelsOf
      omega
    have same : ((polarCodeOver exactOps scale (maxLevelsOf bits) x).2 : ℤ) =
        ⌊|x| / scale + 1 / 2⌋ := by
      simp only [polarCodeOver, exactOps, rounded, Int.floor_intCast]
      omega
    exact_mod_cast same
  have lower := Int.lt_floor_add_one (|x| / scale + 1 / 2)
  have upper := Int.floor_le (|x| / scale + 1 / 2)
  have near : |(⌊|x| / scale + 1 / 2⌋ : ℚ) - |x| / scale| ≤ 1 / 2 := by
    rw [abs_le]
    constructor <;> linarith
  calc abs (((polarCodeOver exactOps scale (maxLevelsOf bits) x).2 : ℚ) * scale - |x|)
      = |(⌊|x| / scale + 1 / 2⌋ : ℚ) - |x| / scale| * scale := by
        rw [code]
        nth_rewrite 2 [whole]
        rw [← sub_mul, abs_mul, abs_of_pos positive]
    _ ≤ 1 / 2 * scale := mul_le_mul_of_nonneg_right near positive.le
    _ = scale / 2 := by ring

/-- A reconstruction has the sign of its element, or is zero. -/
theorem polarRecon_error {x scale : ℚ} (high : bits ≤ 32) (positive : 0 < scale)
    (within : |x| ≤ maxLevelsOf bits * scale) :
    |polarReconOver exactOps scale (polarCodeOver exactOps scale (maxLevelsOf bits) x) - x| ≤
        scale / 2 ∧
      0 ≤ x * polarReconOver exactOps scale (polarCodeOver exactOps scale (maxLevelsOf bits) x) := by
  have error := magnitude_error high positive within
  generalize codeIs : polarCodeOver exactOps scale (maxLevelsOf bits) x = code at error
  have magnitude : 0 ≤ (code.2 : ℚ) * scale := mul_nonneg (Nat.cast_nonneg _) positive.le
  have sign : code.1 = if x < 0 then 1 else 0 := by
    rw [← codeIs]
    simp [polarCodeOver, exactOps]
  -- the sign is stored apart, so that the magnitudes decide
  by_cases negative : x < 0
  · have recon : polarReconOver exactOps scale code = -(code.2 * scale) := by
      simp [polarReconOver, exactOps, sign, negative]
    rw [recon]
    rw [abs_of_neg negative] at error
    constructor
    · rw [← abs_neg]
      have turned : -(-((code.2 : ℚ) * scale) - x) = code.2 * scale - -x := by ring
      rwa [turned]
    · rw [mul_neg, ← neg_mul]
      exact mul_nonneg (by linarith) magnitude
  · have recon : polarReconOver exactOps scale code = code.2 * scale := by
      simp [polarReconOver, exactOps, sign, negative]
    have nonneg : 0 ≤ x := not_lt.mp negative
    rw [recon]
    rw [abs_of_nonneg nonneg] at error
    exact ⟨error, mul_nonneg nonneg magnitude⟩

end

/-- The vector comes back, each element within half a scale and not under the opposite sign. -/
def RoundTrips (data : List ℚ) (bits : ℕ) : Prop :=
  ∃ buf recon, quantizePolarOver exactOps data bits = .ok buf ∧
    dequantizePolarOver exactOps buf data.length bits = .ok recon ∧
      IsStoredScale data bits buf.scale ∧ 0 < buf.scale ∧
        List.Forall₂ (fun x y => |y - x| ≤ buf.scale / 2 ∧ 0 ≤ x * y) data recon

/-- Every rational vector comes back in every width from two bits to a whole code word. -/
theorem roundTrips (data : List ℚ) (bits : ℕ) (low : 2 ≤ bits) (high : bits ≤ 32) :
    RoundTrips data bits := by
  obtain ⟨packed, -, ok, decoded⟩ := polarOver_ok exactOps data (Nat.le_of_succ_le low) high
  obtain ⟨stored, positive, within⟩ := polarScaleOver_spec data low
  refine ⟨_, _, ok, decoded, stored, positive, ?_⟩
  rw [List.forall₂_map_right_iff, List.forall₂_same]
  intro x member
  exact polarRecon_error high positive (within x member)

/-- Three thirds and minus a half, in three bits. -/
theorem third_and_half_roundTrips : RoundTrips [1 / 3, 0, -1 / 2] 3 :=
  roundTrips [1 / 3, 0, -1 / 2] 3 (by decide) (by decide)

/-- Wider codes do not fit into a code word: the shift to the number of levels panics. -/
theorem wide_not_roundTrips :
    ¬ ∀ (data : List ℚ) (bits : ℕ), data ≠ [] → 2 ≤ bits → RoundTrips data bits := by
  intro all
  obtain ⟨buf, -, ok, -⟩ := all [1] 33 (by decide) (by decide)
  cases ok

end TribunusCompute.TurboQuant
