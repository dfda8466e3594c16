import Mathlib.Algebra.Order.Field.Power
import Mathlib.Data.Int.Log
import Mathlib.Data.Rat.Floor
import Mathlib.Tactic.FieldSimp
import Mathlib.Tactic.Ring
import Mathlib.Tactic.Linarith
import Mathlib.Tactic.Positivity

/-!
# Binary floating-point formats

The rational value of a finite datum, from its bits. A format has `e` exponent bits and `m`
bits of fraction.
-/
namespace Ieee

variable {e m bits : ℕ}

def fraction (m bits : ℕ) : ℕ := bits % 2 ^ m

def exponent (e m bits : ℕ) : ℕ := bits / 2 ^ m % 2 ^ e

def negative (e m bits : ℕ) : Bool := bits / 2 ^ (e + m) % 2 = 1

/-- Neither an infinity nor a NaN. -/
def Finite (e m bits : ℕ) : Prop := exponent e m bits ≠ 2 ^ e - 1

/-- Smaller than every normal number, and not zero. -/
def Subnormal (e m bits : ℕ) : Prop := exponent e m bits = 0 ∧ fraction m bits ≠ 0

instance : Decidable (Finite e m bits) := inferInstanceAs (Decidable (_ ≠ _))

instance : Decidable (Subnormal e m bits) := inferInstanceAs (Decidable (_ ∧ _))

def bias (e : ℕ) : ℤ := 2 ^ (e - 1) - 1

/-- The absolute value of a datum with this exponent field and fraction. -/
def magnitude (e m exponent fraction : ℕ) : ℚ :=
  if exponent = 0 then fraction * (2 : ℚ) ^ (1 - bias e - m)
  else (2 ^ m + fraction : ℕ) * (2 : ℚ) ^ (exponent - bias e - m)

def signed (negative : Bool) (x : ℚ) : ℚ := if negative then -x else x

def value (e m bits : ℕ) : ℚ :=
  signed (negative e m bits) (magnitude e m (exponent e m bits) (fraction m bits))

/-- The nearest integer, and of two the even one. -/
def roundEven (x : ℚ) : ℤ :=
  if Int.fract x < 1 / 2 ∨ Int.fract x = 1 / 2 ∧ Even ⌊x⌋ then ⌊x⌋ else ⌊x⌋ + 1

/-- The value that a number is rounded to, where no exponent is too large for the format. -/
def nearest (e m : ℕ) (x : ℚ) : ℚ :=
  let unit : ℚ := 2 ^ (max (Int.log 2 |x|) (1 - bias e) - m)
  roundEven (x / unit) * unit

@[simp]
theorem nearest_zero (e m : ℕ) : nearest e m 0 = 0 := by simp [nearest, roundEven]

/-- The bits of a datum. -/
def pack (e m : ℕ) (negative : Bool) (exponent fraction : ℕ) : ℕ :=
  negative.toNat * 2 ^ (e + m) + exponent * 2 ^ m + fraction

theorem value_pack {negative : Bool} {exponent fraction : ℕ} (fits : exponent < 2 ^ e)
    (small : fraction < 2 ^ m) :
    value e m (pack e m negative exponent fraction) =
      signed negative (magnitude e m exponent fraction) := by
  have positive : 0 < 2 ^ m := Nat.two_pow_pos m
  have positive' : 0 < 2 ^ e := Nat.two_pow_pos e
  have regroup : pack e m negative exponent fraction =
      2 ^ m * (2 ^ e * negative.toNat + exponent) + fraction := by
    unfold pack
    ring
  have low : Ieee.fraction m (pack e m negative exponent fraction) = fraction := by
    rw [regroup, Ieee.fraction, Nat.mul_add_mod, Nat.mod_eq_of_lt small]
  have above : pack e m negative exponent fraction / 2 ^ m =
      2 ^ e * negative.toNat + exponent := by
    rw [regroup, Nat.mul_add_div positive, Nat.div_eq_of_lt small, Nat.add_zero]
  have middle : Ieee.exponent e m (pack e m negative exponent fraction) = exponent := by
    rw [Ieee.exponent, above, Nat.mul_add_mod, Nat.mod_eq_of_lt fits]
  have high : Ieee.negative e m (pack e m negative exponent fraction) = negative := by
    rw [Ieee.negative, Nat.add_comm e m, Nat.pow_add, ← Nat.div_div_eq_div_mul, above,
      Nat.mul_add_div positive', Nat.div_eq_of_lt fits, Nat.add_zero]
    cases negative <;> rfl
  rw [value, low, middle, high]

theorem magnitude_nonneg (exponent fraction : ℕ) : 0 ≤ magnitude e m exponent fraction := by
  unfold magnitude
  split <;> positivity

theorem abs_signed (negative : Bool) {x : ℚ} (nonneg : 0 ≤ x) : |signed negative x| = x := by
  unfold signed
  split
  · rw [abs_neg, abs_of_nonneg nonneg]
  · exact abs_of_nonneg nonneg

variable (e m bits) in
/-- No datum whose exponent field is at most `top` is larger than the last of that exponent. -/
theorem abs_value_le (top : ℕ) (positive : 1 ≤ top) (below : exponent e m bits ≤ top) :
    |value e m bits| ≤ (2 ^ (m + 1) - 1) * (2 : ℚ) ^ (top - bias e - m) := by
  have small : fraction m bits + 1 ≤ 2 ^ m := Nat.mod_lt _ (Nat.two_pow_pos m)
  have small' : (fraction m bits : ℚ) + 1 ≤ 2 ^ m := by exact_mod_cast small
  have power : (0 : ℚ) < 2 ^ m := by positivity
  rw [value, abs_signed _ (magnitude_nonneg _ _), magnitude]
  have grow : ∀ {a b : ℤ}, a ≤ b → (2 : ℚ) ^ a ≤ 2 ^ b := fun h =>
    zpow_le_zpow_right₀ (by norm_num) h
  split
  · apply mul_le_mul _ (grow (by omega)) (by positivity)
    · rw [pow_succ]
      linarith
    · rw [pow_succ]
      linarith
  · push_cast
    apply mul_le_mul _ (grow (by omega)) (by positivity)
    · rw [pow_succ]
      linarith
    · rw [pow_succ]
      linarith

end Ieee
