import Mathlib.Data.Nat.Bitwise
import Mathlib.Tactic.LinearCombination
import Mathlib.Tactic.Ring

/-!
# Butterfly networks

A vector is a function of its positions. A stage combines the values at the two positions that
differ in one bit into their scaled sum and difference. A stage undoes itself where twice the
square of the scale is one, stages on different bits commute, and so a run of stages undoes
itself too.
-/
namespace Butterfly

/-- The position that differs in bit `k`. -/
def flipBit (k p : ℕ) : ℕ := p ^^^ 2 ^ k

theorem testBit_flipBit (k p j : ℕ) : (flipBit k p).testBit j = (p.testBit j ^^ decide (k = j)) := by
  rw [flipBit, Nat.testBit_xor, Nat.testBit_two_pow]

@[simp] theorem flipBit_flipBit (k p : ℕ) : flipBit k (flipBit k p) = p := by
  simp [flipBit]

theorem flipBit_comm (j k p : ℕ) : flipBit j (flipBit k p) = flipBit k (flipBit j p) := by
  unfold flipBit
  rw [Nat.xor_assoc, Nat.xor_comm (2 ^ k), ← Nat.xor_assoc]

theorem flipBit_low {k j : ℕ} (b : ℕ) (below : j < 2 ^ k) :
    flipBit k (2 ^ k * (2 * b) + j) = 2 ^ k * (2 * b + 1) + j := by
  apply Nat.eq_of_testBit_eq
  intro i
  rw [testBit_flipBit, Nat.testBit_two_pow_mul_add _ below, Nat.testBit_two_pow_mul_add _ below]
  -- below, at and above the bit
  rcases Nat.lt_trichotomy i k with before | rfl | after
  · simp [before, before.ne']
  · simp
  · obtain ⟨m, rfl⟩ : ∃ m, i = k + (m + 1) := ⟨i - k - 1, by omega⟩
    have half : (2 * b + 1) / 2 = b := by omega
    rw [if_neg (by omega), if_neg (by omega), Nat.add_sub_cancel_left, Nat.testBit_succ,
      Nat.testBit_succ, half, Nat.mul_div_cancel_left b (by decide)]
    simp

theorem testBit_low {k j : ℕ} (b : ℕ) (below : j < 2 ^ k) :
    (2 ^ k * (2 * b) + j).testBit k = false := by
  rw [Nat.testBit_two_pow_mul_add _ below]
  simp

theorem testBit_high {k j : ℕ} (b : ℕ) (below : j < 2 ^ k) :
    (2 ^ k * (2 * b + 1) + j).testBit k = true := by
  rw [Nat.testBit_two_pow_mul_add _ below]
  simp

variable {R : Type*} [CommRing R] (s : R)

/-- The stage on bit `k`: sums where the bit is clear, differences where it is set. -/
def stage (k : ℕ) (v : ℕ → R) (p : ℕ) : R :=
  if p.testBit k then (v (flipBit k p) - v p) * s else (v p + v (flipBit k p)) * s

/-- The stages on the bits from `k` on, the lowest first. -/
def stages (k : ℕ) : ℕ → (ℕ → R) → ℕ → R
  | 0, v => v
  | count + 1, v => stages (k + 1) count (stage s k v)

variable {s}

theorem stage_stage (half : 2 * s * s = 1) (k : ℕ) (v : ℕ → R) :
    stage s k (stage s k v) = v := by
  funext p
  cases bit : p.testBit k with
  | false =>
    have other : (flipBit k p).testBit k = true := by simp [testBit_flipBit, bit]
    simp only [stage, bit, other, Bool.false_eq_true, if_false, if_true, flipBit_flipBit]
    linear_combination v p * half
  | true =>
    have other : (flipBit k p).testBit k = false := by simp [testBit_flipBit, bit]
    simp only [stage, bit, other, Bool.false_eq_true, if_false, if_true, flipBit_flipBit]
    linear_combination v p * half

/-- Stages on different bits commute: neither changes the other's bit of a position. -/
theorem stage_comm {j k : ℕ} (apart : j ≠ k) (v : ℕ → R) :
    stage s j (stage s k v) = stage s k (stage s j v) := by
  funext p
  have keeps_k : (flipBit j p).testBit k = p.testBit k := by simp [testBit_flipBit, apart]
  have keeps_j : (flipBit k p).testBit j = p.testBit j := by simp [testBit_flipBit, apart.symm]
  have both := flipBit_comm j k p
  -- four signs, each an identity of the ring
  cases bit : p.testBit j <;> cases bit' : p.testBit k <;>
    simp only [stage, keeps_k, keeps_j, bit, bit', both, Bool.false_eq_true, if_false, if_true] <;>
    ring

theorem stage_stages {j k : ℕ} (below : j < k) (count : ℕ) (v : ℕ → R) :
    stages s k count (stage s j v) = stage s j (stages s k count v) := by
  induction count generalizing k v with
  | zero => rfl
  | succ count ih =>
    rw [stages, stages, ← stage_comm below.ne, ih (by omega)]

/-- The stages undo themselves, in the same order. -/
theorem stages_stages (half : 2 * s * s = 1) (k count : ℕ) (v : ℕ → R) :
    stages s k count (stages s k count v) = v := by
  induction count generalizing k v with
  | zero => rfl
  | succ count ih =>
    rw [stages, stages, ← stage_stages (Nat.lt_succ_self k), stage_stage half, ih]

end Butterfly
