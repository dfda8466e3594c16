import Mathlib.Data.List.Basic
import Mathlib.Data.Nat.Bitwise
import Mathlib.Tactic.Ring

/-!
# Bit streams in byte buffers

Bits are written into a buffer one after another, from the low end of each byte; values of any
width straddle its bytes.
-/
namespace BitStream

/-- Bit `i` of a buffer; beyond its bytes there are zeros. -/
def bit (buf : List UInt8) (i : ℕ) : Bool := (buf.getD (i / 8) 0).toNat.testBit (i % 8)

/-- The `width` low bits of a value, lowest first. -/
def digits (width value : ℕ) : List Bool := (List.range width).map value.testBit

/-- The buffer holds these bits and no others, in as many bytes as they need. -/
structure Holds (buf : List UInt8) (bits : List Bool) : Prop where
  length : buf.length = (bits.length + 7) / 8
  bit : ∀ i, bit buf i = bits.getD i false

/-- One more bit, in a byte of its own where the last one is full. -/
def put (buf : List UInt8) (i : ℕ) (b : Bool) : List UInt8 :=
  let buf := if i / 8 ≥ buf.length then buf ++ [0] else buf
  if b then buf.set (i / 8) (buf.getD (i / 8) 0 ||| 1 <<< UInt8.ofNat (i % 8)) else buf

@[simp] theorem length_digits (width value : ℕ) : (digits width value).length = width := by
  simp [digits]

theorem getD_digits {width value i : ℕ} (inside : i < width) :
    (digits width value).getD i false = value.testBit i := by
  simp [digits, List.getD_eq_getElem?_getD, inside]

theorem digits_succ (width value : ℕ) :
    digits (width + 1) value = digits width value ++ [value.testBit width] := by
  simp [digits, List.range_succ]

theorem holds_nil : Holds [] [] where
  length := rfl
  bit i := by simp [bit]

theorem bit_append_zero (buf : List UInt8) (i : ℕ) : bit (buf ++ [0]) i = bit buf i := by
  unfold bit
  rcases Nat.lt_trichotomy (i / 8) buf.length with inside | last | beyond
  · rw [List.getD_append _ _ _ _ inside]
  · rw [List.getD_append_right _ _ _ _ last.ge, last, Nat.sub_self, List.getD_cons_zero,
      List.getD_eq_default buf 0 (Nat.le_refl _)]
  · rw [List.getD_eq_default buf 0 beyond.le, List.getD_eq_default]
    rw [List.length_append, List.length_singleton]
    omega

theorem bit_append_left {buf rest : List UInt8} {i : ℕ} (inside : i < 8 * buf.length) :
    bit (buf ++ rest) i = bit buf i := by
  unfold bit
  rw [List.getD_append]
  omega

theorem bit_append_right {buf rest : List UInt8} {i : ℕ} :
    bit (buf ++ rest) (8 * buf.length + i) = bit rest i := by
  unfold bit
  have byte : (8 * buf.length + i) / 8 = buf.length + i / 8 := by omega
  have within : (8 * buf.length + i) % 8 = i % 8 := by omega
  rw [byte, within, List.getD_append_right _ _ _ _ (Nat.le_add_right _ _), Nat.add_sub_cancel_left]

theorem bit_drop (buf : List UInt8) (n i : ℕ) : bit (buf.drop n) i = bit buf (8 * n + i) := by
  unfold bit
  have byte : (8 * n + i) / 8 = n + i / 8 := by omega
  have within : (8 * n + i) % 8 = i % 8 := by omega
  rw [byte, within, List.getD_eq_getElem?_getD, List.getElem?_drop, ← List.getD_eq_getElem?_getD]

theorem testBit_setBit (byte : UInt8) {k j : ℕ} (inside : k < 8) :
    (byte ||| 1 <<< UInt8.ofNat k).toNat.testBit j = (byte.toNat.testBit j || decide (k = j)) := by
  have small : (UInt8.ofNat k).toNat = k := UInt8.toNat_ofNat_of_lt' (by
    show k < 256
    omega)
  have power : (1 <<< UInt8.ofNat k : UInt8).toNat = 2 ^ k := by
    rw [UInt8.toNat_shiftLeft, small, Nat.mod_eq_of_lt inside, UInt8.toNat_one,
      Nat.one_shiftLeft]
    exact Nat.mod_eq_of_lt (Nat.pow_lt_pow_right (by decide) inside)
  rw [UInt8.toNat_or, Nat.testBit_or, power, Nat.testBit_two_pow]

theorem bit_setBit {buf : List UInt8} {p : ℕ} (inside : p / 8 < buf.length) (i : ℕ) :
    bit (buf.set (p / 8) (buf.getD (p / 8) 0 ||| 1 <<< UInt8.ofNat (p % 8))) i =
      (bit buf i || decide (p = i)) := by
  unfold bit
  by_cases same : p / 8 = i / 8
  · have there : (buf.set (p / 8) (buf.getD (p / 8) 0 ||| 1 <<< UInt8.ofNat (p % 8))).getD (i / 8) 0 =
        buf.getD (i / 8) 0 ||| 1 <<< UInt8.ofNat (p % 8) := by
      rw [← same, List.getD_eq_getElem?_getD, List.getElem?_set_self inside, Option.getD_some]
    rw [there, testBit_setBit _ (Nat.mod_lt p (by decide))]
    congr 1
    rw [decide_eq_decide]
    omega
  · have there : (buf.set (p / 8) (buf.getD (p / 8) 0 ||| 1 <<< UInt8.ofNat (p % 8))).getD (i / 8) 0 =
        buf.getD (i / 8) 0 := by
      rw [List.getD_eq_getElem?_getD, List.getElem?_set_ne same, ← List.getD_eq_getElem?_getD]
    have apart : p ≠ i := by
      rintro rfl
      exact same rfl
    rw [there, decide_eq_false apart, Bool.or_false]

theorem Holds.put {buf : List UInt8} {bits : List Bool} (holds : Holds buf bits) (b : Bool) :
    Holds (put buf bits.length b) (bits ++ [b]) := by
  have length := holds.length
  -- a full last byte is followed by a byte of zeros, which changes no bit
  obtain ⟨wide, grown, room, same⟩ : ∃ wide : List UInt8,
      (if bits.length / 8 ≥ buf.length then buf ++ [0] else buf) = wide ∧
        wide.length = (bits.length + 1 + 7) / 8 ∧ ∀ i, BitStream.bit wide i = bits.getD i false := by
    split
    · refine ⟨buf ++ [0], rfl, ?_, fun i => (bit_append_zero buf i).trans (holds.bit i)⟩
      rw [List.length_append, List.length_singleton]
      omega
    · exact ⟨buf, rfl, by omega, holds.bit⟩
  have inside : bits.length / 8 < wide.length := by omega
  have appended : ∀ i, (bits ++ [b]).getD i false =
      (bits.getD i false || (b && decide (bits.length = i))) := by
    intro i
    rcases Nat.lt_trichotomy i bits.length with before | rfl | after
    · rw [List.getD_append _ _ _ _ before]
      simp [before.ne']
    · rw [List.getD_append_right _ _ _ _ (Nat.le_refl _), List.getD_eq_default bits]
      · simp
      · exact Nat.le_refl _
    · rw [List.getD_eq_default, List.getD_eq_default bits _ after.le]
      · simp [after.ne]
      · rw [List.length_append, List.length_singleton]
        exact after
  unfold BitStream.put
  simp only [grown]
  constructor
  · rw [List.length_append, List.length_singleton, ← room]
    split
    · exact List.length_set
    · rfl
  · intro i
    rw [appended, ← same i]
    split
    next set =>
      rw [set, bit_setBit inside, Bool.true_and]
    next clear =>
      rw [Bool.eq_false_iff.mpr clear, Bool.false_and, Bool.or_false]

theorem getD_flatMap_digits {width : ℕ} {codes : List ℕ} {k i : ℕ} (inside : k < codes.length)
    (within : i < width) :
    (codes.flatMap (digits width)).getD (k * width + i) false = (codes.getD k 0).testBit i := by
  induction codes generalizing k with
  | nil => cases inside
  | cons code codes ih =>
    rw [List.flatMap_cons]
    cases k with
    | zero =>
      rw [Nat.zero_mul, Nat.zero_add, List.getD_append, getD_digits within, List.getD_cons_zero]
      rwa [length_digits]
    | succ k =>
      have behind : (k + 1) * width + i = (digits width code).length + (k * width + i) := by
        rw [length_digits]
        ring
      rw [behind, List.getD_append_right _ _ _ _ (Nat.le_add_right _ _), Nat.add_sub_cancel_left,
        ih (Nat.lt_of_succ_lt_succ inside), List.getD_cons_succ]

theorem length_flatMap_digits (width : ℕ) (codes : List ℕ) :
    (codes.flatMap (digits width)).length = codes.length * width := by
  rw [List.length_flatMap]
  simp

end BitStream
