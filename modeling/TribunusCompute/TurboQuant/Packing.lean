import TribunusCompute.Library.BitStream
import TribunusCompute.TurboQuant.Codecs

/-!
# Packing and unpacking

What the encoders pack is read back code by code, in front of any trailer.
-/
namespace TribunusCompute.TurboQuant

open Outcome BitStream

variable {buf packed : List UInt8} {bits : List Bool} {width : ℕ}

theorem shl_ok {width n : ℕ} (below : n < width) (a : ℕ) :
    shl width a n = .ok (a <<< n % 2 ^ width) := by
  rw [shl, if_pos below]

theorem shr_ok {width n : ℕ} (below : n < width) (a : ℕ) : shr width a n = .ok (a >>> n) := by
  rw [shr, if_pos below]

theorem shiftRight_mod_two {value i : ℕ} : value >>> i % 2 = 1 ↔ value.testBit i = true := by
  rw [Nat.testBit, Nat.and_comm, Nat.and_one_is_mod]
  simp

theorem byte_shiftRight_and_one (byte : UInt8) {k : ℕ} (inside : k < 8) :
    (byte >>> UInt8.ofNat k) &&& 1 = 1 ↔ byte.toNat.testBit k = true := by
  have small : (UInt8.ofNat k).toNat = k := UInt8.toNat_ofNat_of_lt' (by
    show k < 256
    omega)
  rw [← UInt8.toNat_inj, UInt8.toNat_and, UInt8.toNat_shiftRight, small, Nat.mod_eq_of_lt inside,
    UInt8.toNat_one, Nat.and_one_is_mod]
  exact shiftRight_mod_two

theorem bitWrite_ok (holds : Holds buf bits) (value : ℕ) (narrow : width ≤ 32) :
    ∃ written, bitWrite buf bits.length width value = .ok written ∧
      Holds written (bits ++ digits width value) := by
  induction width with
  | zero => exact ⟨buf, rfl, by simpa [digits] using holds⟩
  | succ width ih =>
    obtain ⟨written, ok, held⟩ := ih (Nat.le_of_succ_le narrow)
    have put := held.put (value.testBit width)
    have here : (bits ++ digits width value).length = bits.length + width := by
      rw [List.length_append, length_digits]
    rw [here] at put
    refine ⟨_, ?_, by rw [digits_succ, ← List.append_assoc]; exact put⟩
    -- the writer grows the buffer before it sets a bit
    have turn : writeBit bits.length value written width =
        .ok (BitStream.put written (bits.length + width) (value.testBit width)) := by
      have room := held.length
      rw [here] at room
      have inside : (bits.length + width) / 8 < (if (bits.length + width) / 8 ≥ written.length
          then written ++ [0] else written).length := by
        split
        · rw [List.length_append, List.length_singleton]
          omega
        · omega
      unfold writeBit BitStream.put
      rw [shr_ok (Nat.lt_of_succ_le narrow)]
      apply bind_ok_iff.mpr
      refine ⟨value >>> width, rfl, ?_⟩
      by_cases set : value.testBit width
      · rw [if_pos (shiftRight_mod_two.mpr set), set]
        exact bind_ok_iff.mpr ⟨(), assert_ok_iff.mpr inside, rfl⟩
      · rw [if_neg (shiftRight_mod_two.not.mpr set), Bool.eq_false_iff.mpr set]
        rfl
    exact foldlM_range_succ_ok_iff.mpr ⟨written, ok, turn⟩

/-- The reader's test of a position, which finds no bit set beyond the buffer. -/
theorem bit_probe (buf : List UInt8) (i : ℕ) :
    (i / 8 < buf.length ∧ (buf.getD (i / 8) 0 >>> UInt8.ofNat (i % 8)) &&& 1 = 1) ↔
      bit buf i = true := by
  rw [byte_shiftRight_and_one _ (Nat.mod_lt _ (by decide))]
  constructor
  · rintro ⟨-, set⟩
    exact set
  · intro set
    refine ⟨?_, set⟩
    by_contra beyond
    rw [bit, List.getD_eq_default buf 0 (Nat.not_lt.mp beyond)] at set
    simp at set

theorem bitRead_ok (buf : List UInt8) (bitOffset : ℕ) (narrow : width ≤ 32) :
    ∃ val, bitRead buf bitOffset width = .ok val ∧
      ∀ i, val.testBit i = (decide (i < width) && bit buf (bitOffset + i)) := by
  induction width with
  | zero => exact ⟨0, rfl, by simp⟩
  | succ width ih =>
    obtain ⟨val, ok, read⟩ := ih (Nat.le_of_succ_le narrow)
    have below : width < 32 := Nat.lt_of_succ_le narrow
    have probe := bit_probe buf (bitOffset + width)
    have turn : readBit buf bitOffset val width =
        .ok (val ||| (if bit buf (bitOffset + width) then 2 ^ width else 0)) := by
      unfold readBit
      by_cases set : bit buf (bitOffset + width) = true
      · have power : 1 <<< width % 2 ^ 32 = 2 ^ width := by
          rw [Nat.one_shiftLeft]
          exact Nat.mod_eq_of_lt (Nat.pow_lt_pow_right (by decide) below)
        rw [if_pos (probe.mpr set), if_pos set, shl_ok below, power]
        rfl
      · rw [if_neg (probe.not.mpr set), if_neg set, Nat.or_zero]
        rfl
    refine ⟨_, foldlM_range_succ_ok_iff.mpr ⟨val, ok, turn⟩, ?_⟩
    intro i
    rw [Nat.testBit_or, read]
    rcases Nat.lt_trichotomy i width with before | rfl | after
    -- the new bit is apart from those below
    · have other : (if bit buf (bitOffset + width) then 2 ^ width else 0).testBit i = false := by
        split
        · rw [Nat.testBit_two_pow, decide_eq_false before.ne']
        · exact Nat.zero_testBit i
      rw [other, Bool.or_false, decide_eq_true before, decide_eq_true (Nat.lt_succ_of_lt before)]
    · rw [decide_eq_false (Nat.lt_irrefl i), decide_eq_true (Nat.lt_succ_self i), Bool.false_and,
        Bool.false_or, Bool.true_and]
      split
      next set => rw [Nat.testBit_two_pow_self, set]
      next clear => rw [Nat.zero_testBit, Bool.eq_false_iff.mpr clear]
    · have other : (if bit buf (bitOffset + width) then 2 ^ width else 0).testBit i = false := by
        split
        · rw [Nat.testBit_two_pow, decide_eq_false after.ne]
        · exact Nat.zero_testBit i
      rw [other, decide_eq_false (by omega), decide_eq_false (by omega)]
      rfl

/-! ### The loops over elements of any kind -/

section

variable {α β : Type}

def packAll (width : ℕ) (code : α → Outcome ℕ) : List UInt8 → ℕ → List α → Outcome (List UInt8)
  | packed, _, [] => return packed
  | packed, bitPos, x :: data => do
    let val ← code x
    let packed ← bitWrite packed bitPos width val
    packAll width code packed (bitPos + width) data

def unpackAll (width : ℕ) (recon : ℕ → Outcome β) (buf : List UInt8) (len : ℕ) :
    Outcome (List β) :=
  (List.range len).mapM fun k => do
    let val ← bitRead buf (k * width) width
    recon val

theorem packCodes_eq (width : ℕ) (code : UInt32 → Outcome ℕ) (buf : List UInt8) (bitPos : ℕ)
    (data : List UInt32) : packCodes width code buf bitPos data = packAll width code buf bitPos data := by
  induction data generalizing buf bitPos with
  | nil => rfl
  | cons x data ih =>
    unfold packCodes packAll
    simp only [ih]

theorem packAll_ok (code : α → Outcome ℕ) (value : α → ℕ) {data : List α} (holds : Holds buf bits)
    (narrow : width ≤ 32) (codes : ∀ x ∈ data, code x = .ok (value x)) :
    ∃ packed, packAll width code buf bits.length data = .ok packed ∧
      Holds packed (bits ++ (data.map value).flatMap (digits width)) := by
  induction data generalizing buf bits with
  | nil => exact ⟨buf, rfl, by simpa using holds⟩
  | cons x data ih =>
    obtain ⟨first, later⟩ := List.forall_mem_cons.mp codes
    obtain ⟨written, ok, held⟩ := bitWrite_ok holds (value x) narrow
    obtain ⟨packed, rest, done⟩ := ih held later
    have next : (bits ++ digits width (value x)).length = bits.length + width := by
      rw [List.length_append, length_digits]
    rw [next] at rest
    refine ⟨packed, ?_, by simpa using done⟩
    exact bind_ok_iff.mpr ⟨value x, first, bind_ok_iff.mpr ⟨written, ok, rest⟩⟩

theorem packCodes_ok (code : UInt32 → Outcome ℕ) (value : UInt32 → ℕ) {data : List UInt32}
    (holds : Holds buf bits) (narrow : width ≤ 32) (codes : ∀ x ∈ data, code x = .ok (value x)) :
    ∃ packed, packCodes width code buf bits.length data = .ok packed ∧
      Holds packed (bits ++ (data.map value).flatMap (digits width)) := by
  rw [packCodes_eq]
  exact packAll_ok code value holds narrow codes

theorem bitRead_packed {codes : List ℕ} (holds : Holds packed (codes.flatMap (digits width)))
    (narrow : width ≤ 32) (trailer : List UInt8) {k : ℕ} (inside : k < codes.length)
    (fits : codes.getD k 0 < 2 ^ width) :
    bitRead (packed ++ trailer) (k * width) width = .ok (codes.getD k 0) := by
  obtain ⟨val, ok, read⟩ := bitRead_ok (packed ++ trailer) (k * width) narrow
  rw [ok]
  congr 1
  apply Nat.eq_of_testBit_eq
  intro i
  rw [read]
  by_cases within : i < width
  · have room := holds.length
    rw [length_flatMap_digits] at room
    -- the code lies before the trailer
    have before : k * width + i < codes.length * width := by
      calc k * width + i < (k + 1) * width := by rw [Nat.add_mul, Nat.one_mul]; omega
        _ ≤ codes.length * width := Nat.mul_le_mul_right width inside
    rw [bit_append_left (by omega), holds.bit, getD_flatMap_digits inside within,
      decide_eq_true within, Bool.true_and]
  · have high : 2 ^ width ≤ 2 ^ i := Nat.pow_le_pow_right (by decide) (Nat.not_lt.mp within)
    rw [decide_eq_false within, Bool.false_and, Nat.testBit_lt_two_pow (Nat.lt_of_lt_of_le fits high)]

theorem unpackAll_packed {value : α → ℕ} {data : List α} {recon : ℕ → Outcome β} {result : α → β}
    (holds : Holds packed ((data.map value).flatMap (digits width))) (narrow : width ≤ 32)
    (fits : ∀ x ∈ data, value x < 2 ^ width)
    (recons : ∀ x ∈ data, recon (value x) = .ok (result x)) (trailer : List UInt8) :
    unpackAll width recon (packed ++ trailer) data.length = .ok (data.map result) := by
  apply mapM_ok_iff.mpr
  rw [List.forall₂_iff_get]
  refine ⟨by simp, ?_⟩
  intro k inRange inside
  rw [List.length_range] at inRange
  have there : (data.map value).getD k 0 = value data[k] := by
    simp [List.getD_eq_getElem?_getD, inRange]
  have read := bitRead_packed holds narrow trailer
    (by rwa [List.length_map]) (there ▸ fits _ (List.getElem_mem inRange))
  simp only [List.get_eq_getElem, List.getElem_range, List.getElem_map]
  exact bind_ok_iff.mpr ⟨_, read, there ▸ recons _ (List.getElem_mem inRange)⟩

end

theorem unpackCodes_packed {value : UInt32 → ℕ} {data : List UInt32}
    {recon : ℕ → Outcome UInt32} {result : UInt32 → UInt32}
    (holds : Holds packed ((data.map value).flatMap (digits width))) (narrow : width ≤ 32)
    (fits : ∀ x ∈ data, value x < 2 ^ width)
    (recons : ∀ x ∈ data, recon (value x) = .ok (result x)) (trailer : List UInt8) :
    unpackCodes width recon (packed ++ trailer) data.length = .ok (data.map result) :=
  unpackAll_packed holds narrow fits recons trailer

theorem unpackCodes_element {recon : ℕ → Outcome UInt32} {len : ℕ} {result : List UInt32}
    (ok : unpackCodes width recon buf len = .ok result) :
    result.length = len ∧ ∀ k < len, ∃ val, bitRead buf (k * width) width = .ok val ∧
      recon val = .ok (result.getD k 0) := by
  obtain ⟨length, each⟩ := List.forall₂_iff_get.mp (mapM_ok_iff.mp ok)
  rw [List.length_range] at length
  refine ⟨length.symm, ?_⟩
  intro k inside
  have element := each k (by rwa [List.length_range]) (by rwa [← length])
  simp only [List.get_eq_getElem, List.getElem_range] at element
  obtain ⟨val, read, reconstructed⟩ := bind_ok_iff.mp element
  refine ⟨val, read, ?_⟩
  rw [reconstructed, List.getD_eq_getElem?_getD, List.getElem?_eq_getElem (by rwa [← length]),
    Option.getD_some]

end TribunusCompute.TurboQuant
