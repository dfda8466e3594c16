import Mathlib.Algebra.GroupWithZero.Nat
import Mathlib.Tactic.ByContra

/-!
# Bitmaps stored in 64-bit words

Bit `i` of a bitmap is bit `i % 64` of word `i / 64`. Reading past the last word
gives zeros.
-/
namespace Bitmap

abbrev Word := BitVec 64

/-- The mask of one bit, `1 << b`. -/
def mask (b : ℕ) : Word := 1#64 <<< b

def word (bm : List Word) (w : ℕ) : Word := bm.getD w 0#64

def bit (bm : List Word) (i : ℕ) : Bool := (word bm (i / 64)).getLsbD (i % 64)

def setBit (bm : List Word) (i : ℕ) : List Word :=
  bm.set (i / 64) (word bm (i / 64) ||| mask (i % 64))

def clearBit (bm : List Word) (i : ℕ) : List Word :=
  bm.set (i / 64) (word bm (i / 64) &&& ~~~ mask (i % 64))

/-- The index of the lowest set bit, 64 for the zero word. -/
def trailingZeros (w : Word) : ℕ :=
  ((List.range 64).find? fun i => w.getLsbD i).getD 64

def countOnes (w : Word) : ℕ := w.cpop.toNat

@[simp] theorem getLsbD_mask (b i : ℕ) (hb : b < 64) : (mask b).getLsbD i = decide (i = b) := by
  simp only [mask, BitVec.getLsbD_shiftLeft, BitVec.getLsbD_one]
  by_cases same : i = b
  · subst same
    simp [hb]
  · by_cases below : i < b
    · simp [below, same]
    · have : ¬ i - b = 0 := by omega
      simp [same, this]

theorem and_mask_eq_zero_iff (w : Word) (b : ℕ) (hb : b < 64) :
    w &&& mask b = 0#64 ↔ w.getLsbD b = false := by
  constructor
  · intro h
    have read : (w &&& mask b).getLsbD b = false := by rw [h, BitVec.getLsbD_zero]
    rwa [BitVec.getLsbD_and, getLsbD_mask b b hb, decide_eq_true rfl, Bool.and_true] at read
  · intro clear
    apply BitVec.eq_of_getLsbD_eq
    intro i _
    simp only [BitVec.getLsbD_and, getLsbD_mask _ _ hb, BitVec.getLsbD_zero, Bool.and_eq_false_iff]
    by_cases same : i = b
    · exact Or.inl (same ▸ clear)
    · exact Or.inr (decide_eq_false same)

theorem getLsbD_trailingZeros (w : Word) (nonzero : w ≠ 0#64) :
    trailingZeros w < 64 ∧ w.getLsbD (trailingZeros w) = true ∧
      ∀ i, i < trailingZeros w → w.getLsbD i = false := by
  unfold trailingZeros
  cases found : (List.range 64).find? fun i => w.getLsbD i with
  | none =>
    exfalso
    apply nonzero
    apply BitVec.eq_of_getLsbD_eq
    intro i hi
    have clear := List.find?_range_eq_none.mp found i hi
    simpa using clear
  | some b =>
    obtain ⟨set, member, clear⟩ := List.find?_range_eq_some.mp found
    exact ⟨List.mem_range.mp member, set, fun i hi => by simpa using clear i hi⟩

theorem word_set (bm : List Word) (w v : ℕ) (x : Word) :
    word (bm.set w x) v = if w = v ∧ v < bm.length then x else word bm v := by
  simp only [word, List.getD_eq_getElem?_getD, List.getElem?_set]
  by_cases same : w = v
  · subst same
    by_cases inside : w < bm.length <;> simp [inside]
  · simp [same]

theorem word_beyond (bm : List Word) {w : ℕ} (h : bm.length ≤ w) : word bm w = 0#64 := by
  simp [word, List.getD_eq_getElem?_getD, h]

private theorem position_eq {i j : ℕ} (w : i / 64 = j / 64) (b : j % 64 = i % 64) : j = i := by
  omega

theorem bit_setBit (bm : List Word) (i j : ℕ) (inside : i / 64 < bm.length) :
    bit (setBit bm i) j = (bit bm j || decide (j = i)) := by
  simp only [bit, setBit, word_set]
  by_cases sameWord : i / 64 = j / 64
  · rw [if_pos ⟨sameWord, sameWord ▸ inside⟩, sameWord, BitVec.getLsbD_or,
      getLsbD_mask _ _ (Nat.mod_lt _ (by omega))]
    by_cases same : j = i
    · subst same
      simp
    · have offset : ¬ j % 64 = i % 64 := fun b => same (position_eq sameWord b)
      simp [same, offset]
  · have different : ¬ j = i := fun same => sameWord (same ▸ rfl)
    simp [sameWord, different]

theorem bit_clearBit (bm : List Word) (i j : ℕ) :
    bit (clearBit bm i) j = (bit bm j && !decide (j = i)) := by
  simp only [bit, clearBit, word_set]
  by_cases sameWord : i / 64 = j / 64
  · by_cases inside : j / 64 < bm.length
    · rw [if_pos ⟨sameWord, inside⟩, sameWord, BitVec.getLsbD_and, BitVec.getLsbD_not,
        getLsbD_mask _ _ (Nat.mod_lt _ (by omega))]
      have bound : j % 64 < 64 := Nat.mod_lt _ (by omega)
      by_cases same : j = i
      · subst same
        simp
      · have offset : ¬ j % 64 = i % 64 := fun b => same (position_eq sameWord b)
        simp [same, offset, bound]
    · simp [word_beyond bm (Nat.le_of_not_lt inside), inside]
  · have different : ¬ j = i := fun same => sameWord (same ▸ rfl)
    simp [sameWord, different]

@[simp] theorem length_setBit (bm : List Word) (i : ℕ) : (setBit bm i).length = bm.length :=
  List.length_set

@[simp] theorem length_clearBit (bm : List Word) (i : ℕ) : (clearBit bm i).length = bm.length :=
  List.length_set

theorem bit_replicate_allOnes (n i : ℕ) (inside : i / 64 < n) :
    bit (List.replicate n (BitVec.allOnes 64)) i = true := by
  have bound : i % 64 < 64 := Nat.mod_lt _ (by omega)
  simp only [bit, word, List.getD_eq_getElem?_getD, List.getElem?_replicate, if_pos inside,
    Option.getD_some, BitVec.getLsbD_allOnes, decide_eq_true bound]

/-- What survives masking off the low `b` bits: the bits from `b` on. -/
theorem getLsbD_and_allOnes_shiftLeft (w : Word) (b i : ℕ) (hi : i < 64) :
    (w &&& (BitVec.allOnes 64 <<< b)).getLsbD i = (w.getLsbD i && decide (b ≤ i)) := by
  rw [BitVec.getLsbD_and, BitVec.getLsbD_shiftLeft, BitVec.getLsbD_allOnes]
  by_cases below : i < b
  · simp [below, hi, Nat.not_le.mpr below]
  · have inside : i - b < 64 := by omega
    simp [below, hi, Nat.not_lt.mp below, inside]

/-! ## Counting set bits -/

theorem countOnes_eq_countP (w : Word) :
    countOnes w = (List.range 64).countP fun i => w.getLsbD i := by
  have upto (n : ℕ) : w.cpopNatRec n 0 = (List.range n).countP fun i => w.getLsbD i := by
    induction n with
    | zero => rfl
    | succ n ih =>
      rw [BitVec.cpopNatRec_succ, BitVec.cpopNatRec_eq, ih, List.range_succ, List.countP_append]
      cases set : w.getLsbD n <;> simp [set, Nat.add_comm]
  have bound : w.cpopNatRec 64 0 ≤ 64 := BitVec.cpopNatRec_zero_le w 64
  rw [countOnes, BitVec.cpop, BitVec.toNat_ofNat, Nat.mod_eq_of_lt (by omega), upto]

theorem sum_countOnes (bm : List Word) :
    (bm.map countOnes).sum = (List.range (64 * bm.length)).countP (bit bm) := by
  induction bm with
  | nil => rfl
  | cons w bm ih =>
    have split : 64 * (w :: bm).length = 64 + 64 * bm.length := by
      rw [List.length_cons]
      omega
    have first : (List.range 64).countP (bit (w :: bm)) =
        (List.range 64).countP fun i => w.getLsbD i := by
      refine List.countP_congr fun i member => ?_
      have inside := List.mem_range.mp member
      rw [bit, Nat.div_eq_of_lt inside, Nat.mod_eq_of_lt inside]
      rfl
    have others : (List.range (64 * bm.length)).countP (bit (w :: bm) ∘ (64 + ·)) =
        (List.range (64 * bm.length)).countP (bit bm) := by
      refine List.countP_congr fun i _ => ?_
      rw [Function.comp_apply, bit, Nat.add_div_left i (by omega), Nat.add_mod_left]
      rfl
    rw [List.map_cons, List.sum_cons, ih, countOnes_eq_countP, split, List.range_add,
      List.countP_append, List.countP_map, first, others]

end Bitmap
