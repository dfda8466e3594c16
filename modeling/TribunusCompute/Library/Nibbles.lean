import Mathlib.Tactic.Ring
import Mathlib.Data.List.Induction

/-!
# Words of 4-bit codes

Eight codes to a word, the first in the lowest bits.
-/
namespace Nibbles

def nibble (word i : ℕ) : ℕ := word / 16 ^ i % 16

/-- Put the `i`-th code into its word. -/
def put (words : List ℕ) (code i : ℕ) : List ℕ :=
  words.modify (i / 8) fun word => word ||| (code <<< (i % 8 * 4))

def pack (codes : List ℕ) (count : ℕ) : List ℕ :=
  codes.zipIdx.foldl (fun words code => put words code.1 code.2) (List.replicate count 0)

theorem nibble_add_below {word code i k : ℕ} (below : i < k) :
    nibble (word + code * 16 ^ k) i = nibble word i := by
  obtain ⟨d, rfl⟩ := Nat.exists_eq_add_of_lt below
  have shift : code * 16 ^ (i + d + 1) = 16 ^ i * (16 * (code * 16 ^ d)) := by ring
  rw [nibble, nibble, shift, Nat.add_mul_div_left _ _ (Nat.pow_pos (by decide)),
    Nat.add_mul_mod_self_left]

theorem nibble_add_at {word code k : ℕ} (low : word < 16 ^ k) (small : code < 16) :
    nibble (word + code * 16 ^ k) k = code := by
  rw [nibble, Nat.mul_comm code, Nat.add_mul_div_left _ _ (Nat.pow_pos (by decide)),
    Nat.div_eq_of_lt low, Nat.zero_add, Nat.mod_eq_of_lt small]

theorem or_shift_eq_add {word code k : ℕ} (low : word < 16 ^ k) :
    word ||| (code <<< (k * 4)) = word + code * 16 ^ k := by
  have power : 2 ^ (k * 4) = 16 ^ k := by
    rw [Nat.mul_comm, Nat.pow_mul]
  have low' : word < 2 ^ (k * 4) := power ▸ low
  rw [Nat.or_comm, ← Nat.shiftLeft_add_eq_or_of_lt low', Nat.shiftLeft_eq, power, Nat.add_comm]

/-- The `w`-th word holds the codes from the `8 * w`-th on, as far as they go. -/
structure Holds (codes words : List ℕ) (w word : ℕ) : Prop where
  there : words[w]? = some word
  below : word < 16 ^ min 8 (codes.length - 8 * w)
  codes : ∀ j < 8, ∀ code, codes[8 * w + j]? = some code → nibble word j = code

theorem length_put (words : List ℕ) (code i : ℕ) : (put words code i).length = words.length :=
  List.length_modify ..

theorem holds_put {codes words : List ℕ} {w word code : ℕ} (holds : Holds codes words w word)
    (small : code < 16) :
    ∃ word', Holds (codes ++ [code]) (put words code codes.length) w word' := by
  have here := holds.there
  -- the code goes into this word, or into another one
  by_cases own : codes.length / 8 = w
  · have position : codes.length = 8 * w + codes.length % 8 := by omega
    have filled : min 8 (codes.length - 8 * w) = codes.length % 8 := by omega
    have low := holds.below
    rw [filled] at low
    refine ⟨word + code * 16 ^ (codes.length % 8), ?_, ?_, ?_⟩
    · rw [put, own, List.getElem?_modify_eq, here, ← or_shift_eq_add low]
      rfl
    · have next : min 8 ((codes ++ [code]).length - 8 * w) = codes.length % 8 + 1 := by
        rw [List.length_append, List.length_singleton]
        omega
      have room : code * 16 ^ (codes.length % 8) ≤ 15 * 16 ^ (codes.length % 8) :=
        Nat.mul_le_mul_right _ (by omega)
      rw [next, pow_succ]
      omega
    · intro j inside code' found
      rcases Nat.lt_trichotomy j (codes.length % 8) with before | rfl | after
      · rw [nibble_add_below before]
        apply holds.codes j inside
        rwa [List.getElem?_append_left (by omega)] at found
      · rw [nibble_add_at low small]
        rw [← position, List.getElem?_append_right (Nat.le_refl _), Nat.sub_self] at found
        exact Option.some.inj found
      · rw [List.getElem?_eq_none (by simp; omega)] at found
        cases found
  · refine ⟨word, ?_, ?_, ?_⟩
    · rw [put, List.getElem?_modify_ne _ _ own, here]
    · refine holds.below.trans_le (Nat.pow_le_pow_right (by decide) ?_)
      rw [List.length_append]
      omega
    · intro j inside code' found
      apply holds.codes j inside
      rcases Nat.lt_or_ge (8 * w + j) codes.length with before | after
      · rwa [List.getElem?_append_left before] at found
      · rcases Nat.eq_or_lt_of_le after with same | beyond
        · exact absurd (by omega) own
        · rw [List.getElem?_eq_none (by simp; omega)] at found
          cases found

theorem holds_pack {codes : List ℕ} {count : ℕ} (small : ∀ code ∈ codes, code < 16) {w : ℕ}
    (inside : w < count) : ∃ word, Holds codes (pack codes count) w word := by
  induction codes using List.reverseRecOn with
  | nil =>
    refine ⟨0, ?_, Nat.pow_pos (by decide), by simp⟩
    simp [pack, inside]
  | append_singleton codes code ih =>
    rw [List.forall_mem_append] at small
    obtain ⟨word, holds⟩ := ih small.1
    have step : pack (codes ++ [code]) count = put (pack codes count) code codes.length := by
      simp [pack, List.zipIdx_append, List.foldl_append]
    rw [step]
    exact holds_put holds (small.2 code List.mem_cons_self)

@[simp] theorem length_pack (codes : List ℕ) (count : ℕ) : (pack codes count).length = count := by
  induction codes using List.reverseRecOn with
  | nil => simp [pack]
  | append_singleton codes code ih =>
    have step : pack (codes ++ [code]) count = put (pack codes count) code codes.length := by
      simp [pack, List.zipIdx_append, List.foldl_append]
    rw [step, length_put, ih]

end Nibbles
