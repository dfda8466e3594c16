import Mathlib.Data.ZMod.Basic
import TribunusCompute.Library.Butterfly
import TribunusCompute.TurboQuant.Transforms

/-!
# The Hadamard transform undoes itself

The transform over any arithmetic, of which the one on floats is an instance. Over a commutative
ring its loops are a butterfly network, so that in exact arithmetic a second transform gives back
the vector.
-/
namespace TribunusCompute.TurboQuant

open Butterfly

/-! ## The transform over any arithmetic -/

structure TransformOps (R : Type*) where
  add : R → R → R
  sub : R → R → R
  mul : R → R → R
  invSqrt2 : R

section

variable {R : Type*} (ops : TransformOps R)

def butterflyOver (len i : ℕ) (data : List R) (j : ℕ) : Option (List R) := do
  let a ← data[i + j]?
  let b ← data[i + j + len]?
  let data := data.set (i + j) (ops.mul (ops.add a b) ops.invSqrt2)
  return data.set (i + j + len) (ops.mul (ops.sub a b) ops.invSqrt2)

/-- One stage, over the blocks at the multiples of `2 * len`. -/
def stageOver (n len : ℕ) (data : List R) : Option (List R) :=
  let step := len * 2
  (List.range ((n + step - 1) / step)).foldlM (fun data block =>
    (List.range len).foldlM (butterflyOver ops len (block * step)) data) data

/-- The stages from `len` on, which is never zero. -/
def stagesOver (n len : ℕ) (data : List R) : Option (List R) := do
  if 0 < len ∧ len < n then
    let data ← stageOver ops n len data
    stagesOver n (len * 2) data
  else return data
termination_by n - len

/-- The transform; nothing where the length is no power of two. -/
def fastHadamardTransformOver (data : List R) : Option (List R) := do
  let n := data.length
  if n.isPowerOfTwo then stagesOver ops n 1 data else none

end

/-! ## The transform on floats is an instance -/

def FloatOps.transformOps (ops : FloatOps) : TransformOps UInt32 where
  add := ops.add
  sub := ops.sub
  mul := ops.mul
  invSqrt2 := invSqrt2 ops

section

variable {α β : Type}

theorem toOption_bind (x : Outcome α) (f : α → Outcome β) :
    (x >>= f).toOption = x.toOption.bind fun a => (f a).toOption := by
  cases x <;> rfl

theorem toOption_foldlM {turn : β → α → Outcome β} {turn' : β → α → Option β}
    (same : ∀ s a, (turn s a).toOption = turn' s a) (as : List α) (s : β) :
    (as.foldlM turn s).toOption = as.foldlM turn' s := by
  induction as generalizing s with
  | nil => rfl
  | cons a as ih =>
    rw [List.foldlM_cons, List.foldlM_cons, toOption_bind, same]
    exact congrArg (turn' s a).bind (funext ih)

variable (ops : FloatOps)

theorem toOption_at (data : List UInt32) (i : ℕ) : (at_ data i).toOption = data[i]? := by
  unfold at_
  cases data[i]? <;> rfl

theorem toOption_butterfly (len i : ℕ) (data : List UInt32) (j : ℕ) :
    (butterfly ops len i data j).toOption = butterflyOver ops.transformOps len i data j := by
  unfold butterfly butterflyOver
  rw [toOption_bind, toOption_at]
  refine congrArg (Option.bind _) (funext fun a => ?_)
  rw [toOption_bind, toOption_at]
  rfl

theorem toOption_hadamardStage (n len : ℕ) (data : List UInt32) :
    (hadamardStage ops n len data).toOption = stageOver ops.transformOps n len data :=
  toOption_foldlM (fun s block =>
    toOption_foldlM (toOption_butterfly ops len (block * (len * 2))) _ s) _ data

theorem toOption_hadamardStages (n len : ℕ) (data : List UInt32) :
    (hadamardStages ops n len data).toOption = stagesOver ops.transformOps n len data := by
  induction left : n - len using Nat.strongRecOn generalizing len data with
  | ind left ih =>
    rw [hadamardStages, stagesOver]
    -- both loops go on under the same condition, and then from the doubled length
    by_cases more : 0 < len ∧ len < n
    · rw [if_pos more, if_pos more, toOption_bind, toOption_hadamardStage]
      refine congrArg (Option.bind _) (funext fun next => ?_)
      exact ih _ (by omega) (len * 2) next rfl
    · rw [if_neg more, if_neg more]
      rfl

theorem toOption_fastHadamardTransform (data : List UInt32) :
    (fastHadamardTransform ops data).toOption =
      fastHadamardTransformOver ops.transformOps data := by
  unfold fastHadamardTransform fastHadamardTransformOver
  by_cases power : data.length.isPowerOfTwo
  · simp only [Outcome.assert, if_pos power]
    exact toOption_hadamardStages ops data.length 1 data
  · simp only [Outcome.assert, if_neg power]
    rfl

end

/-! ## A stage in place -/

def ringOps {R : Type*} [CommRing R] (s : R) : TransformOps R where
  add := (· + ·)
  sub := (· - ·)
  mul := (· * ·)
  invSqrt2 := s

/-- The list has the values of a vector at the positions below its length. -/
structure Represents {R : Type*} (n : ℕ) (data : List R) (v : ℕ → R) : Prop where
  length : data.length = n
  at_ : ∀ p < n, data[p]? = some (v p)

/-- The position is one that the butterflies before `j` of block `b` have written. -/
def Written (half b j p : ℕ) : Prop :=
  p / (half * 2) < b ∨ p / (half * 2) = b ∧ p % half < j

section

variable {half b j p : ℕ}

theorem written_succ (below : j < half) :
    Written half b (j + 1) p ↔
      Written half b j p ∨ p = half * (2 * b) + j ∨ p = half * (2 * b + 1) + j := by
  have positive : 0 < half := by omega
  have quotient : p / (half * 2) = p / half / 2 := (Nat.div_div_eq_div_mul p half 2).symm
  have split := Nat.div_add_mod p half
  have short := Nat.mod_lt p positive
  -- a position is given by its half block and its place in it
  have place : ∀ q, p = half * q + j ↔ p / half = q ∧ p % half = j := by
    intro q
    constructor
    · rintro rfl
      rw [Nat.mul_add_div positive, Nat.div_eq_of_lt below, Nat.mul_add_mod,
        Nat.mod_eq_of_lt below]
      exact ⟨Nat.add_zero q, rfl⟩
    · rintro ⟨rfl, rfl⟩
      exact split.symm
  unfold Written
  rw [quotient, place, place]
  omega

/-- The butterflies write each position once. -/
theorem not_written (below : j < half) (here : p = half * (2 * b) + j ∨ p = half * (2 * b + 1) + j) :
    ¬Written half b j p := by
  have positive : 0 < half := by omega
  have place : ∀ q, q / 2 = b → (half * q + j) / (half * 2) = b ∧ (half * q + j) % half = j := by
    intro q of
    rw [← Nat.div_div_eq_div_mul, Nat.mul_add_div positive, Nat.div_eq_of_lt below, Nat.add_zero,
      Nat.mul_add_mod, Nat.mod_eq_of_lt below]
    exact ⟨of, rfl⟩
  unfold Written
  rcases here with rfl | rfl
  · obtain ⟨quotient, rest⟩ := place (2 * b) (by omega)
    rw [quotient, rest]
    omega
  · obtain ⟨quotient, rest⟩ := place (2 * b + 1) (by omega)
    rw [quotient, rest]
    omega

theorem written_block (positive : 0 < half) : Written half b half p ↔ Written half (b + 1) 0 p := by
  have short := Nat.mod_lt p positive
  unfold Written
  omega

instance : Decidable (Written half b j p) := inferInstanceAs (Decidable (_ ∨ _))

theorem not_written_first (p : ℕ) : ¬Written half 0 0 p := by
  rintro (before | ⟨-, before⟩)
  · exact Nat.not_lt_zero _ before
  · exact Nat.not_lt_zero _ before

theorem written_all {blocks : ℕ} (inside : p < blocks * (half * 2)) : Written half blocks 0 p :=
  .inl (Nat.div_lt_of_lt_mul (by rwa [Nat.mul_comm] at inside))

end

theorem foldlM_range_total {σ : Type*} (count : ℕ) {turn : σ → ℕ → Option σ} (kept : ℕ → σ → Prop)
    (one : ∀ t < count, ∀ s, kept t s → ∃ s', turn s t = some s' ∧ kept (t + 1) s') {s : σ}
    (start : kept 0 s) :
    ∃ s', (List.range count).foldlM turn s = some s' ∧ kept count s' := by
  induction count with
  | zero => exact ⟨s, rfl, start⟩
  | succ count ih =>
    obtain ⟨middle, before, keeps⟩ := ih fun t below => one t (Nat.lt_succ_of_lt below)
    obtain ⟨s', last, done⟩ := one count (Nat.lt_succ_self count) middle keeps
    refine ⟨s', ?_, done⟩
    rw [List.range_succ, List.foldlM_append, before]
    simpa using last

section

variable {R : Type*} [CommRing R] {s : R} {n k : ℕ} {data : List R} {v : ℕ → R}

/-- In the middle of a stage: new values where a butterfly has been, old ones elsewhere. -/
def midStage (s : R) (k : ℕ) (v : ℕ → R) (b j p : ℕ) : R :=
  if Written (2 ^ k) b j p then stage s k v p else v p

/-- A butterfly reads two old values and writes the two new ones. -/
theorem butterflyOver_step {b j : ℕ} (below : j < 2 ^ k) (inside : 2 ^ k * (2 * b + 1) + j < n)
    (mid : Represents n data (midStage s k v b j)) :
    ∃ out, butterflyOver (ringOps s) (2 ^ k) (b * (2 ^ k * 2)) data j = some out ∧
      Represents n out (midStage s k v b (j + 1)) := by
  have low : b * (2 ^ k * 2) + j = 2 ^ k * (2 * b) + j := by ring
  have high : b * (2 ^ k * 2) + j + 2 ^ k = 2 ^ k * (2 * b + 1) + j := by ring
  have order : 2 ^ k * (2 * b) + j < 2 ^ k * (2 * b + 1) + j := by
    have := Nat.two_pow_pos k
    rw [← low, ← high]
    omega
  -- neither position has been written yet
  have a := mid.at_ _ (Nat.lt_trans order inside)
  have c := mid.at_ _ inside
  rw [midStage, if_neg (not_written below (.inl rfl))] at a
  rw [midStage, if_neg (not_written below (.inr rfl))] at c
  -- the lower position has the bit clear, the upper one has it set
  have sum : stage s k v (2 ^ k * (2 * b) + j) =
      (v (2 ^ k * (2 * b) + j) + v (2 ^ k * (2 * b + 1) + j)) * s := by
    rw [stage, testBit_low b below, if_neg (by decide), flipBit_low b below]
  have difference : stage s k v (2 ^ k * (2 * b + 1) + j) =
      (v (2 ^ k * (2 * b) + j) - v (2 ^ k * (2 * b + 1) + j)) * s := by
    rw [stage, testBit_high b below, if_pos rfl, ← flipBit_low b below, flipBit_flipBit]
  refine ⟨(data.set (2 ^ k * (2 * b) + j)
      ((v (2 ^ k * (2 * b) + j) + v (2 ^ k * (2 * b + 1) + j)) * s)).set
    (2 ^ k * (2 * b + 1) + j)
      ((v (2 ^ k * (2 * b) + j) - v (2 ^ k * (2 * b + 1) + j)) * s), ?_, ?_, ?_⟩
  · unfold butterflyOver
    rw [high, low, a]
    simp only [Option.bind_eq_bind, Option.bind_some]
    rw [c]
    rfl
  · rw [List.length_set, List.length_set, mid.length]
  · intro p below_n
    have whole := mid.length
    by_cases upper : p = 2 ^ k * (2 * b + 1) + j
    · subst upper
      rw [List.getElem?_set_self (by rw [List.length_set]; omega), midStage,
        if_pos ((written_succ below).mpr (.inr (.inr rfl))), difference]
    · rw [List.getElem?_set_ne (Ne.symm upper)]
      by_cases lower : p = 2 ^ k * (2 * b) + j
      · subst lower
        rw [List.getElem?_set_self (by omega), midStage,
          if_pos ((written_succ below).mpr (.inr (.inl rfl))), sum]
      · -- the other positions are as written as before
        rw [List.getElem?_set_ne (Ne.symm lower), mid.at_ p below_n]
        have same : Written (2 ^ k) b (j + 1) p ↔ Written (2 ^ k) b j p := by
          rw [written_succ below]
          simp [upper, lower]
        simp only [midStage, same]

theorem stageOver_represents {blocks : ℕ} (tiled : n = blocks * (2 ^ k * 2))
    (old : Represents n data v) :
    ∃ out, stageOver (ringOps s) n (2 ^ k) data = some out ∧ Represents n out (stage s k v) := by
  have positive := Nat.two_pow_pos k
  have count : (n + 2 ^ k * 2 - 1) / (2 ^ k * 2) = blocks := by
    rw [tiled, Nat.add_sub_assoc (by omega), Nat.mul_comm blocks, Nat.mul_add_div (by omega),
      Nat.div_eq_of_lt (by omega), Nat.add_zero]
  have start : Represents n data (midStage s k v 0 0) := by
    refine ⟨old.length, fun p inside => ?_⟩
    rw [midStage, if_neg (not_written_first p), old.at_ p inside]
  unfold stageOver
  simp only [count]
  -- the outer loop over the blocks, and the inner one over the butterflies of a block
  obtain ⟨out, done, new⟩ := foldlM_range_total blocks (fun b out =>
    Represents n out (midStage s k v b 0)) (by
      intro b below out mid
      obtain ⟨next, blockDone, written⟩ := foldlM_range_total (2 ^ k) (fun j out =>
        Represents n out (midStage s k v b j)) (by
          intro j inside out mid
          have room : (b + 1) * (2 ^ k * 2) ≤ blocks * (2 ^ k * 2) := Nat.mul_le_mul_right _ below
          have last : 2 ^ k * (2 * b + 1) + j < (b + 1) * (2 ^ k * 2) := by
            have same : (b + 1) * (2 ^ k * 2) = 2 ^ k * (2 * b + 1) + 2 ^ k := by ring
            omega
          exact butterflyOver_step inside (by omega) mid) mid
      refine ⟨next, blockDone, written.length, fun p inside => ?_⟩
      rw [written.at_ p inside]
      simp only [midStage, written_block positive]) start
  refine ⟨out, done, new.length, fun p inside => ?_⟩
  rw [new.at_ p inside, midStage, if_pos (written_all (tiled ▸ inside))]

/-- The stages from bit `k` on are a butterfly network. -/
theorem stagesOver_represents {m : ℕ} (below : k ≤ m) (old : Represents (2 ^ m) data v) :
    ∃ out, stagesOver (ringOps s) (2 ^ m) (2 ^ k) data = some out ∧
      Represents (2 ^ m) out (stages s k (m - k) v) := by
  induction rest : m - k generalizing k data v with
  | zero =>
    have last : k = m := by omega
    rw [stagesOver, last, if_neg (by simp)]
    exact ⟨data, rfl, old⟩
  | succ rest ih =>
    have later : k < m := by omega
    have smaller : 2 ^ k < 2 ^ m := Nat.pow_lt_pow_right (by decide) later
    have tiled : 2 ^ m = 2 ^ (m - (k + 1)) * (2 ^ k * 2) := by
      rw [← Nat.pow_succ, ← Nat.pow_add, Nat.sub_add_cancel later]
    -- induction on the stages left: this one, and the rest from the next bit
    obtain ⟨middle, one, new⟩ := stageOver_represents (s := s) tiled old
    obtain ⟨out, others, done⟩ := ih later new (by omega)
    rw [Nat.pow_succ] at others
    rw [stagesOver, if_pos ⟨Nat.two_pow_pos k, smaller⟩, one]
    exact ⟨out, others, done⟩

theorem fastHadamardTransformOver_represents {m : ℕ} (old : Represents (2 ^ m) data v) :
    ∃ out, fastHadamardTransformOver (ringOps s) data = some out ∧
      Represents (2 ^ m) out (stages s 0 m v) := by
  obtain ⟨out, done, new⟩ := stagesOver_represents (s := s) (Nat.zero_le m) old
  refine ⟨out, ?_, new⟩
  unfold fastHadamardTransformOver
  simp only [old.length]
  rw [if_pos ⟨m, rfl⟩]
  exact done

/-- A list represents its entries, and no other list of its length does. -/
theorem represents_getD (data : List R) : Represents data.length data (data.getD · 0) := by
  refine ⟨rfl, fun p inside => ?_⟩
  simp [List.getD_eq_getElem?_getD, inside]

omit [CommRing R] in
theorem Represents.unique {left right : List R} (first : Represents n left v)
    (second : Represents n right v) : left = right := by
  apply List.ext_getElem?
  intro p
  rcases Nat.lt_or_ge p n with inside | beyond
  · rw [first.at_ p inside, second.at_ p inside]
  · rw [List.getElem?_eq_none (first.length ▸ beyond),
      List.getElem?_eq_none (second.length ▸ beyond)]


end

/-- Transforming twice gives back every vector whose length is a power of two. -/
theorem fastHadamardTransformOver_twice {R : Type*} [CommRing R] (s : R) (half : 2 * s * s = 1)
    (data : List R) (power : data.length.isPowerOfTwo) :
    ∃ once, fastHadamardTransformOver (ringOps s) data = some once ∧
      fastHadamardTransformOver (ringOps s) once = some data := by
  obtain ⟨m, size⟩ := power
  have old := represents_getD data
  rw [size] at old
  obtain ⟨once, first, middle⟩ := fastHadamardTransformOver_represents (s := s) old
  obtain ⟨twice, second, new⟩ := fastHadamardTransformOver_represents (s := s) middle
  rw [stages_stages half] at new
  rw [new.unique old] at second
  exact ⟨once, first, second⟩

/-- Two is a half of its own inverse modulo seven. -/
theorem four_residues_twice :
    ∃ once, fastHadamardTransformOver (ringOps (2 : ZMod 7)) [1, 2, 3, 4] = some once ∧
      fastHadamardTransformOver (ringOps (2 : ZMod 7)) once = some [1, 2, 3, 4] :=
  fastHadamardTransformOver_twice 2 (by decide) [1, 2, 3, 4] ⟨2, rfl⟩

end TribunusCompute.TurboQuant
