import Mathlib.Data.Matrix.Mul

/-!
# Arrays of two axes

A matrix with its shape, and operations that fail where the shapes do not fit. An axis of length
one is repeated where two arrays are added.
-/

structure Tensor (R : Type*) where
  rows : ℕ
  cols : ℕ
  data : Matrix (Fin rows) (Fin cols) R

namespace Tensor

variable {R : Type*}

def transpose (t : Tensor R) : Tensor R := ⟨t.cols, t.rows, t.data.transpose⟩

/-- The length of an axis of a sum. -/
def broadcastDim (m n : ℕ) : Option ℕ :=
  if m = n then some m else if m = 1 then some n else if n = 1 then some m else none

/-- The array with its axes of length one repeated. -/
def broadcast (t : Tensor R) (rows cols : ℕ) : Option (Matrix (Fin rows) (Fin cols) R) :=
  if fits : (t.rows = 1 ∨ t.rows = rows) ∧ (t.cols = 1 ∨ t.cols = cols) then
    some fun i j => t.data
      ⟨if t.rows = 1 then 0 else i, by have := i.isLt; split <;> omega⟩
      ⟨if t.cols = 1 then 0 else j, by have := j.isLt; split <;> omega⟩
  else none

theorem broadcast_self (m n : ℕ) (x : Matrix (Fin m) (Fin n) R) :
    broadcast ⟨m, n, x⟩ m n = some x := by
  rw [broadcast, dif_pos ⟨.inr rfl, .inr rfl⟩]
  congr 1
  funext i j
  congr 1
  · apply Fin.ext
    change (if m = 1 then 0 else i.val) = i.val
    have := i.isLt
    split <;> omega
  · apply Fin.ext
    change (if n = 1 then 0 else j.val) = j.val
    have := j.isLt
    split <;> omega

section
variable [Add R]

def add (a b : Tensor R) : Option (Tensor R) :=
  match broadcastDim a.rows b.rows, broadcastDim a.cols b.cols with
  | some rows, some cols => do
    let x ← a.broadcast rows cols
    let y ← b.broadcast rows cols
    some ⟨rows, cols, x + y⟩
  | _, _ => none

theorem add_of_broadcast {w d : Tensor R} {y : Matrix (Fin w.rows) (Fin w.cols) R}
    (fits : d.broadcast w.rows w.cols = some y) : w.add d = some ⟨w.rows, w.cols, w.data + y⟩ := by
  have shape : (d.rows = 1 ∨ d.rows = w.rows) ∧ (d.cols = 1 ∨ d.cols = w.cols) := by
    unfold broadcast at fits
    split at fits
    next shape => exact shape
    next => cases fits
  have same {m n : ℕ} (axis : n = 1 ∨ n = m) : broadcastDim m n = some m := by
    unfold broadcastDim
    split_ifs <;> grind
  simp only [add, same shape.1, same shape.2, fits]
  rw [show w.broadcast w.rows w.cols = some w.data from broadcast_self _ _ _]
  rfl

/-- An axis of a sum is as long as that of the first array, unless that one is repeated. -/
theorem broadcastDim_grows {m n k : ℕ} (sum : broadcastDim m n = some k) :
    k = m ∨ m = 1 ∧ k ≠ 1 := by
  unfold broadcastDim at sum
  grind

/-- The shape is the same, but for axes of length one that are now longer. -/
def Grown (w t : Tensor R) : Prop :=
  (t.rows = w.rows ∨ w.rows = 1 ∧ t.rows ≠ 1) ∧ (t.cols = w.cols ∨ w.cols = 1 ∧ t.cols ≠ 1)

omit [Add R] in
theorem Grown.refl (w : Tensor R) : Grown w w := ⟨.inl rfl, .inl rfl⟩

omit [Add R] in
theorem Grown.trans {w t u : Tensor R} (first : Grown w t) (second : Grown t u) : Grown w u := by
  unfold Grown at *
  grind

omit [Add R] in
theorem Grown.antisymm {w t : Tensor R} (there : Grown w t) (back : Grown t w) :
    t.rows = w.rows ∧ t.cols = w.cols := by
  unfold Grown at *
  grind

theorem grown_add {w d t : Tensor R} (sum : w.add d = some t) : Grown w t := by
  unfold add at sum
  split at sum
  next rows cols rows_ cols_ =>
    obtain ⟨x, -, sum⟩ := Option.bind_eq_some_iff.mp sum
    obtain ⟨y, -, sum⟩ := Option.bind_eq_some_iff.mp sum
    obtain rfl := Option.some.inj sum
    exact ⟨broadcastDim_grows rows_, broadcastDim_grows cols_⟩
  next => cases sum

/-- A sum of the shape of the first array has the second repeated to that shape. -/
theorem broadcast_of_add {w d t : Tensor R} (sum : w.add d = some t)
    (same : t.rows = w.rows ∧ t.cols = w.cols) : ∃ y, d.broadcast w.rows w.cols = some y := by
  unfold add at sum
  split at sum
  next rows cols rows_ cols_ =>
    obtain ⟨x, -, sum⟩ := Option.bind_eq_some_iff.mp sum
    obtain ⟨y, fits, sum⟩ := Option.bind_eq_some_iff.mp sum
    obtain rfl := Option.some.inj sum
    obtain ⟨rfl, rfl⟩ := same
    exact ⟨y, fits⟩
  next => cases sum

theorem add_mk (m n : ℕ) (x y : Matrix (Fin m) (Fin n) R) :
    add ⟨m, n, x⟩ ⟨m, n, y⟩ = some ⟨m, n, x + y⟩ := by
  have same (k : ℕ) : broadcastDim k k = some k := if_pos rfl
  simp only [add, same, broadcast_self]
  rfl

end

section
variable [NonUnitalNonAssocSemiring R]

def matmul (x w : Tensor R) : Option (Tensor R) :=
  if fits : x.cols = w.rows then
    some ⟨x.rows, w.cols, x.data * w.data.submatrix (Fin.cast fits) id⟩
  else none

theorem matmul_mk (m k n : ℕ) (x : Matrix (Fin m) (Fin k) R) (w : Matrix (Fin k) (Fin n) R) :
    matmul ⟨m, k, x⟩ ⟨k, n, w⟩ = some ⟨m, n, x * w⟩ := dif_pos rfl

theorem matmul_of_ne {x w : Tensor R} (apart : x.cols ≠ w.rows) : matmul x w = none :=
  dif_neg apart

end

def scale [Mul R] (c : R) (t : Tensor R) : Tensor R := ⟨t.rows, t.cols, c • t.data⟩

/-- A multiple of another array of the same shape on top; the array itself for another shape. -/
def plusTimes [AddMonoid R] (t d : Tensor R) (times : ℕ) : Tensor R :=
  if fits : t.rows = d.rows ∧ t.cols = d.cols then
    ⟨t.rows, t.cols, t.data + times • d.data.submatrix (Fin.cast fits.1) (Fin.cast fits.2)⟩
  else t

section
variable [AddMonoid R] (m n : ℕ) (x d : Matrix (Fin m) (Fin n) R)

theorem plusTimes_mk (times : ℕ) :
    plusTimes ⟨m, n, x⟩ ⟨m, n, d⟩ times = ⟨m, n, x + times • d⟩ := dif_pos ⟨rfl, rfl⟩

theorem plusTimes_zero (t d : Tensor R) : plusTimes t d 0 = t := by
  unfold plusTimes
  split
  next =>
    obtain ⟨rows, cols, data⟩ := t
    simp
  next => rfl

theorem add_plusTimes (times : ℕ) :
    (plusTimes ⟨m, n, x⟩ ⟨m, n, d⟩ times).add ⟨m, n, d⟩ =
      some (plusTimes ⟨m, n, x⟩ ⟨m, n, d⟩ (times + 1)) := by
  rw [plusTimes_mk, plusTimes_mk, add_mk, add_assoc, succ_nsmul]

end

end Tensor
