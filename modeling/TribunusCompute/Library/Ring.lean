import Mathlib.Data.List.Basic
import Mathlib.Data.Nat.ModEq

/-!
# Ring buffers over lists

Writing at a position that wraps around, reading from a position that wraps
around, and the relation between a ring and the stream written to it: each of
the last elements of the stream sits at its index modulo the size of the ring.
-/
namespace Ring

variable {α : Type*}

/-- Replace the elements from `start` on by `ys`. -/
def overwrite (xs : List α) (start : ℕ) (ys : List α) : List α :=
  xs.take start ++ ys ++ xs.drop (start + ys.length)

theorem length_overwrite {xs ys : List α} {start : ℕ} (fits : start + ys.length ≤ xs.length) :
    (overwrite xs start ys).length = xs.length := by
  simp only [overwrite, List.length_append, List.length_take, List.length_drop]
  omega

theorem getElem?_overwrite {xs ys : List α} {start : ℕ} (fits : start + ys.length ≤ xs.length)
    (i : ℕ) : (overwrite xs start ys)[i]? =
      if start ≤ i ∧ i < start + ys.length then ys[i - start]? else xs[i]? := by
  have taken : (xs.take start).length = start := by
    rw [List.length_take]
    omega
  rw [overwrite, List.append_assoc, List.getElem?_append, taken]
  rcases Nat.lt_or_ge i start with before | after
  · rw [if_pos before, List.getElem?_take_of_lt before, if_neg (by omega)]
  · rw [if_neg (by omega), List.getElem?_append]
    rcases Nat.lt_or_ge (i - start) ys.length with inside | beyond
    · rw [if_pos inside, if_pos (by omega)]
    · rw [if_neg (by omega), if_neg (by omega), List.getElem?_drop]
      congr 1
      omega

/-- Write `ys` from `pos` on, going on at the front when the end is reached. -/
def write (ring : List α) (pos : ℕ) (ys : List α) : List α :=
  if pos + ys.length ≤ ring.length then overwrite ring pos ys
  else overwrite (overwrite ring pos (ys.take (ring.length - pos))) 0
    (ys.drop (ring.length - pos))

/-- Read `count` elements from `start` on, going on at the front when the end is reached. -/
def read (ring : List α) (start count : ℕ) : List α :=
  if start + count ≤ ring.length then (ring.drop start).take count
  else ring.drop start ++ ring.take (count - (ring.length - start))

theorem length_write {ring ys : List α} {pos : ℕ} (inside : pos < ring.length)
    (fits : ys.length ≤ ring.length) : (write ring pos ys).length = ring.length := by
  unfold write
  split
  next room => exact length_overwrite room
  next wraps =>
    have first : pos + (ys.take (ring.length - pos)).length ≤ ring.length := by
      rw [List.length_take]
      omega
    rw [length_overwrite, length_overwrite first]
    rw [length_overwrite first, List.length_drop]
    omega

theorem add_mod_of_le {size pos offset : ℕ} (inside : pos < size) (short : offset ≤ size) :
    (pos + offset) % size = if pos + offset < size then pos + offset else pos + offset - size := by
  split
  next room => exact Nat.mod_eq_of_lt room
  next wraps => rw [Nat.mod_eq_sub_mod (by omega), Nat.mod_eq_of_lt (by omega)]

theorem getElem?_write {ring ys : List α} {pos : ℕ} (inside : pos < ring.length)
    (fits : ys.length ≤ ring.length) {offset : ℕ} (within : offset < ring.length) :
    (write ring pos ys)[(pos + offset) % ring.length]? =
      if offset < ys.length then ys[offset]? else ring[(pos + offset) % ring.length]? := by
  rw [add_mod_of_le inside within.le]
  unfold write
  split
  next room =>
    -- A write without wrapping covers the offsets up to its length, before the end.
    rw [getElem?_overwrite room]
    rcases Nat.lt_or_ge offset ys.length with covered | kept
    · rw [if_pos (show pos + offset < ring.length by omega), if_pos (by omega), if_pos covered,
        Nat.add_sub_cancel_left]
    · rw [if_neg (Nat.not_lt.mpr kept), if_neg]
      split <;> omega
  next wraps =>
    have first : pos + (ys.take (ring.length - pos)).length ≤ ring.length := by
      rw [List.length_take]
      omega
    have second : 0 + (ys.drop (ring.length - pos)).length ≤
        (overwrite ring pos (ys.take (ring.length - pos))).length := by
      rw [length_overwrite first, List.length_drop]
      omega
    rw [getElem?_overwrite second, getElem?_overwrite first]
    simp only [List.length_drop, List.length_take]
    split
    next before =>
      -- Before the end: the first segment.
      rw [if_neg (by omega), if_pos (by omega), Nat.add_sub_cancel_left,
        List.getElem?_take_of_lt (by omega), if_pos (by omega)]
    next beyond =>
      rcases Nat.lt_or_ge offset ys.length with covered | kept
      · rw [if_pos (by omega), if_pos covered, List.getElem?_drop]
        congr 1
        omega
      · rw [if_neg (by omega), if_neg (by omega), if_neg (by omega)]

theorem getElem?_read {ring : List α} {start count : ℕ} (inside : start < ring.length)
    (fits : count ≤ ring.length) (i : ℕ) :
    (read ring start count)[i]? =
      if i < count then ring[(start + i) % ring.length]? else none := by
  unfold read
  split
  next room =>
    rw [List.getElem?_take, List.getElem?_drop]
    split
    next => rw [Nat.mod_eq_of_lt (by omega)]
    next => rfl
  next wraps =>
    rw [List.getElem?_append, List.length_drop, List.getElem?_drop, List.getElem?_take]
    rcases Nat.lt_or_ge i count with covered | beyond
    · rw [if_pos covered, add_mod_of_le inside (by omega)]
      split
      next => rw [if_pos (by omega)]
      next =>
        rw [if_pos (by omega), if_neg (by omega)]
        congr 1
        omega
    · rw [if_neg (by omega), if_neg (by omega), if_neg (by omega)]

/-- Each of the last elements of the stream is at its index modulo the size of the ring. -/
def Holds (ring stream : List α) : Prop :=
  ∀ i, i < stream.length → stream.length ≤ i + ring.length →
    ring[i % ring.length]? = stream[i]?

namespace Holds

variable {ring stream ys : List α}

/-- Writing at the end of the stream extends the stream. -/
theorem write (holds : Holds ring stream) (positive : 0 < ring.length)
    (fits : ys.length ≤ ring.length) :
    Holds (Ring.write ring (stream.length % ring.length) ys) (stream ++ ys) := by
  have inside := Nat.mod_lt stream.length positive
  intro i before recent
  rw [length_write inside fits] at recent ⊢
  rw [List.length_append] at before recent
  rcases Nat.lt_or_ge i stream.length with old | new
  · -- An old element that stays in the window is not in reach of the write.
    have position : i % ring.length =
        (stream.length % ring.length + (ring.length - (stream.length - i))) % ring.length := by
      rw [Nat.mod_add_mod]
      conv_rhs => rw [show stream.length + (ring.length - (stream.length - i)) = i + ring.length by
        omega]
      rw [Nat.add_mod_right]
    rw [position, getElem?_write inside fits (by omega), if_neg (by omega), ← position,
      List.getElem?_append_left old]
    exact holds i old (by omega)
  · have position : i % ring.length =
        (stream.length % ring.length + (i - stream.length)) % ring.length := by
      rw [Nat.mod_add_mod, Nat.add_sub_cancel' new]
    rw [position, getElem?_write inside fits (by omega), if_pos (by omega),
      List.getElem?_append_right new]

/-- Reading from the oldest surviving element gives the end of the stream. -/
theorem read (holds : Holds ring stream) (positive : 0 < ring.length) :
    Ring.read ring (if ring.length ≤ stream.length then stream.length % ring.length else 0)
      (min stream.length ring.length) = stream.drop (stream.length - ring.length) := by
  apply List.ext_getElem?
  intro i
  rw [List.getElem?_drop]
  split
  next full =>
    rw [getElem?_read (Nat.mod_lt _ positive) (by omega), Nat.mod_add_mod]
    split
    next covered =>
      rw [← holds _ (by omega) (by omega),
        show stream.length + i = stream.length - ring.length + i + ring.length by omega,
        Nat.add_mod_right]
    next beyond => rw [List.getElem?_eq_none (by omega)]
  next filling =>
    rw [getElem?_read positive (by omega), Nat.zero_add,
      show stream.length - ring.length + i = i by omega]
    split
    next covered => exact holds i (by omega) (by omega)
    next beyond => rw [List.getElem?_eq_none (by omega)]

theorem first (fits : ys.length ≤ ring.length) : Holds (overwrite ring 0 ys) ys := by
  intro i before recent
  rw [length_overwrite (by omega), Nat.mod_eq_of_lt (by omega), getElem?_overwrite (by omega),
    if_pos (by omega), Nat.sub_zero]

end Holds

end Ring
