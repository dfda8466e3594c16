import Mathlib.Data.List.Sort

/-!
# Binary search

Search a list sorted by distinct keys for the element with a given key.
-/
namespace BinarySearch

variable {α κ : Type*} [LinearOrder κ] (key : α → κ) (k : κ) (xs : List α)

/-- Search the positions from `lo` up to `hi`. -/
def search (lo hi : ℕ) : Option ℕ :=
  if _inside : lo < hi then
    let mid := lo + (hi - lo) / 2
    match xs[mid]? with
    | none => none
    | some x =>
      match compare (key x) k with
      | .eq => some mid
      | .lt => search (mid + 1) hi
      | .gt => search lo mid
  else none
termination_by hi - lo

variable {key k xs}

/-- The search finds the position of the key, if it is in reach. -/
theorem search_eq_some_iff (sorted : xs.Pairwise fun a b => key a < key b) (lo : ℕ) {hi i : ℕ}
    (bound : hi ≤ xs.length) :
    search key k xs lo hi = some i ↔ lo ≤ i ∧ i < hi ∧ ∃ x, xs[i]? = some x ∧ key x = k := by
  have ordered {a b : ℕ} {x y : α} (atA : xs[a]? = some x) (atB : xs[b]? = some y)
      (before : a < b) : key x < key y := by
    obtain ⟨insideA, rfl⟩ := List.getElem?_eq_some_iff.mp atA
    obtain ⟨insideB, rfl⟩ := List.getElem?_eq_some_iff.mp atB
    exact List.pairwise_iff_getElem.mp sorted a b insideA insideB before
  induction lo, hi using search.induct key k xs with
  | case1 lo hi inside mid missing =>
    -- The middle lies between the bounds, and so in the list.
    have there := List.getElem?_eq_none_iff.mp missing
    exact absurd (show mid < xs.length by omega) (by omega)
  | case2 lo hi inside mid x atMid same =>
    have equal : key x = k := compare_eq_iff_eq.mp same
    rw [search, dif_pos inside]
    simp only [show lo + (hi - lo) / 2 = mid from rfl, atMid, same, Option.some.injEq]
    constructor
    · rintro rfl
      exact ⟨by omega, by omega, x, atMid, equal⟩
    · rintro ⟨-, -, y, atI, equal'⟩
      rcases Nat.lt_trichotomy mid i with before | here | after
      · exact absurd (equal.trans equal'.symm) (ordered atMid atI before).ne
      · exact here
      · exact absurd (equal'.trans equal.symm) (ordered atI atMid after).ne
  | case3 lo hi inside mid x atMid below ih =>
    -- What is sorted before the middle has a smaller key still.
    have less : key x < k := compare_lt_iff_lt.mp below
    rw [search, dif_pos inside]
    simp only [show lo + (hi - lo) / 2 = mid from rfl, atMid, below]
    refine (ih bound).trans ?_
    constructor
    · rintro ⟨low, high, found⟩
      exact ⟨by omega, high, found⟩
    · rintro ⟨low, high, y, atI, rfl⟩
      refine ⟨?_, high, y, atI, rfl⟩
      rcases Nat.lt_trichotomy mid i with before | rfl | after
      · exact before
      · exact absurd (Option.some.inj (atMid.symm.trans atI) ▸ less) (lt_irrefl _)
      · exact absurd (ordered atI atMid after) less.not_gt
  | case4 lo hi inside mid x atMid above ih =>
    have greater : k < key x := compare_gt_iff_gt.mp above
    rw [search, dif_pos inside]
    simp only [show lo + (hi - lo) / 2 = mid from rfl, atMid, above]
    refine (ih (by omega)).trans ?_
    constructor
    · rintro ⟨low, high, found⟩
      exact ⟨low, by omega, found⟩
    · rintro ⟨low, high, y, atI, rfl⟩
      refine ⟨low, ?_, y, atI, rfl⟩
      rcases Nat.lt_trichotomy mid i with before | rfl | after
      · exact absurd (ordered atMid atI before) greater.not_gt
      · exact absurd (Option.some.inj (atMid.symm.trans atI) ▸ greater) (lt_irrefl _)
      · exact after
  | case5 lo hi outside =>
    rw [search, dif_neg outside]
    simp only [reduceCtorEq, false_iff]
    omega

end BinarySearch
