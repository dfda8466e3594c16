import TribunusCompute.Grammar.Parse

/-!
# Where a text may be cut

`&s[a..b]` counts bytes: it is there when both ends are boundaries of characters. What
each scanner cuts is set down as a set of positions, so that a scan panics when one of
them is no boundary.
-/
namespace TribunusCompute.Gbnf

@[simp]
theorem byteLength_nil : byteLength [] = 0 := rfl

@[simp]
theorem byteLength_cons (ch : Char) (s : List Char) :
    byteLength (ch :: s) = ch.utf8Size + byteLength s := by
  have from_ (n : ℕ) : s.foldl (fun n ch => n + ch.utf8Size) n = n + byteLength s := by
    rw [byteLength]
    induction s generalizing n with
    | nil => rfl
    | cons ch s ih =>
      simp only [List.foldl_cons, Nat.zero_add]
      rw [ih (n + ch.utf8Size), ih ch.utf8Size, Nat.add_assoc]
  rw [byteLength, List.foldl_cons, Nat.zero_add, from_]

theorem byteLength_append (s t : List Char) :
    byteLength (s ++ t) = byteLength s + byteLength t := by
  induction s with
  | nil => simp
  | cons ch s ih => simp [ih, Nat.add_assoc]

/-- `str::is_char_boundary`: after so many bytes a character of the text starts, or it ends. -/
def IsCharBoundary (s : List Char) (n : ℕ) : Prop :=
  ∃ front back, s = front ++ back ∧ byteLength front = n

theorem isCharBoundary_zero (s : List Char) : IsCharBoundary s 0 := ⟨[], s, rfl, rfl⟩

theorem isCharBoundary_cons {ch : Char} {s : List Char} {n : ℕ} (some_ : n ≠ 0) :
    IsCharBoundary (ch :: s) n ↔ ch.utf8Size ≤ n ∧ IsCharBoundary s (n - ch.utf8Size) := by
  constructor
  · rintro ⟨front, back, whole, rfl⟩
    cases front with
    -- only at 0 is there nothing before the boundary
    | nil => exact absurd byteLength_nil some_
    | cons first front =>
      cases whole
      rw [byteLength_cons, Nat.add_sub_cancel_left]
      exact ⟨Nat.le_add_right _ _, front, back, rfl, rfl⟩
  · rintro ⟨fits, front, back, rfl, rest⟩
    exact ⟨ch :: front, back, rfl, by rw [byteLength_cons, rest]; omega⟩

/-! ## Slices -/

theorem sliceFrom_append (front back : List Char) :
    sliceFrom (byteLength front) (front ++ back) = .ok back := by
  induction front with
  | nil => rw [byteLength_nil, sliceFrom, List.nil_append]
  | cons ch front ih =>
    have pos := ch.utf8Size_pos
    obtain ⟨n, size⟩ := Nat.exists_eq_succ_of_ne_zero (n := byteLength (ch :: front))
      (by rw [byteLength_cons]; omega)
    have after : n + 1 - ch.utf8Size = byteLength front := by rw [byteLength_cons] at size; omega
    rw [size, List.cons_append, sliceFrom, if_pos (by rw [byteLength_cons] at size; omega), after]
    exact ih

theorem sliceTo_append (front back : List Char) :
    sliceTo (byteLength front) (front ++ back) = .ok front := by
  induction front with
  | nil => rw [byteLength_nil, sliceTo]
  | cons ch front ih =>
    have pos := ch.utf8Size_pos
    obtain ⟨n, size⟩ := Nat.exists_eq_succ_of_ne_zero (n := byteLength (ch :: front))
      (by rw [byteLength_cons]; omega)
    have after : n + 1 - ch.utf8Size = byteLength front := by rw [byteLength_cons] at size; omega
    rw [size, List.cons_append, sliceTo, if_pos (by rw [byteLength_cons] at size; omega), after, ih]
    rfl

theorem sliceFrom_panic {s : List Char} {n : ℕ} (inside : ¬ IsCharBoundary s n) :
    sliceFrom n s = .error .panic := by
  induction s generalizing n with
  | nil =>
    cases n with
    | zero => exact absurd (isCharBoundary_zero []) inside
    | succ n => rfl
  | cons ch s ih =>
    cases n with
    | zero => exact absurd (isCharBoundary_zero _) inside
    | succ n =>
      rw [isCharBoundary_cons (Nat.succ_ne_zero n), not_and] at inside
      rw [sliceFrom]
      -- behind the first character the position is inside as well, or it is inside this one
      split
      next fits => exact ih (inside fits)
      next => rfl

theorem sliceTo_panic {s : List Char} {n : ℕ} (inside : ¬ IsCharBoundary s n) :
    sliceTo n s = .error .panic := by
  induction s generalizing n with
  | nil =>
    cases n with
    | zero => exact absurd (isCharBoundary_zero []) inside
    | succ n => rfl
  | cons ch s ih =>
    cases n with
    | zero => exact absurd (isCharBoundary_zero _) inside
    | succ n =>
      rw [isCharBoundary_cons (Nat.succ_ne_zero n), not_and] at inside
      rw [sliceTo]
      split
      next fits => rw [ih (inside fits)]; rfl
      next => rfl

theorem sliceFrom_cases (s : List Char) (n : ℕ) :
    (IsCharBoundary s n ∧ ∃ part, sliceFrom n s = .ok part) ∨
      (¬ IsCharBoundary s n ∧ sliceFrom n s = .error .panic) := by
  by_cases boundary : IsCharBoundary s n
  · obtain ⟨front, back, whole, size⟩ := id boundary
    subst whole size
    exact .inl ⟨boundary, back, sliceFrom_append front back⟩
  · exact .inr ⟨boundary, sliceFrom_panic boundary⟩

instance (s : List Char) (n : ℕ) : Decidable (IsCharBoundary s n) :=
  match cut : sliceFrom n s with
  | .ok _ => isTrue (by
      by_contra inside
      rw [sliceFrom_panic inside] at cut
      cases cut)
  | .error _ => isFalse (by
      rintro ⟨front, back, rfl, rfl⟩
      rw [sliceFrom_append] at cut
      cases cut)

theorem slice_cases (s : List Char) {start stop : ℕ} (ordered : start ≤ stop) :
    ((IsCharBoundary s start ∧ IsCharBoundary s stop) ∧ ∃ part, slice s start stop = .ok part) ∨
      (¬ (IsCharBoundary s start ∧ IsCharBoundary s stop) ∧
        slice s start stop = .error .panic) := by
  rw [slice, if_pos ordered]
  by_cases boundary : IsCharBoundary s start
  · obtain ⟨front, back, rfl, rfl⟩ := id boundary
    have rest : IsCharBoundary (front ++ back) stop ↔
        IsCharBoundary back (stop - byteLength front) := by
      constructor
      · rintro ⟨front', back', whole, rfl⟩
        -- the longer of two front parts of one text starts with the shorter one
        rcases List.append_eq_append_iff.mp whole with ⟨mid, rfl, rfl⟩ | ⟨mid, rfl, rfl⟩
        · exact ⟨mid, back', rfl, by rw [byteLength_append, Nat.add_sub_cancel_left]⟩
        · exact ⟨[], back, rfl, by rw [byteLength_append, byteLength_nil]; omega⟩
      · rintro ⟨mid, back', rfl, size⟩
        exact ⟨front ++ mid, back', by simp, by rw [byteLength_append]; omega⟩
    simp only [sliceFrom_append, bind, Except.bind, boundary, true_and, rest]
    by_cases boundary' : IsCharBoundary back (stop - byteLength front)
    · obtain ⟨mid, back', whole, size⟩ := id boundary'
      subst whole
      rw [← size] at boundary' ⊢
      exact .inl ⟨boundary', mid, sliceTo_append mid back'⟩
    · exact .inr ⟨boundary', sliceTo_panic boundary'⟩
  · rw [sliceFrom_panic boundary]
    exact .inr ⟨fun both => boundary both.1, rfl⟩

end TribunusCompute.Gbnf
