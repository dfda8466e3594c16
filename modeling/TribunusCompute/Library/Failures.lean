import Mathlib.Data.List.Forall2

/-!
# Computations that can fail

What a composition or a traversal fails with: the error of its first part that fails, when
everything before it has succeeded.
-/
namespace Failures

universe u v w

variable {ε : Type u} {α β : Type v}

theorem bind_ok {x : Except ε α} {f : α → Except ε β} {result : β}
    (done : x >>= f = .ok result) : ∃ a, x = .ok a ∧ f a = .ok result := by
  cases x with
  | error e => cases done
  | ok a => exact ⟨a, rfl, done⟩

theorem bind_error {x : Except ε α} {f : α → Except ε β} {e : ε} :
    x >>= f = .error e ↔ x = .error e ∨ ∃ a, x = .ok a ∧ f a = .error e := by
  cases x with
  | error e' => simp [bind, Except.bind]
  | ok a => simp [bind, Except.bind]

theorem map_error {x : Except ε α} {f : α → β} {e : ε} : f <$> x = .error e ↔ x = .error e := by
  cases x with
  | error e' => simp [Functor.map, Except.map]
  | ok a => simp [Functor.map, Except.map]

/-! ## Traversals -/

section
variable {γ : Type w} {f : γ → Except ε β} {xs : List γ}

theorem mapM_ok {ys : List β} (each : List.Forall₂ (fun x y => f x = .ok y) xs ys) :
    xs.mapM f = .ok ys := by
  induction each with
  | nil => rfl
  | cons here _ ih =>
    rw [List.mapM_cons, here, ih]
    rfl

theorem mapM_congr {g : γ → Except ε β} (same : ∀ x ∈ xs, f x = g x) : xs.mapM f = xs.mapM g := by
  induction xs with
  | nil => rfl
  | cons x xs ih =>
    rw [List.mapM_cons, List.mapM_cons, same x List.mem_cons_self,
      ih fun y member => same y (List.mem_cons_of_mem _ member)]

/-- A traversal stops at the first element that fails. -/
theorem mapM_error {e : ε} :
    xs.mapM f = .error e ↔ ∃ front x back, xs = front ++ x :: back ∧
      (∀ earlier ∈ front, ∃ y, f earlier = .ok y) ∧ f x = .error e := by
  induction xs with
  | nil => simp [pure, Except.pure]
  | cons x xs ih =>
    rw [List.mapM_cons]
    simp only [bind_error, pure, Except.pure, reduceCtorEq, and_false, exists_false, or_false]
    constructor
    · rintro (failed | ⟨y, passed, more⟩)
      · exact ⟨[], x, xs, rfl, by simp, failed⟩
      · obtain ⟨front, x', back, rfl, before, failed⟩ := ih.mp more
        refine ⟨x :: front, x', back, rfl, ?_, failed⟩
        intro earlier member
        rcases List.mem_cons.mp member with rfl | later
        · exact ⟨y, passed⟩
        · exact before earlier later
    · rintro ⟨front, x', back, whole, before, failed⟩
      cases front with
      | nil =>
        cases whole
        exact .inl failed
      | cons first front =>
        cases whole
        obtain ⟨y, passed⟩ := before x List.mem_cons_self
        exact .inr ⟨y, passed, ih.mpr ⟨front, x', back, rfl,
          fun earlier member => before earlier (List.mem_cons_of_mem _ member), failed⟩⟩

/-- A loop stops in the first turn that fails, with the state that the turns before have led
to. -/
theorem foldlM_error {turn : β → γ → Except ε β} {b : β} {e : ε} :
    xs.foldlM turn b = .error e ↔ ∃ front x back b', xs = front ++ x :: back ∧
      front.foldlM turn b = .ok b' ∧ turn b' x = .error e := by
  induction xs generalizing b with
  | nil => simp [pure, Except.pure]
  | cons x xs ih =>
    rw [List.foldlM_cons, bind_error]
    constructor
    · rintro (failed | ⟨b', passed, more⟩)
      · exact ⟨[], x, xs, b, rfl, rfl, failed⟩
      · obtain ⟨front, x', back, b'', rfl, before, failed⟩ := ih.mp more
        refine ⟨x :: front, x', back, b'', rfl, ?_, failed⟩
        rw [List.foldlM_cons, passed]
        exact before
    · rintro ⟨front, x', back, b'', whole, before, failed⟩
      cases front with
      | nil =>
        cases whole
        cases before
        exact .inl failed
      | cons first front =>
        cases whole
        rw [List.foldlM_cons] at before
        obtain ⟨b', passed, more⟩ := bind_ok before
        exact .inr ⟨b', passed, ih.mpr ⟨front, x', back, b'', rfl, more, failed⟩⟩

end

end Failures
