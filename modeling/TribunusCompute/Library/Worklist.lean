import TribunusCompute.Library.SortedSet

/-!
# Worklist search

Explore everything reachable from a set through a successor function, with a stack
of the elements whose successors are still to be looked at. Inside a finite set
that is closed under successors its size is enough turns.
-/
namespace Worklist

variable {α : Type*} [LinearOrder α] (next : α → List α)

/-- Record a successor, and stack it if it is new. -/
def push (found : SortedSet α × List α) (y : α) : SortedSet α × List α :=
  if y ∈ found.1 then found else (found.1.insert y, y :: found.2)

/-- Pop until the stack is empty, for at most the given turns. -/
def explore : ℕ → List α → SortedSet α → SortedSet α
  | 0, _, seen => seen
  | _ + 1, [], seen => seen
  | turns + 1, x :: stack, seen =>
    let (seen, stack) := (next x).foldl push (seen, stack)
    explore turns stack seen

/-- `seen` lies inside `U` and is closed under successors, except those of the stack. -/
structure Open (U : Finset α) (stack : List α) (seen : SortedSet α) : Prop where
  inside : ∀ x ∈ seen, x ∈ U
  stacked : ∀ x ∈ stack, x ∈ seen
  closed : ∀ x ∈ seen, x ∉ stack → ∀ y ∈ next x, y ∈ seen

variable {next} {U : Finset α} {stack : List α} {seen : SortedSet α}

/-- Recording successors: what is found, and that the stack grows as the rest of `U` shrinks. -/
theorem foldl_push (ys stack : List α) (inside : ∀ x ∈ seen, x ∈ U) (ysInside : ∀ y ∈ ys, y ∈ U) :
    (∀ z, z ∈ (ys.foldl push (seen, stack)).1 ↔ z ∈ seen ∨ z ∈ ys) ∧
      (∀ z, z ∈ (ys.foldl push (seen, stack)).2 ↔ z ∈ stack ∨ z ∈ ys ∧ z ∉ seen) ∧
      (ys.foldl push (seen, stack)).2.length +
          (U.card - (ys.foldl push (seen, stack)).1.toList.length) =
        stack.length + (U.card - seen.toList.length) := by
  induction ys generalizing seen stack with
  | nil => simp
  | cons y ys ih =>
    rw [List.foldl_cons, push]
    have rest : ∀ z ∈ ys, z ∈ U := fun z member => ysInside z (List.mem_cons_of_mem _ member)
    rcases em (y ∈ seen) with old | new
    · -- A successor seen before is neither recorded nor stacked again.
      rw [if_pos old]
      obtain ⟨found, stacked, measure⟩ := ih stack inside rest
      refine ⟨fun z => ?_, fun z => ?_, measure⟩
      · rw [found, List.mem_cons]
        constructor
        · tauto
        · rintro (there | rfl | there)
          · exact .inl there
          · exact .inl old
          · exact .inr there
      · rw [stacked, List.mem_cons]
        constructor
        · tauto
        · rintro (there | ⟨rfl | there, fresh⟩)
          · exact .inl there
          · exact absurd old fresh
          · exact .inr ⟨there, fresh⟩
    · rw [if_neg new]
      -- a new one is recorded and stacked
      have grown : ∀ x ∈ seen.insert y, x ∈ U := by
        intro x member
        rcases SortedSet.mem_insert.mp member with rfl | there
        · exact ysInside x List.mem_cons_self
        · exact inside x there
      obtain ⟨found, stacked, measure⟩ := ih (y :: stack) grown rest
      refine ⟨fun z => ?_, fun z => ?_, ?_⟩
      · rw [found, SortedSet.mem_insert, List.mem_cons]
        tauto
      · rw [stacked, SortedSet.mem_insert, List.mem_cons, List.mem_cons]
        constructor
        · rintro ((rfl | there) | ⟨there, fresh⟩)
          · exact .inr ⟨.inl rfl, new⟩
          · exact .inl there
          · exact .inr ⟨.inr there, fun old => fresh (.inr old)⟩
        · rintro (there | ⟨rfl | there, fresh⟩)
          · exact .inl (.inr there)
          · exact .inl (.inl rfl)
          · rcases eq_or_ne z y with rfl | apart
            · exact .inl (.inl rfl)
            · exact .inr ⟨there, fun old => old.elim apart fresh⟩
      · -- The stack has one more, and the rest of `U` one less.
        have bound := SortedSet.length_le_card grown
        rw [measure, List.length_cons, SortedSet.length_insert new]
        rw [SortedSet.length_insert new] at bound
        omega

theorem Open.pop {x : α} (open_ : Open next U (x :: stack) seen)
    (closedU : ∀ x ∈ U, ∀ y ∈ next x, y ∈ U) :
    Open next U ((next x).foldl push (seen, stack)).2 ((next x).foldl push (seen, stack)).1 := by
  have atX := open_.inside x (open_.stacked x List.mem_cons_self)
  obtain ⟨found, stacked, -⟩ := foldl_push (next x) stack open_.inside (closedU x atX)
  refine ⟨fun z member => ?_, fun z member => ?_, fun z member off y successor => ?_⟩
  · rcases (found z).mp member with there | there
    · exact open_.inside z there
    · exact closedU x atX z there
  · refine (found z).mpr ?_
    rcases (stacked z).mp member with there | ⟨there, -⟩
    · exact .inl (open_.stacked z (List.mem_cons_of_mem _ there))
    · exact .inr there
  · -- A seen element off the stack is `x` itself, or was off the stack before.
    refine (found y).mpr ?_
    rcases eq_or_ne z x with rfl | apart
    · exact .inr successor
    · have old : z ∈ seen := by
        by_contra fresh
        have there := ((found z).mp member).resolve_left fresh
        exact off ((stacked z).mpr (.inr ⟨there, fresh⟩))
      refine .inl (open_.closed z old (fun there => ?_) y successor)
      rcases List.mem_cons.mp there with same | later
      · exact apart same
      · exact off ((stacked z).mpr (.inl later))

/-- A set closed under successors is all that is reachable from it. -/
theorem mem_iff_reachable (closed : ∀ x ∈ seen, ∀ y ∈ next x, y ∈ seen) (y : α) :
    y ∈ seen ↔ ∃ x ∈ seen, Relation.ReflTransGen (fun a b => b ∈ next a) x y := by
  constructor
  · intro member
    exact ⟨y, member, .refl⟩
  · rintro ⟨x, member, path⟩
    induction path with
    | refl => exact member
    | tail _ edge ih => exact closed _ ih _ edge

/-- With turns for what is stacked and unseen, the search finds exactly what is reachable. -/
theorem mem_explore (closedU : ∀ x ∈ U, ∀ y ∈ next x, y ∈ U) {turns : ℕ}
    (open_ : Open next U stack seen)
    (enough : stack.length + (U.card - seen.toList.length) ≤ turns) (y : α) :
    y ∈ explore next turns stack seen ↔
      ∃ x ∈ seen, Relation.ReflTransGen (fun a b => b ∈ next a) x y := by
  induction turns generalizing stack seen with
  | zero =>
    have empty : stack = [] := List.length_eq_zero_iff.mp (by omega)
    exact mem_iff_reachable (fun x member => open_.closed x member (by simp [empty])) y
  | succ turns ih =>
    cases stack with
    | nil => exact mem_iff_reachable (fun x member => open_.closed x member List.not_mem_nil) y
    | cons x stack =>
      have atX := open_.stacked x List.mem_cons_self
      obtain ⟨found, -, measure⟩ := foldl_push (next x) stack open_.inside
        (closedU x (open_.inside x atX))
      rw [List.length_cons] at enough
      refine (ih (open_.pop closedU) (by omega)).trans ?_
      constructor
      · rintro ⟨z, member, path⟩
        rcases (found z).mp member with there | there
        · exact ⟨z, there, path⟩
        · exact ⟨x, atX, path.head there⟩
      · rintro ⟨z, member, path⟩
        exact ⟨z, (found z).mpr (.inl member), path⟩

end Worklist
