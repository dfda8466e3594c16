import Mathlib.Data.List.Chain
import Mathlib.Data.List.Count
import Mathlib.Data.List.Nodup
import Mathlib.Data.List.Perm.Basic

/-!
# Lists

The last element of a vector takes the place of a removed one, and nothing else is lost. Where
every element has at most one successor, the path from an element passes all that can be reached
from it. Resources handed out by an allocator are held in lists by their owners; the books
balance while every taken resource is held exactly once and nothing else is held.
-/
namespace Removal

variable {α : Type*} {l : List α} {i : ℕ}

/-- The last element takes the place of the removed one. -/
def swapRemove (l : List α) (i : ℕ) : List α :=
  match l.getLast? with
  | some last => (l.set i last).dropLast
  | none => l

theorem set_dropLast_perm (some_ : l ≠ []) (inside : i < l.length) :
    List.Perm (l[i] :: (l.set i (l.getLast some_)).dropLast) l := by
  obtain ⟨front, last, rfl⟩ : ∃ front last, l = front ++ [last] :=
    ⟨_, _, (List.dropLast_append_getLast some_).symm⟩
  rw [List.length_append, List.length_singleton] at inside
  rw [List.getLast_append_singleton]
  rcases Nat.lt_succ_iff_lt_or_eq.mp inside with before | rfl
  -- Up to order, `last` stands at `i` and the end is gone.
  · rw [List.set_append_left _ _ before, List.dropLast_concat, List.getElem_append_left before]
    have moved : (front[i] :: front.set i last).Perm (front[i] :: last :: front.eraseIdx i) :=
      (List.set_perm_cons_eraseIdx before last).cons _
    have whole : (last :: front[i] :: front.eraseIdx i).Perm (last :: front) :=
      (List.getElem_cons_eraseIdx_perm before).cons _
    exact moved.trans ((List.Perm.swap _ _ _).trans
      (whole.trans (List.perm_append_singleton last front).symm))
  · simp [(List.perm_append_singleton last front).symm]

theorem swapRemove_perm (inside : i < l.length) : List.Perm (l[i] :: swapRemove l i) l := by
  have some_ : l ≠ [] := List.ne_nil_of_length_pos (Nat.zero_lt_of_lt inside)
  rw [swapRemove, List.getLast?_eq_some_getLast some_]
  exact set_dropLast_perm some_ inside

end Removal

namespace Chains

variable {α : Type*} {R : α → α → Prop}

/-- From `a` the relation leads through `l`, and then no further. -/
def LeadsThrough (R : α → α → Prop) : α → List α → Prop
  | a, [] => ∀ b, ¬ R a b
  | a, b :: l => R a b ∧ LeadsThrough R b l

theorem reached_iff (functional : Relator.RightUnique R) {a : α} {l : List α}
    (leads : LeadsThrough R a l) (x : α) : Relation.ReflTransGen R a x ↔ x ∈ a :: l := by
  induction l generalizing a with
  | nil =>
    rw [Relation.ReflTransGen.cases_head_iff, List.mem_singleton]
    constructor
    · rintro (same | ⟨b, next, -⟩)
      · exact same.symm
      · exact absurd next (leads b)
    · exact fun same => .inl same.symm
  | cons b l ih =>
    rw [Relation.ReflTransGen.cases_head_iff, List.mem_cons, ← ih leads.2]
    constructor
    · rintro (same | ⟨c, next, rest⟩)
      · exact .inl same.symm
      · exact .inr (functional leads.1 next ▸ rest)
    · rintro (same | rest)
      · exact .inl same.symm
      · exact .inr ⟨b, leads.1, rest⟩

/-- A chain goes on past the last element of its first part. -/
theorem isChain_append_iff {front back : List α} {last : α} (ends : front.getLast? = some last) :
    (front ++ back).IsChain R ↔ front.IsChain R ∧ (last :: back).IsChain R := by
  rw [List.isChain_append, List.isChain_cons, ends]
  simp [and_comm]

end Chains

namespace Ownership

variable {α : Type*} [DecidableEq α]

/-- Every taken resource is owned exactly once, and only taken resources are owned. -/
def Owns (owned : List α) (taken : α → Bool) : Prop :=
  ∀ x, owned.count x = if taken x then 1 else 0

variable {owned owned' items : List α} {taken taken' : α → Bool}

theorem owns_nil (free : ∀ x, taken x = false) : Owns [] taken := fun x => by
  rw [List.count_nil, free, if_neg Bool.false_ne_true]

theorem Owns.perm (owns : Owns owned taken) (same : owned.Perm owned') : Owns owned' taken :=
  fun x => (same.count_eq x).symm.trans (owns x)

/-- Fresh resources may join what is owned. -/
theorem Owns.acquire (owns : Owns owned taken) (nodup : items.Nodup)
    (fresh : ∀ x ∈ items, taken x = false)
    (after : ∀ x, taken' x = (taken x || decide (x ∈ items))) : Owns (items ++ owned) taken' := by
  intro x
  rw [List.count_append, owns, after]
  rcases em (x ∈ items) with member | other
  · rw [List.count_eq_one_of_mem nodup member, fresh x member]
    simp [member]
  · rw [List.count_eq_zero_of_not_mem other]
    simp [other]

/-- What is given back to the allocator leaves the books. -/
theorem Owns.release (owns : Owns (items ++ owned) taken)
    (after : ∀ x, taken' x = (taken x && !decide (x ∈ items))) : Owns owned taken' := by
  intro x
  have before := owns x
  rw [List.count_append] at before
  rw [after]
  rcases em (x ∈ items) with member | other
  · have once := List.count_pos_iff.mpr member
    have bound : (if taken x then 1 else 0) ≤ 1 := by split <;> omega
    simp only [member, decide_true, Bool.not_true, Bool.and_false, Bool.false_eq_true, if_false]
    omega
  · rw [List.count_eq_zero_of_not_mem other, Nat.zero_add] at before
    simpa [other] using before

/-- What an owner drops without giving it back is lost. -/
theorem Owns.forget_iff (owns : Owns (items ++ owned) taken) : Owns owned taken ↔ items = [] := by
  constructor
  · intro rest
    rw [List.eq_nil_iff_forall_not_mem]
    intro x member
    have both := owns x
    rw [List.count_append, rest x] at both
    have := List.count_pos_iff.mpr member
    omega
  · rintro rfl
    exact owns

end Ownership
