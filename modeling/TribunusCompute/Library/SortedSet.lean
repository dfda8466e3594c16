import Mathlib.Data.Finset.Powerset
import Mathlib.Data.List.Sort

/-!
# Sets as sorted lists

A finite set with its elements in order, so that equal sets are equal lists.
-/

structure SortedSet (α : Type*) [LinearOrder α] where
  toList : List α
  sorted : toList.Pairwise (· < ·)
  deriving DecidableEq

namespace SortedSet

variable {α : Type*} [LinearOrder α]

/-- Put `x` in its place, unless it is there. -/
def insertSorted (x : α) : List α → List α
  | [] => [x]
  | y :: ys => if x < y then x :: y :: ys else if x = y then y :: ys else y :: insertSorted x ys

theorem mem_insertSorted {x y : α} {l : List α} : y ∈ insertSorted x l ↔ y = x ∨ y ∈ l := by
  induction l with
  | nil => simp [insertSorted]
  | cons z l ih =>
    rw [insertSorted]
    split
    next => simp
    next =>
      split
      next same => simp [same]
      next =>
        rw [List.mem_cons, ih, List.mem_cons]
        tauto

theorem pairwise_insertSorted {x : α} {l : List α} (sorted : l.Pairwise (· < ·)) :
    (insertSorted x l).Pairwise (· < ·) := by
  induction l with
  | nil => exact List.pairwise_singleton _ _
  | cons y l ih =>
    obtain ⟨above, rest⟩ := List.pairwise_cons.mp sorted
    rw [insertSorted]
    split
    next below =>
      refine List.pairwise_cons.mpr ⟨fun z member => ?_, sorted⟩
      rcases List.mem_cons.mp member with rfl | later
      · exact below
      · exact below.trans (above z later)
    next notBelow =>
      split
      next => exact sorted
      next apart =>
        refine List.pairwise_cons.mpr ⟨fun z member => ?_, ih rest⟩
        rcases mem_insertSorted.mp member with rfl | later
        · exact lt_of_le_of_ne (not_lt.mp notBelow) (Ne.symm apart)
        · exact above z later

instance : Membership α (SortedSet α) := ⟨fun s x => x ∈ s.toList⟩

instance (s : SortedSet α) (x : α) : Decidable (x ∈ s) :=
  inferInstanceAs (Decidable (x ∈ s.toList))

instance : EmptyCollection (SortedSet α) := ⟨⟨[], .nil⟩⟩

def insert (s : SortedSet α) (x : α) : SortedSet α :=
  ⟨insertSorted x s.toList, pairwise_insertSorted s.sorted⟩

def ofList (l : List α) : SortedSet α := l.foldl insert ∅

variable {s t : SortedSet α} {x y : α}

@[simp] theorem mem_toList : x ∈ s.toList ↔ x ∈ s := Iff.rfl

@[simp] theorem not_mem_empty : x ∉ (∅ : SortedSet α) := List.not_mem_nil

@[simp] theorem mem_insert : y ∈ s.insert x ↔ y = x ∨ y ∈ s := mem_insertSorted

@[ext] theorem ext (same : ∀ x, x ∈ s ↔ x ∈ t) : s = t := by
  obtain ⟨l, sorted⟩ := s
  obtain ⟨l', sorted'⟩ := t
  obtain rfl : l = l' := sorted.eq_of_mem_iff sorted' fun x => same x
  rfl

@[simp] theorem mem_ofList {l : List α} : x ∈ ofList l ↔ x ∈ l := by
  have general (s : SortedSet α) : x ∈ l.foldl insert s ↔ x ∈ s ∨ x ∈ l := by
    induction l generalizing s with
    | nil => simp
    | cons y l ih =>
      rw [List.foldl_cons, ih, mem_insert, List.mem_cons]
      tauto
  rw [ofList, general]
  simp

theorem eq_empty_iff : s = ∅ ↔ ∀ x, x ∉ s := by
  constructor
  · rintro rfl x
    exact not_mem_empty
  · intro none_
    exact ext fun x => iff_of_false (none_ x) not_mem_empty

theorem nodup (s : SortedSet α) : s.toList.Nodup :=
  s.sorted.imp fun below => below.ne

theorem length_le_card {U : Finset α} (inside : ∀ x ∈ s, x ∈ U) : s.toList.length ≤ U.card := by
  rw [← List.toFinset_card_of_nodup s.nodup]
  exact Finset.card_le_card fun x member => inside x (List.mem_toFinset.mp member)

theorem length_insert (new : x ∉ s) : (s.insert x).toList.length = s.toList.length + 1 := by
  have same : (s.insert x).toList.Perm (x :: s.toList) := by
    refine (List.perm_ext_iff_of_nodup (s.insert x).nodup (List.nodup_cons.mpr ⟨new, s.nodup⟩)).mpr
      fun y => ?_
    rw [List.mem_cons]
    exact mem_insert
  rw [same.length_eq, List.length_cons]

/-- At most `2 ^ n` sets live inside a set of `n` elements. -/
theorem length_le_two_pow {U : Finset α} {sets : List (SortedSet α)} (distinct : sets.Nodup)
    (inside : ∀ s ∈ sets, ∀ x ∈ s, x ∈ U) : sets.length ≤ 2 ^ U.card := by
  have injective : Function.Injective fun s : SortedSet α => s.toList.toFinset := by
    intro s t same
    refine ext fun x => ?_
    have := Finset.ext_iff.mp same x
    rwa [List.mem_toFinset, List.mem_toFinset] at this
  rw [← List.length_map (fun s : SortedSet α => s.toList.toFinset),
    ← List.toFinset_card_of_nodup (distinct.map injective), ← Finset.card_powerset]
  refine Finset.card_le_card fun v member => ?_
  obtain ⟨s, there, rfl⟩ := List.mem_map.mp (List.mem_toFinset.mp member)
  exact Finset.mem_powerset.mpr fun x member => inside s there x (List.mem_toFinset.mp member)

end SortedSet
