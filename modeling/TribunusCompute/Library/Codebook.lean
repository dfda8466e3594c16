import Mathlib.Algebra.Order.Field.Basic
import Mathlib.Data.List.Chain
import Mathlib.Tactic.Linarith

/-!
# Codebooks

A value between the first and the last of some ascending levels is no further from one of
them than half the largest gap.
-/
namespace Codebook

variable {α : Type*} [Field α] [LinearOrder α] [IsStrictOrderedRing α]

/-- Consecutive levels are at most `gap` apart. -/
def GapsAtMost (gap : α) (levels : List α) : Prop :=
  levels.IsChain fun lower upper => upper - lower ≤ gap

theorem exists_near {gap first x : α} {levels : List α} (nonneg : 0 ≤ gap)
    (gaps : GapsAtMost gap (first :: levels)) (above : first ≤ x)
    (below : x ≤ (first :: levels).getLast (List.cons_ne_nil _ _)) :
    ∃ level ∈ first :: levels, |x - level| ≤ gap / 2 := by
  induction levels generalizing first with
  | nil =>
    have same : x = first := le_antisymm below above
    refine ⟨first, List.mem_cons_self, ?_⟩
    rw [same, sub_self, abs_zero]
    linarith
  | cons second levels ih =>
    obtain ⟨near, later⟩ := List.isChain_cons_cons.mp gaps
    rcases le_total second x with beyond | before
    · obtain ⟨level, member, close⟩ := ih later beyond below
      exact ⟨level, List.mem_cons_of_mem _ member, close⟩
    · -- Between the first two, one of them is in reach.
      rcases le_total (x - first) (gap / 2) with low | high
      · refine ⟨first, List.mem_cons_self, ?_⟩
        rwa [abs_of_nonneg (by linarith)]
      · refine ⟨second, List.mem_cons_of_mem _ List.mem_cons_self, ?_⟩
        rw [abs_sub_comm, abs_of_nonneg (by linarith)]
        linarith

end Codebook
