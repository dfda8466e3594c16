import Mathlib.Data.List.Dedup
import Mathlib.Data.List.DropRight
import Mathlib.Data.Set.Function
import TribunusCompute.Library.Runs

/-!
# Least-recently-used order

A list of distinct elements, the least recent first. Using an element moves it to
the end, and the front is dropped beyond the capacity. After any stream of uses
the order is the last distinct elements of the stream.
-/
namespace Lru

variable {α β : Type*}

theorem rtake_append_of_le {front back : List α} {n : ℕ} (enough : n ≤ back.length) :
    (front ++ back).rtake n = back.rtake n := by
  rw [List.rtake, List.rtake, List.length_append,
    show front.length + back.length - n = front.length + (back.length - n) by omega,
    List.drop_append]
  simp

theorem rtake_of_length_le {l : List α} {n : ℕ} (short : l.length ≤ n) : l.rtake n = l := by
  rw [List.rtake, Nat.sub_eq_zero_of_le short, List.drop_zero]

theorem length_rtake_le (l : List α) (n : ℕ) : (l.rtake n).length ≤ n := by
  rw [List.rtake, List.length_drop]
  omega

/-- Use `x`: it becomes the most recent of at most `capacity` elements. -/
def touch [BEq α] (capacity : ℕ) (order : List α) (x : α) : List α :=
  (order.erase x ++ [x]).rtake capacity

variable [DecidableEq α] [DecidableEq β]

/-- The last `capacity` distinct elements of the stream, in the order of their last use. -/
def recent (capacity : ℕ) (stream : List α) : List α := stream.dedup.rtake capacity

theorem dedup_concat [BEq α] [LawfulBEq α] (stream : List α) (x : α) :
    (stream ++ [x]).dedup = stream.dedup.erase x ++ [x] := by
  induction stream with
  | nil => rfl
  | cons a stream ih =>
    rw [List.cons_append]
    rcases eq_or_ne a x with rfl | other
    · rw [List.dedup_cons_of_mem (by simp), ih]
      rcases em (a ∈ stream) with again | last
      · rw [List.dedup_cons_of_mem again]
      · rw [List.dedup_cons_of_notMem last, List.erase_cons_head,
          List.erase_of_not_mem (by simpa using last)]
    · rcases em (a ∈ stream) with again | last
      · rw [List.dedup_cons_of_mem (by simp [again]), List.dedup_cons_of_mem again, ih]
      · rw [List.dedup_cons_of_notMem (by simp [last, other]), List.dedup_cons_of_notMem last, ih,
          List.erase_cons_tail (by simpa using other), List.cons_append]

/-- One more use of the stream is one touch of the order. -/
theorem recent_concat [BEq α] [LawfulBEq α] (capacity : ℕ) (stream : List α) (x : α) :
    recent capacity (stream ++ [x]) = touch capacity (recent capacity stream) x := by
  unfold recent touch
  rw [dedup_concat]
  cases capacity with
  | zero => simp
  | succ n =>
    rw [List.rtake_concat_succ, List.rtake_concat_succ]
    congr 1
    have parts : stream.dedup.rdrop (n + 1) ++ stream.dedup.rtake (n + 1) = stream.dedup :=
      List.take_append_drop ..
    have nodup : (stream.dedup.rdrop (n + 1) ++ stream.dedup.rtake (n + 1)).Nodup := by
      rw [parts]
      exact stream.nodup_dedup
    rcases Nat.le_total stream.dedup.length (n + 1) with short | long
    · rw [rtake_of_length_le short]
    · -- Below the capacity only the front changes, and the front is not taken.
      have full : (stream.dedup.rtake (n + 1)).length = n + 1 := by
        rw [List.rtake, List.length_drop]
        omega
      rcases em (x ∈ stream.dedup.rtake (n + 1)) with inside | outside
      · have elsewhere : x ∉ stream.dedup.rdrop (n + 1) := fun front =>
          List.disjoint_of_nodup_append nodup front inside
        conv_lhs => rw [← parts, List.erase_append_right _ elsewhere]
        rw [rtake_append_of_le]
        rw [List.length_erase_of_mem inside, full]
        omega
      · rw [List.erase_of_not_mem outside]
        conv_lhs => rw [← parts]
        rcases em (x ∈ stream.dedup.rdrop (n + 1)) with front | nowhere
        · rw [List.erase_append_left _ front, rtake_append_of_le (by omega)]
        · rw [List.erase_append_right _ nowhere, List.erase_of_not_mem outside,
            rtake_append_of_le (by omega)]

theorem length_recent_le (capacity : ℕ) (stream : List α) :
    (recent capacity stream).length ≤ capacity :=
  length_rtake_le _ _

/-- The run rule: where every step is a touch, runs go through and keep what was used last. -/
theorem recent_exec [BEq α] [LawfulBEq α] {σ ε : Type*} (step : σ → ε → Option σ)
    (order : σ → List α) (key : ε → α) {capacity : ℕ} {I : σ → Prop}
    (touches : ∀ s e, I s → (order s).length ≤ capacity →
      ∃ t, step s e = some t ∧ I t ∧ order t = touch capacity (order s) (key e))
    (es : List ε) {s : σ} {stream : List α} (inv : I s)
    (ordered : order s = recent capacity stream) :
    ∃ t, Runs.exec step s es = some t ∧ I t ∧
      order t = recent capacity (stream ++ es.map key) := by
  induction es generalizing s stream with
  | nil => exact ⟨s, rfl, inv, by simpa using ordered⟩
  | cons e es ih =>
    obtain ⟨t, taken, inv', touched⟩ := touches s e inv (ordered ▸ length_recent_le ..)
    have ordered' : order t = recent capacity (stream ++ [key e]) := by
      rw [touched, recent_concat, ordered]
    obtain ⟨u, run, inv'', last⟩ := ih inv' ordered'
    refine ⟨u, (Runs.exec_cons_iff _ _ _ _ _).mpr ⟨t, taken, run⟩, inv'', ?_⟩
    rwa [List.append_assoc, List.singleton_append, ← List.map_cons] at last

theorem mem_of_mem_recent {capacity : ℕ} {stream : List α} {x : α}
    (member : x ∈ recent capacity stream) : x ∈ stream :=
  List.mem_dedup.mp (List.mem_of_mem_drop member)

/-- Renaming the elements apart keeps the order. -/
theorem recent_map (capacity : ℕ) {stream : List α} {f : α → β}
    (apart : Set.InjOn f {x | x ∈ stream}) :
    recent capacity (stream.map f) = (recent capacity stream).map f := by
  have dedup_map : (stream.map f).dedup = stream.dedup.map f := by
    induction stream with
    | nil => rfl
    | cons a stream ih =>
      have ih := ih (apart.mono fun x member => List.mem_cons_of_mem _ member)
      rw [List.map_cons]
      rcases em (a ∈ stream) with again | last
      · rw [List.dedup_cons_of_mem (List.mem_map_of_mem again), ih, List.dedup_cons_of_mem again]
      · have last' : f a ∉ stream.map f := by
          intro member
          obtain ⟨b, inside, same⟩ := List.mem_map.mp member
          obtain rfl := apart (List.mem_cons_of_mem _ inside) List.mem_cons_self same
          exact last inside
        rw [List.dedup_cons_of_notMem last', ih, List.dedup_cons_of_notMem last, List.map_cons]
  rw [recent, recent, dedup_map, List.rtake, List.rtake, List.length_map, List.map_drop]

end Lru
