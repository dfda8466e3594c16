import Mathlib.Data.List.Nodup
import Mathlib.Data.List.Range
import Mathlib.Data.Set.BooleanAlgebra
import Mathlib.Order.CompletePartialOrder
import Mathlib.Tactic.Ring

/-!
# Numbers in strides, ranges in a row

Numbers given out group by group, a fixed stride apart, a range of numbers cut into runs of at
most one stride, and pieces of any sizes that start a fixed stride apart. Ranges tile a buffer
when each starts where the one before it ended.
-/
namespace Strides

/-- The number a group gives to an offset. -/
def number (stride group offset : ℕ) : ℕ := group * stride + offset

theorem mod_number (stride group offset : ℕ) :
    number stride group offset % stride = offset % stride := by
  unfold number
  rw [Nat.mul_add_mod_self_right]

/-- Offsets of distinct residues give distinct numbers, even where an offset passes the stride. -/
theorem number_injOn {stride : ℕ} {offsets : List ℕ}
    (residues : (offsets.map (· % stride)).Nodup) {group group' offset offset' : ℕ}
    (member : offset ∈ offsets) (member' : offset' ∈ offsets) (positive : 0 < stride)
    (same : number stride group offset = number stride group' offset') :
    group = group' ∧ offset = offset' := by
  have residue : offset % stride = offset' % stride := by
    rw [← mod_number stride group offset, same, mod_number]
  have offsets_eq : offset = offset' :=
    List.inj_on_of_nodup_map residues member member' residue
  subst offset'
  have scaled : group * stride = group' * stride := by
    unfold number at same
    omega
  exact ⟨Nat.eq_of_mul_eq_mul_right positive scaled, rfl⟩

theorem nodup_numbers {stride : ℕ} {offsets : List ℕ} (positive : 0 < stride)
    (residues : (offsets.map (· % stride)).Nodup) (groups : ℕ) :
    ((List.range groups).flatMap fun group => offsets.map (number stride group)).Nodup := by
  rw [List.nodup_flatMap]
  constructor
  · intro group _
    apply List.Nodup.map_on _ residues.of_map
    intro offset member offset' member' same
    exact (number_injOn residues member member' positive same).2
  · apply List.nodup_range.pairwise_of_forall_ne
    intro group _ group' _ apart n first second
    obtain ⟨offset, member, rfl⟩ := List.mem_map.mp first
    obtain ⟨offset', member', same⟩ := List.mem_map.mp second
    exact apart (number_injOn residues member' member positive same).1.symm

theorem map_eq_map_range {α β : Type*} {items : List α} {f : α → β} {value : ℕ → β}
    (each : ∀ i item, items[i]? = some item → f item = value i) :
    items.map f = (List.range items.length).map value := by
  apply List.ext_getElem?
  intro i
  rw [List.getElem?_map, List.getElem?_map]
  rcases Nat.lt_or_ge i items.length with inside | past
  · rw [List.getElem?_range inside, List.getElem?_eq_getElem inside]
    exact congrArg some (each i _ (List.getElem?_eq_getElem inside))
  · rw [List.getElem?_eq_none past, List.getElem?_eq_none (by simpa using past)]
    rfl

def starts (count stride : ℕ) : List ℕ :=
  (List.range ((count + stride - 1) / stride)).map (· * stride)

/-- The run of a range that begins at `start`. -/
def run (count stride start : ℕ) : List ℕ :=
  List.range' start (min (start + stride) count - start)

theorem mem_starts_lt {count stride start : ℕ} (member : start ∈ starts count stride) :
    start < count := by
  obtain ⟨i, inside, rfl⟩ := List.mem_map.mp member
  have below := List.mem_range.mp inside
  have positive : 0 < stride := by
    rcases Nat.eq_zero_or_pos stride with rfl | positive
    · simp at below
    · exact positive
  have bound : (i + 1) * stride ≤ count + stride - 1 :=
    (Nat.le_div_iff_mul_le positive).mp below
  rw [Nat.add_mul, Nat.one_mul] at bound
  omega

theorem length_run_le (count stride start : ℕ) : (run count stride start).length ≤ stride := by
  simp only [run, List.length_range']
  omega

theorem run_ne_nil {count stride start : ℕ} (positive : 0 < stride)
    (member : start ∈ starts count stride) : run count stride start ≠ [] := by
  have inside := mem_starts_lt member
  apply List.ne_nil_of_length_pos
  simp only [run, List.length_range']
  omega

theorem flatMap_run_range (count stride runs : ℕ) :
    ((List.range runs).map (· * stride)).flatMap (run count stride) =
      List.range (min (runs * stride) count) := by
  induction runs with
  | zero => simp
  | succ runs ih =>
    rw [List.range_succ, List.map_append, List.flatMap_append, ih]
    simp only [List.map_cons, List.map_nil, List.flatMap_cons, List.flatMap_nil, List.append_nil]
    have next : (runs + 1) * stride = runs * stride + stride := by ring
    rcases Nat.le_total count (runs * stride) with done | more
    · -- the range is used up: this run is empty
      have empty : run count stride (runs * stride) = [] := by
        apply List.eq_nil_of_length_eq_zero
        simp only [run, List.length_range']
        omega
      rw [empty, List.append_nil, next, Nat.min_eq_right done, Nat.min_eq_right (by omega)]
    · have joined := @List.range'_append_1 0 (runs * stride)
        (min (runs * stride + stride) count - runs * stride)
      rw [Nat.zero_add] at joined
      rw [Nat.min_eq_left more, List.range_eq_range', List.range_eq_range', run, next, joined]
      congr 1
      omega

theorem flatMap_runs {stride : ℕ} (positive : 0 < stride) (count : ℕ) :
    (starts count stride).flatMap (run count stride) = List.range count := by
  unfold starts
  rw [flatMap_run_range]
  congr 1
  have covers : count ≤ (count + stride - 1) / stride * stride := by
    have := Nat.div_add_mod (count + stride - 1) stride
    have := Nat.mod_lt (count + stride - 1) positive
    rw [Nat.mul_comm]
    omega
  omega

/-- Pieces that start a stride apart, each by its start and its size. -/
def pieces (stride : ℕ) : ℕ → List ℕ → List (ℕ × ℕ)
  | _, [] => []
  | start, size :: rest => (start, size) :: pieces stride (start + stride) rest

def covered (piece : ℕ × ℕ) : Set ℕ := Set.Ico piece.1 (piece.1 + piece.2)

theorem mem_pieces {stride start : ℕ} {sizes : List ℕ} {piece : ℕ × ℕ}
    (member : piece ∈ pieces stride start sizes) : start ≤ piece.1 ∧ piece.2 ∈ sizes := by
  induction sizes generalizing start with
  | nil => cases member
  | cons size rest ih =>
    rcases List.mem_cons.mp member with rfl | later
    · exact ⟨Nat.le_refl _, List.mem_cons_self⟩
    · obtain ⟨behind, sized⟩ := ih later
      exact ⟨by omega, List.mem_cons_of_mem _ sized⟩

/-- A piece is apart from one that starts behind it exactly when it ends there. -/
theorem disjoint_covered_iff {left right : ℕ × ℕ} (nonempty : 0 < right.2)
    (behind : left.1 ≤ right.1) :
    Disjoint (covered left) (covered right) ↔ left.1 + left.2 ≤ right.1 := by
  rw [Set.disjoint_left]
  constructor
  · intro apart
    -- the start of the right piece would lie in both
    by_contra reaches
    exact apart (a := right.1) ⟨behind, by omega⟩ ⟨Nat.le_refl _, by omega⟩
  · rintro stops n ⟨-, before⟩ ⟨from_right, -⟩
    omega

/-- Non-empty pieces are pairwise apart exactly when all but the last fit into one stride. -/
theorem pairwise_disjoint_pieces_iff {stride : ℕ} (start : ℕ) {sizes : List ℕ}
    (nonempty : ∀ size ∈ sizes, 0 < size) :
    (pieces stride start sizes).Pairwise (fun left right =>
        Disjoint (covered left) (covered right)) ↔ ∀ size ∈ sizes.dropLast, size ≤ stride := by
  induction sizes generalizing start with
  | nil => simp [pieces]
  | cons size rest ih =>
    have later := ih (start + stride) fun n member =>
      nonempty n (List.mem_cons_of_mem _ member)
    cases rest with
    | nil => simp [pieces]
    | cons next rest =>
      rw [List.dropLast_cons_cons, List.forall_mem_cons, pieces, List.pairwise_cons, later]
      apply and_congr_left
      intro _
      constructor
      · intro apart
        -- the next piece starts one stride on
        have first := apart (start + stride, next) List.mem_cons_self
        rw [disjoint_covered_iff (nonempty next (by simp)) (by simp)] at first
        exact Nat.le_of_add_le_add_left first
      -- every later piece starts at least one stride on
      · intro fits piece member
        obtain ⟨behind, sized⟩ := mem_pieces member
        have some := nonempty piece.2 (List.mem_cons_of_mem _ sized)
        rw [disjoint_covered_iff some (by simp only; omega)]
        simp only
        omega

end Strides

namespace Tiling

/-- Consecutive ranges, each an offset and a length, from `start` to `stop`. -/
def Tiles : ℕ → List (ℕ × ℕ) → ℕ → Prop
  | start, [], stop => start = stop
  | start, (offset, length) :: rest, stop => offset = start ∧ Tiles (start + length) rest stop

def slice {α : Type*} (buffer : List α) (offset length : ℕ) : List α :=
  (buffer.drop offset).take length

variable {α : Type*}

theorem slice_append_append (before piece after : List α) :
    slice (before ++ (piece ++ after)) before.length piece.length = piece := by
  rw [slice, List.drop_left, List.take_left]

theorem Tiles.inside {start stop : ℕ} {ranges : List (ℕ × ℕ)} (tiled : Tiles start ranges stop)
    {range : ℕ × ℕ} (member : range ∈ ranges) : range.1 + range.2 ≤ stop := by
  have reaches : ∀ {start : ℕ} {ranges : List (ℕ × ℕ)}, Tiles start ranges stop →
      start ≤ stop := by
    intro start ranges tiled
    induction ranges generalizing start with
    | nil => exact Nat.le_of_eq tiled
    | cons first ranges ih => exact Nat.le_trans (Nat.le_add_right start first.2) (ih tiled.2)
  induction ranges generalizing start with
  | nil => cases member
  | cons first ranges ih =>
    rcases List.mem_cons.mp member with rfl | later
    · rw [tiled.1]
      exact reaches tiled.2
    · exact ih tiled.2 later

theorem Tiles.total {start stop : ℕ} {ranges : List (ℕ × ℕ)} (tiled : Tiles start ranges stop) :
    start + (ranges.map Prod.snd).sum = stop := by
  induction ranges generalizing start with
  | nil => exact tiled
  | cons first ranges ih =>
    rw [List.map_cons, List.sum_cons, ← Nat.add_assoc]
    exact ih tiled.2

end Tiling
