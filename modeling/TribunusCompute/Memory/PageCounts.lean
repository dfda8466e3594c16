import Mathlib.Data.Nat.Count
import TribunusCompute.Memory.BlockAllocator

/-!
# Page runs and page counts

An allocation takes the lowest run of free pages there is. `free_pages` counts
whole words of the bitmap: the bits past the last page are set from the start and
never cleared, so the count is right when there are none, or when no page is
allocated and the cap at `num_pages` hides them.
-/
namespace TribunusCompute.Memory

open Bitmap

namespace PagedIosurfaceAllocator

variable (a : PagedIosurfaceAllocator)

/-! ## Runs of free pages -/

/-- The `count` pages from `first` on exist and are free. -/
def FreeRun (first count : ℕ) : Prop := ∀ i < count, a.isFree (first + i) = true

instance (first count : ℕ) : Decidable (a.FreeRun first count) :=
  inferInstanceAs (Decidable (∀ i < count, _))

theorem startsRun_iff {first count : ℕ} (positive : 0 < count) :
    a.StartsRun count first ↔ a.FreeRun first count := by
  rw [StartsRun, runIsFree_iff]
  exact and_iff_right_of_imp fun run => run 0 positive

/-- The allocator after the call: a refusal leaves it alone. -/
def afterAllocate (count : ℕ) : PagedIosurfaceAllocator :=
  match a.allocatePages count with
  | some (_, taken) => taken
  | none => a

theorem allocatePages_none_iff {count : ℕ} (positive : 0 < count) :
    a.allocatePages count = none ↔ ∀ first, ¬a.FreeRun first count := by
  have lowest := a.scan_lowestRun count a.numPages 0 (by omega)
  simp only [← a.startsRun_iff positive]
  cases found : a.scan count a.numPages 0 with
  | none =>
    rw [found] at lowest
    exact iff_of_true (by simp [allocatePages, found]) fun first => lowest first (Nat.zero_le _)
  | some first =>
    rw [found] at lowest
    refine iff_of_false (by simp [allocatePages, found]) fun none_ => ?_
    exact none_ first lowest.2.1

/-- An allocation finds a run exactly if there is one. It takes the lowest, clears the bits of its
pages and no others; a refusal changes nothing. -/
theorem allocatePages_lowestRun (count : ℕ) (positive : 0 < count) :
    ((∃ run taken, a.allocatePages count = some (run, taken)) ↔ ∃ first, a.FreeRun first count) ∧
    (∀ run taken, a.allocatePages count = some (run, taken) →
      a.afterAllocate count = taken ∧ ∃ first, a.FreeRun first count ∧
        (∀ other, a.FreeRun other count → first ≤ other) ∧
        run = (List.range count).map (first + ·) ∧ taken.numPages = a.numPages ∧
        ∀ q, bit taken.freeBitmap q = (bit a.freeBitmap q && !decide (q ∈ run))) ∧
    (a.allocatePages count = none → a.afterAllocate count = a) := by
  refine ⟨?_, ?_, ?_⟩
  · have refused := not_congr (a.allocatePages_none_iff positive)
    rw [not_forall_not] at refused
    rw [← refused, ← ne_eq, Option.ne_none_iff_exists']
    exact ⟨fun ⟨run, taken, found⟩ => ⟨_, found⟩, fun ⟨found, same⟩ => ⟨found.1, found.2, same⟩⟩
  · intro run taken allocated
    refine ⟨by simp only [afterAllocate, allocated], ?_⟩
    have lowest := a.scan_lowestRun count a.numPages 0 (by omega)
    simp only [allocatePages, Option.map_eq_some_iff, Prod.mk.injEq] at allocated
    obtain ⟨first, found, rfl, rfl⟩ := allocated
    rw [found] at lowest
    obtain ⟨-, starts, below⟩ := lowest
    refine ⟨first, (a.startsRun_iff positive).mp starts, fun other run => ?_, rfl, rfl, fun q => ?_⟩
    · by_contra lower
      have earlier := (a.startsRun_iff positive).mpr run
      exact below other (Nat.zero_le _) (Nat.lt_of_not_le lower) earlier
    · exact bit_foldl_clearBit _ _ _
  · intro refused
    simp only [afterAllocate, refused]

/-- Sixty-six free pages of seventy, across the boundary of two words. -/
theorem allocatePages_acrossWords :
    ∃ run taken, (new 70 512).allocatePages 66 = some (run, taken) :=
  ((new 70 512).allocatePages_lowestRun 66 (by decide)).1.mpr ⟨0, by decide⟩

/-! ## Counting free pages -/

def freePages : ℕ := min (a.freeBitmap.map countOnes).sum a.numPages

/-- The bits past the last page are set. -/
def PaddingSet : Prop := ∀ q, a.numPages ≤ q → q < 64 * a.freeBitmap.length →
  bit a.freeBitmap q = true

end PagedIosurfaceAllocator

namespace KvCacheBlockAllocator

def allocatedBlocks (b : KvCacheBlockAllocator) : ℕ := b.pager.numPages - b.pager.freePages

def isFull (b : KvCacheBlockAllocator) : Bool := b.pager.freePages == 0

end KvCacheBlockAllocator

inductive PagerOp
  | allocatePages (count : ℕ)
  | freePage (page : ℕ)
  deriving DecidableEq, Repr

/-- The pager and the pages handed out and not freed since. -/
structure PagerState where
  pager : PagedIosurfaceAllocator
  allocated : Finset ℕ

namespace PagerState

open PagedIosurfaceAllocator

def start (numPages pageSize : ℕ) : PagerState where
  pager := .new numPages pageSize
  allocated := ∅

def step (s : PagerState) : PagerOp → PagerState
  | .allocatePages count =>
    match s.pager.allocatePages count with
    | some (run, pager) => { pager := pager, allocated := s.allocated ∪ run.toFinset }
    | none => s
  | .freePage page => { pager := s.pager.freePage page, allocated := s.allocated.erase page }

/-- The free pages are counted right, and a block allocator on this pager reports the blocks held
and is full exactly if it cannot allocate one. -/
structure FreeCountLaw (s : PagerState) : Prop where
  freePages : s.pager.freePages = (Finset.range s.pager.numPages \ s.allocated).card
  blocks : ∀ b : KvCacheBlockAllocator, b.pager = s.pager →
    b.allocatedBlocks = s.allocated.card ∧
      (b.isFull = true ↔ ∃ e, b.allocBlock = .error e)

/-- The bitmap says what has been allocated, and the bits past the last page are set. -/
structure Tracks (s : PagerState) (numPages : ℕ) : Prop where
  size : s.pager.numPages = numPages
  free : ∀ q, s.pager.isFree q = decide (q < numPages ∧ q ∉ s.allocated)
  inside : ∀ q ∈ s.allocated, q < numPages
  padding : s.pager.PaddingSet

theorem tracks_start (numPages pageSize : ℕ) : (start numPages pageSize).Tracks numPages where
  size := rfl
  free q := by simp [start, isFree_new]
  inside := by simp [start]
  padding q _ inside := bit_replicate_allOnes _ _ (by
    simp only [start, new, List.length_replicate] at inside
    omega)

theorem tracks_step {s : PagerState} {numPages : ℕ} (tracks : s.Tracks numPages) (op : PagerOp) :
    (s.step op).Tracks numPages := by
  obtain ⟨size, free, inside, padding⟩ := tracks
  cases op with
  | allocatePages count =>
    unfold step
    dsimp only
    split
    next run pager found =>
      obtain ⟨-, -, were_free, same, taken⟩ := s.pager.allocatePages_some found
      have run_inside : ∀ q ∈ run, q < numPages := fun q member =>
        size ▸ s.pager.isFree_lt (were_free q member)
      refine ⟨same.trans size, fun q => ?_, fun q member => ?_, fun q beyond short => ?_⟩
      · rw [taken, free, Bool.eq_iff_iff]
        simp only [Bool.and_eq_true, Bool.not_eq_true', decide_eq_true_eq, decide_eq_false_iff_not,
          Finset.mem_union, List.mem_toFinset, not_or, and_assoc]
      · rcases Finset.mem_union.mp member with old | new
        · exact inside q old
        · exact run_inside q (List.mem_toFinset.mp new)
      · -- The pages taken are real ones, so no bit past the last page is cleared.
        simp only [PagedIosurfaceAllocator.allocatePages, Option.map_eq_some_iff,
          Prod.mk.injEq] at found
        obtain ⟨first, -, rfl, rfl⟩ := found
        simp only [take, PagedIosurfaceAllocator.length_foldl_clearBit,
          bit_foldl_clearBit] at beyond short ⊢
        rw [padding q beyond short, Bool.true_and, Bool.not_eq_true', decide_eq_false_iff_not]
        intro member
        have := run_inside q member
        omega
    next => exact ⟨size, free, inside, padding⟩
  | freePage page =>
    refine ⟨(s.pager.numPages_freePage page).trans size, fun q => ?_, fun q member => ?_,
      fun q beyond short => ?_⟩
    · rw [step, isFree_freePage, free, size, Bool.eq_iff_iff]
      simp only [Bool.or_eq_true, decide_eq_true_eq, Finset.mem_erase]
      tauto
    · exact inside q (Finset.mem_of_mem_erase member)
    -- a page that is not of the arena is not marked
    · simp only [step, freePage] at beyond short ⊢
      split at beyond
      next outside =>
        rw [if_pos outside] at short ⊢
        exact padding q beyond short
      next within =>
        rw [if_neg within] at short ⊢
        simp only [length_setBit] at short
        rw [bit_setBit _ _ _ (s.pager.word_inside (Nat.lt_of_not_le within)),
          padding q beyond short, Bool.true_or]

theorem tracks_run (numPages pageSize : ℕ) (ops : List PagerOp) :
    (ops.foldl step (start numPages pageSize)).Tracks numPages := by
  have from_any (s : PagerState) (tracks : s.Tracks numPages) :
      (ops.foldl step s).Tracks numPages := by
    induction ops generalizing s with
    | nil => exact tracks
    | cons op ops ih => exact ih (s.step op) (tracks_step tracks op)
  exact from_any _ (tracks_start numPages pageSize)

/-- The words count the pages that are not allocated and the bits past the last page. -/
theorem sum_countOnes_of_tracks {s : PagerState} {numPages : ℕ} (tracks : s.Tracks numPages) :
    (s.pager.freeBitmap.map countOnes).sum =
      (Finset.range numPages \ s.allocated).card + (64 * ((numPages + 63) / 64) - numPages) := by
  have words := s.pager.words
  rw [tracks.size] at words
  have split : 64 * s.pager.freeBitmap.length =
      numPages + (64 * ((numPages + 63) / 64) - numPages) := by omega
  rw [sum_countOnes, split, List.range_add, List.countP_append, List.countP_map]
  congr 1
  · -- Below `numPages` a set bit is a free page.
    rw [Finset.sdiff_eq_filter, ← Nat.count_eq_card_filter_range, Nat.count]
    refine List.countP_congr fun q member => ?_
    have real := List.mem_range.mp member
    have here := tracks.free q
    simp only [isFree, tracks.size, real, decide_true, Bool.true_and, true_and] at here
    rw [here]
  · -- From there on every bit is set.
    have all : ∀ i ∈ List.range (64 * ((numPages + 63) / 64) - numPages),
        (bit s.pager.freeBitmap ∘ (numPages + ·)) i = true := by
      intro i member
      have := List.mem_range.mp member
      exact tracks.padding (numPages + i) (by rw [tracks.size]; omega) (by omega)
    rw [List.countP_eq_length.mpr all, List.length_range]

/-- A block can be allocated exactly if some page is not. -/
theorem allocBlock_fails_iff {s : PagerState} {numPages : ℕ} (tracks : s.Tracks numPages)
    {b : KvCacheBlockAllocator} (same : b.pager = s.pager) :
    (∃ e, b.allocBlock = .error e) ↔ (Finset.range numPages \ s.allocated).card = 0 := by
  have refused : (∃ e, b.allocBlock = .error e) ↔ b.pager.allocatePages 1 = none := by
    unfold KvCacheBlockAllocator.allocBlock
    split
    next found => exact iff_of_true ⟨_, rfl⟩ found
    next found =>
      refine iff_of_false ?_ (by simp [found])
      rintro ⟨e, same⟩
      cases same
  rw [refused, same, s.pager.allocatePages_none_iff Nat.one_pos, Finset.card_eq_zero,
    Finset.eq_empty_iff_forall_notMem]
  refine forall_congr' fun q => not_congr ?_
  simp only [FreeRun, Nat.lt_one_iff, forall_eq, Nat.add_zero, tracks.free, decide_eq_true_eq,
    Finset.mem_sdiff, Finset.mem_range]

theorem card_free_add_allocated {s : PagerState} {numPages : ℕ} (tracks : s.Tracks numPages) :
    (Finset.range numPages \ s.allocated).card + s.allocated.card = numPages := by
  have inside : s.allocated ⊆ Finset.range numPages := fun q member =>
    Finset.mem_range.mpr (tracks.inside q member)
  rw [Finset.card_sdiff_add_card_eq_card inside, Finset.card_range]

/-- After any allocations and frees the counts are right exactly if the pages fill whole words or
none of them is allocated. -/
theorem freeCountLaw_iff (numPages pageSize : ℕ) (ops : List PagerOp) :
    (ops.foldl step (start numPages pageSize)).FreeCountLaw ↔
      numPages % 64 = 0 ∨ (ops.foldl step (start numPages pageSize)).allocated = ∅ := by
  have tracks := tracks_run numPages pageSize ops
  generalize ops.foldl step (start numPages pageSize) = s at tracks
  have count : s.pager.freePages = min ((Finset.range numPages \ s.allocated).card +
      (64 * ((numPages + 63) / 64) - numPages)) numPages := by
    rw [PagedIosurfaceAllocator.freePages, sum_countOnes_of_tracks tracks, tracks.size]
  have total := card_free_add_allocated tracks
  rw [← Finset.card_eq_zero]
  -- The padding is hidden by the cap exactly where all pages are free.
  constructor
  · intro law
    have right := law.freePages
    rw [count, tracks.size] at right
    omega
  · intro whole
    have right : s.pager.freePages = (Finset.range numPages \ s.allocated).card := by
      rw [count]
      omega
    refine ⟨by rw [right, tracks.size], fun b same => ⟨?_, ?_⟩⟩
    · rw [KvCacheBlockAllocator.allocatedBlocks, same, right, tracks.size]
      omega
    · rw [allocBlock_fails_iff tracks same, KvCacheBlockAllocator.isFull, same, right, beq_iff_eq]

/-- One page, allocated: 63 bits of its word are still set, and one free page is counted. -/
theorem onePage_countedFree :
    ¬([PagerOp.allocatePages 1].foldl step (start 1 512)).FreeCountLaw :=
  fun law => absurd law.freePages (by decide)

end PagerState

end TribunusCompute.Memory
