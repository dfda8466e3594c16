import TribunusCompute.Library.Bitmap
import Mathlib.Data.List.Range
import Mathlib.Data.List.Nodup

/-!
# The paged sub-allocator

`memory/allocator.rs`: `PagedIosurfaceAllocator`, a bitmap of free pages inside one
arena. The arena's memory itself is not modelled. Seen from outside, the
allocator is a set of free pages: `allocatePages` takes the lowest free run out
of it and `freePage` puts a page back.
-/
namespace TribunusCompute.Memory

open Bitmap

structure PagedIosurfaceAllocator where
  numPages : ℕ
  pageSize : ℕ
  /-- One bit per page, set while the page is free. -/
  freeBitmap : List Word
  words : freeBitmap.length = (numPages + 63) / 64

namespace PagedIosurfaceAllocator

def new (numPages pageSize : ℕ) : PagedIosurfaceAllocator where
  numPages := numPages
  pageSize := pageSize
  freeBitmap := List.replicate ((numPages + 63) / 64) (BitVec.allOnes 64)
  words := List.length_replicate

def isFree (a : PagedIosurfaceAllocator) (page : ℕ) : Bool :=
  decide (page < a.numPages) && bit a.freeBitmap page

def isAllocated (a : PagedIosurfaceAllocator) (page : ℕ) : Bool :=
  decide (page < a.numPages) && !bit a.freeBitmap page

/-- The inner loop of `allocate_pages`: `count` pages from `firstFree` on all exist and are free. -/
def runIsFree (a : PagedIosurfaceAllocator) (firstFree count : ℕ) : Bool :=
  (List.range count).all fun i =>
    let pg := firstFree + i
    !decide (a.numPages ≤ pg) && !(word a.freeBitmap (pg / 64) &&& mask (pg % 64) == 0#64)

/-- The outer loop of `allocate_pages`: the first page of the run it settles on. Each turn moves
`start` up, so `numPages` turns exhaust the bitmap. -/
def scan (a : PagedIosurfaceAllocator) (count : ℕ) : ℕ → ℕ → Option ℕ
  | 0, _ => none
  | turns + 1, start =>
    if start < a.numPages then
      let wordIdx := start / 64
      let bitOff := start % 64
      if a.freeBitmap.length ≤ wordIdx then none
      else
        let masked := word a.freeBitmap wordIdx &&& (BitVec.allOnes 64 <<< bitOff)
        if masked = 0#64 then scan a count turns ((wordIdx + 1) * 64)
        else
          let firstFree := wordIdx * 64 + trailingZeros masked
          if a.numPages ≤ firstFree then none
          else if a.runIsFree firstFree count then some firstFree
          else scan a count turns (firstFree + 1)
    else none

theorem length_foldl_clearBit (bm : List Word) (pages : List ℕ) :
    (pages.foldl clearBit bm).length = bm.length := by
  induction pages generalizing bm with
  | nil => rfl
  | cons p pages ih => simp only [List.foldl_cons, ih, length_clearBit]

/-- Clear the bits of the pages handed out. -/
def take (a : PagedIosurfaceAllocator) (pages : List ℕ) : PagedIosurfaceAllocator :=
  { a with
    freeBitmap := pages.foldl clearBit a.freeBitmap
    words := (length_foldl_clearBit _ _).trans a.words }

/-- Allocate a contiguous run of `count` pages; `none` leaves the bitmap as it is. -/
def allocatePages (a : PagedIosurfaceAllocator) (count : ℕ) :
    Option (List ℕ × PagedIosurfaceAllocator) :=
  (a.scan count a.numPages 0).map fun firstFree =>
    let run := (List.range count).map (firstFree + ·)
    (run, a.take run)

/-- Free a previously allocated page; out of range it does nothing. -/
def freePage (a : PagedIosurfaceAllocator) (page : ℕ) : PagedIosurfaceAllocator :=
  if a.numPages ≤ page then a
  else { a with
    freeBitmap := setBit a.freeBitmap page
    words := (length_setBit _ _).trans a.words }

/-- `for &page_id in pages { pager.free_page(page_id) }`. -/
def freeAll (a : PagedIosurfaceAllocator) (pages : List ℕ) : PagedIosurfaceAllocator :=
  pages.foldl freePage a

/-! ## The allocator as a set of free pages -/

section
variable (a : PagedIosurfaceAllocator)

theorem word_inside {page : ℕ} (h : page < a.numPages) : page / 64 < a.freeBitmap.length := by
  have := a.words
  omega

@[simp] theorem numPages_freePage (page : ℕ) : (a.freePage page).numPages = a.numPages := by
  unfold freePage
  split <;> rfl

@[simp] theorem numPages_freeAll (pages : List ℕ) : (a.freeAll pages).numPages = a.numPages := by
  induction pages generalizing a with
  | nil => rfl
  | cons p pages ih => exact (ih (a.freePage p)).trans (numPages_freePage a p)

theorem isAllocated_eq (page : ℕ) :
    a.isAllocated page = (decide (page < a.numPages) && !a.isFree page) := by
  unfold isAllocated isFree
  cases decide (page < a.numPages) <;> rfl

theorem isFree_lt {page : ℕ} (h : a.isFree page = true) : page < a.numPages := by
  simp only [isFree, Bool.and_eq_true, decide_eq_true_eq] at h
  exact h.1

theorem isFree_new (numPages pageSize page : ℕ) :
    (new numPages pageSize).isFree page = decide (page < numPages) := by
  unfold isFree
  by_cases inside : page < numPages
  · have read : bit (new numPages pageSize).freeBitmap page = true :=
      bit_replicate_allOnes _ _ (by omega)
    simp only [read, Bool.and_true]
    rfl
  · simp [new, inside]

theorem isFree_freePage (page q : ℕ) :
    (a.freePage page).isFree q = (a.isFree q || decide (q = page ∧ q < a.numPages)) := by
  unfold freePage
  split
  next beyond =>
    have never : ¬ (q = page ∧ q < a.numPages) := by omega
    simp [never]
  next inside =>
    simp only [isFree]
    rw [bit_setBit _ _ _ (a.word_inside (Nat.lt_of_not_le inside))]
    by_cases hq : q < a.numPages <;> simp [hq]

theorem isFree_freeAll (pages : List ℕ) (q : ℕ) :
    (a.freeAll pages).isFree q = (a.isFree q || decide (q ∈ pages ∧ q < a.numPages)) := by
  induction pages generalizing a with
  | nil => simp [freeAll]
  | cons p pages ih =>
    have step := ih (a.freePage p)
    rw [isFree_freePage, numPages_freePage] at step
    rw [show a.freeAll (p :: pages) = (a.freePage p).freeAll pages from rfl, step]
    simp only [List.mem_cons, or_and_right, Bool.decide_or, Bool.or_assoc]

theorem bit_foldl_clearBit (bm : List Word) (pages : List ℕ) (q : ℕ) :
    bit (pages.foldl clearBit bm) q = (bit bm q && !decide (q ∈ pages)) := by
  induction pages generalizing bm with
  | nil => simp
  | cons p pages ih =>
    rw [List.foldl_cons, ih, bit_clearBit]
    by_cases same : q = p <;> simp [same]

theorem isFree_take (pages : List ℕ) (q : ℕ) :
    (a.take pages).isFree q = (a.isFree q && !decide (q ∈ pages)) := by
  unfold isFree take
  simp only [bit_foldl_clearBit, Bool.and_assoc]

theorem runIsFree_iff (firstFree count : ℕ) :
    a.runIsFree firstFree count = true ↔ ∀ i < count, a.isFree (firstFree + i) = true := by
  simp only [runIsFree, List.all_eq_true, List.mem_range, Bool.and_eq_true, Bool.not_eq_true',
    decide_eq_false_iff_not, beq_eq_false_iff_ne, isFree, decide_eq_true_eq, Nat.not_le, ne_eq]
  refine forall₂_congr fun i _ => and_congr_right fun _ => ?_
  rw [and_mask_eq_zero_iff _ _ (Nat.mod_lt _ (by omega)), Bool.not_eq_false]
  rfl

/-- What the masked word says about the pages from `start` to the end of its word. -/
private theorem masked_bit (start i : ℕ) (hi : i < 64) :
    (word a.freeBitmap (start / 64) &&& (BitVec.allOnes 64 <<< (start % 64))).getLsbD i =
      (bit a.freeBitmap (start / 64 * 64 + i) && decide (start ≤ start / 64 * 64 + i)) := by
  rw [getLsbD_and_allOnes_shiftLeft _ _ _ hi, bit,
    show (start / 64 * 64 + i) / 64 = start / 64 by omega,
    show (start / 64 * 64 + i) % 64 = i by omega]
  congr 1
  apply decide_eq_decide.mpr
  omega

/-- A free page from which `count` pages are free. -/
def StartsRun (count g : ℕ) : Prop := a.isFree g = true ∧ a.runIsFree g count = true

/-- The right answer of a scan from `start`: the lowest page that starts a run, if there is one. -/
def LowestRun (count start : ℕ) : Option ℕ → Prop
  | some f => start ≤ f ∧ a.StartsRun count f ∧ ∀ g, start ≤ g → g < f → ¬ a.StartsRun count g
  | none => ∀ g, start ≤ g → ¬ a.StartsRun count g

variable {a} in
theorem LowestRun.skip {count start mid : ℕ} {r : Option ℕ} (h : a.LowestRun count mid r)
    (low : start ≤ mid) (nothing : ∀ g, start ≤ g → g < mid → ¬ a.StartsRun count g) :
    a.LowestRun count start r := by
  cases r with
  | none =>
    intro g hg
    by_cases early : g < mid
    · exact nothing g hg early
    · exact h g (Nat.le_of_not_lt early)
  | some f =>
    obtain ⟨above, starts, lowest⟩ := h
    refine ⟨Nat.le_trans low above, starts, fun g hg below => ?_⟩
    by_cases early : g < mid
    · exact nothing g hg early
    · exact lowest g (Nat.le_of_not_lt early) below

private theorem lowestRun_beyond {count start : ℕ} (beyond : a.numPages ≤ start) :
    a.LowestRun count start none := by
  intro g hg starts
  have := a.isFree_lt starts.1
  omega

/-- The scan finds the lowest run: `turns` suffice as soon as they cover the pages left. -/
theorem scan_lowestRun (count turns start : ℕ) (enough : a.numPages ≤ start + turns) :
    a.LowestRun count start (a.scan count turns start) := by
  -- every turn ends the scan or moves on past pages that start no run
  induction turns generalizing start with
  | zero => exact a.lowestRun_beyond (by omega)
  | succ turns ih =>
    rw [scan]
    by_cases more : start < a.numPages
    case neg =>
      rw [if_neg more]
      exact a.lowestRun_beyond (by omega)
    rw [if_pos more, if_neg (Nat.not_le.mpr (a.word_inside more))]
    by_cases blank : word a.freeBitmap (start / 64) &&& (BitVec.allOnes 64 <<< (start % 64)) = 0#64
    · -- No free page is left in this word, so the scan resumes at the next one.
      simp only [blank, if_true]
      apply (ih ((start / 64 + 1) * 64) (by omega)).skip (by omega)
      intro g low high starts
      have read := a.masked_bit start (g - start / 64 * 64) (by omega)
      rw [blank, BitVec.getLsbD_zero, show start / 64 * 64 + (g - start / 64 * 64) = g by omega,
        decide_eq_true low, Bool.and_true] at read
      have free := starts.1
      simp [isFree, ← read] at free
    · obtain ⟨tz, set, clear⟩ := getLsbD_trailingZeros _ blank
      simp only [blank, if_false]
      rw [a.masked_bit start _ tz, Bool.and_eq_true, decide_eq_true_eq] at set
      generalize first : start / 64 * 64 + trailingZeros (word a.freeBitmap (start / 64) &&&
        (BitVec.allOnes 64 <<< (start % 64))) = f at set
      have before : ∀ g, start ≤ g → g < f → ¬ a.StartsRun count g := by
        intro g low high starts
        have read := clear (g - start / 64 * 64) (by omega)
        rw [a.masked_bit start _ (by omega),
          show start / 64 * 64 + (g - start / 64 * 64) = g by omega, decide_eq_true low,
          Bool.and_true] at read
        have free := starts.1
        simp [isFree, read] at free
      -- the bits past the last page may be set: the first one may be no page
      by_cases beyond : a.numPages ≤ f
      · rw [if_pos beyond]
        exact (a.lowestRun_beyond beyond).skip set.2 before
      · rw [if_neg beyond]
        have free : a.isFree f = true := by
          simp [isFree, set.1, Nat.lt_of_not_le beyond]
        by_cases run : a.runIsFree f count = true
        · rw [if_pos run]
          exact ⟨set.2, ⟨free, run⟩, before⟩
        · rw [if_neg run]
          apply (ih (f + 1) (by omega)).skip (by omega)
          intro g low high starts
          by_cases here : g = f
          · exact run (here ▸ starts.2)
          · exact before g low (by omega) starts

theorem allocatePages_some {count : ℕ} {pages : List ℕ} {a' : PagedIosurfaceAllocator}
    (h : a.allocatePages count = some (pages, a')) :
    pages.Nodup ∧ pages.length = count ∧ (∀ q ∈ pages, a.isFree q = true) ∧
      a'.numPages = a.numPages ∧
      ∀ q, a'.isFree q = (a.isFree q && !decide (q ∈ pages)) := by
  simp only [allocatePages, Option.map_eq_some_iff, Prod.mk.injEq] at h
  obtain ⟨f, found, rfl, rfl⟩ := h
  have lowest := a.scan_lowestRun count a.numPages 0 (by omega)
  rw [found] at lowest
  obtain ⟨-, ⟨-, run⟩, -⟩ := lowest
  refine ⟨?_, by simp, ?_, rfl, fun q => a.isFree_take _ q⟩
  · exact List.nodup_range.map fun i j same => Nat.add_left_cancel same
  · intro q member
    obtain ⟨i, hi, rfl⟩ := List.mem_map.mp member
    exact (a.runIsFree_iff f count).mp run i (List.mem_range.mp hi)

end

end PagedIosurfaceAllocator

end TribunusCompute.Memory
