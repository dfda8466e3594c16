import TribunusCompute.Memory.Pager

/-!
# The KV block allocator and its handles

`memory/allocator.rs`: `KvCacheBlockAllocator` adds a generation counter to every
page, and a `BlockHandle` remembers the generation it was given. A handle holds
its allocator weakly: the functions below take what the weak reference upgrades
to, `none` once the allocator is gone.
-/
namespace TribunusCompute.Memory

structure KvCacheBlockAllocator where
  pager : PagedIosurfaceAllocator
  /-- Per-page generation counters, incremented on each free. -/
  generations : List UInt32
  sized : generations.length = pager.numPages

namespace KvCacheBlockAllocator

def new (pager : PagedIosurfaceAllocator) : KvCacheBlockAllocator where
  pager := pager
  generations := List.replicate pager.numPages 0
  sized := List.length_replicate

def generationOf (a : KvCacheBlockAllocator) (index : ℕ) : UInt32 := a.generations.getD index 0

theorem numPages_of_allocatePages {a a' : PagedIosurfaceAllocator} {count : ℕ} {pages : List ℕ}
    (h : a.allocatePages count = some (pages, a')) : a'.numPages = a.numPages :=
  (a.allocatePages_some h).2.2.2.1

def allocBlock (a : KvCacheBlockAllocator) :
    Except String ((ℕ × UInt32) × KvCacheBlockAllocator) :=
  match h : a.pager.allocatePages 1 with
  | none => .error "KvCacheBlockAllocator: no free blocks available"
  | some (pages, pager) =>
    let idx := pages.headD 0
    .ok ((idx, a.generationOf idx),
      { a with pager := pager, sized := a.sized.trans (numPages_of_allocatePages h).symm })

/-- Free a block by page index and bump its generation. Out of range the source panics: `none`. -/
def freeBlock (a : KvCacheBlockAllocator) (index : ℕ) : Option KvCacheBlockAllocator :=
  if index < a.generations.length then
    some { a with
      pager := a.pager.freePage index
      generations := a.generations.set index (a.generationOf index + 1)
      sized := by rw [List.length_set, a.sized, PagedIosurfaceAllocator.numPages_freePage] }
  else none

/-! ## What the two operations do to pages and generations -/

theorem allocBlock_ok {a a' : KvCacheBlockAllocator} {idx : ℕ} {generation : UInt32}
    (h : a.allocBlock = .ok ((idx, generation), a')) :
    a.pager.isFree idx = true ∧ generation = a.generationOf idx ∧
      a'.pager.numPages = a.pager.numPages ∧ a'.generationOf = a.generationOf ∧
      ∀ q, a'.pager.isFree q = (a.pager.isFree q && !decide (q = idx)) := by
  unfold allocBlock at h
  split at h
  next => cases h
  next pages pager found =>
    obtain ⟨-, len, free, same, taken⟩ := a.pager.allocatePages_some found
    obtain ⟨p, rfl⟩ := List.length_eq_one_iff.mp len
    cases h
    refine ⟨free p (List.mem_singleton.mpr rfl), rfl, same, rfl, fun q => ?_⟩
    simpa using taken q

theorem freeBlock_some {a a' : KvCacheBlockAllocator} {index : ℕ}
    (h : a.freeBlock index = some a') :
    index < a.pager.numPages ∧ a'.pager.numPages = a.pager.numPages ∧
      (∀ q, a'.pager.isFree q = (a.pager.isFree q || decide (q = index))) ∧
      ∀ q, a'.generationOf q =
        if q = index then a.generationOf index + 1 else a.generationOf q := by
  unfold freeBlock at h
  split at h
  next inside =>
    cases h
    refine ⟨a.sized ▸ inside, a.pager.numPages_freePage index, ?_, ?_⟩
    · intro q
      rw [a.pager.isFree_freePage]
      by_cases same : q = index
      · simp [same, a.sized ▸ inside]
      · simp [same]
    · intro q
      simp only [generationOf, List.getD_eq_getElem?_getD, List.getElem?_set]
      by_cases same : q = index
      · simp [same, inside]
      · simp [same, Ne.symm same]
  next => cases h

end KvCacheBlockAllocator

structure BlockHandle where
  pageIndex : ℕ
  /-- Generation at allocation time. -/
  generation : UInt32
  /-- Set when the holder has freed the block by other means. -/
  freed : Bool
  deriving DecidableEq, Repr

namespace BlockHandle

def new (index : ℕ) (generation : UInt32) : BlockHandle :=
  { pageIndex := index, generation := generation, freed := false }

def isValid (h : BlockHandle) (allocator : Option KvCacheBlockAllocator) : Option Bool :=
  allocator.map fun a =>
    if a.generations.length ≤ h.pageIndex then false
    else a.generationOf h.pageIndex == h.generation

/-- `Drop for BlockHandle`: the block is freed by its page index. The outer `none` is a panic. -/
def drop (h : BlockHandle) (allocator : Option KvCacheBlockAllocator) :
    Option (Option KvCacheBlockAllocator) :=
  if h.freed then some allocator
  else match allocator with
    | none => some none
    | some a => (a.freeBlock h.pageIndex).map some

theorem isValid_iff (h : BlockHandle) (a : KvCacheBlockAllocator) :
    h.isValid (some a) = some true ↔
      h.pageIndex < a.pager.numPages ∧ a.generationOf h.pageIndex = h.generation := by
  simp only [isValid, Option.map_some, Option.some.injEq, a.sized]
  split
  next beyond => simp [Nat.not_lt.mpr beyond]
  next inside => simp [Nat.lt_of_not_le inside]

end BlockHandle

end TribunusCompute.Memory
