import TribunusCompute.Library.Runs
import TribunusCompute.KvArena.Arena

/-!
# Reference counts over runs of the arena

A party that is handed a block holds a reference until it releases it. The
counts, the free list and the slots agree as long as no freed block comes back
through the prefix index and no admission stops halfway.
-/
namespace TribunusCompute.KvArena

open KvBlockArena

/-- What has happened to slots: handed out anew, or registered for a content hash. -/
inductive ArenaEvent
  | handedOut (id : PhysicalBlockId)
  | registered (hash : PrefixHash) (id : PhysicalBlockId)
  deriving DecidableEq, Repr

inductive ArenaOp
  | tryAllocate
  | allocatePrefixed (hash : PrefixHash)
  | admitSequence (tokenCount : UInt32) (seq : SequenceId)
  | evictOne
  | release (id : PhysicalBlockId)
  deriving DecidableEq, Repr

/-- The arena, the references its clients hold, and the events so far, the latest first. -/
structure System where
  arena : KvBlockArena
  held : List PhysicalBlockId
  history : List ArenaEvent

namespace System

def start (plan : KvCachePlan) (backend : BackendAffinity) : System where
  arena := .fromPlan plan backend
  held := []
  history := []

/-- The slots an admission re-initialises, whether or not it succeeds. -/
def admitted (a : KvBlockArena) (tokenCount : UInt32) : List PhysicalBlockId :=
  match tokensToBlocks tokenCount.toNat a.blockSize with
  | none => []
  | some n => ((a.allocateBlocks n).map fun (ids, _) => ids).getD []

/-- One operation; `none` when it panics or releases a reference nobody holds. -/
def step (s : System) : ArenaOp → Option System
  | .tryAllocate => do
    match ← s.arena.tryAllocate with
    | (.ok id, a) =>
      some { arena := a, held := id :: s.held, history := .handedOut id :: s.history }
    | (.error _, a) => some { s with arena := a }
  | .allocatePrefixed hash => do
    let (id, a) ← s.arena.allocatePrefixed hash
    some
      { arena := a
        held := id :: s.held
        history :=
          if (s.arena.prefixCache.index.lookup hash).isSome then s.history
          else .registered hash id :: s.history }
  | .admitSequence tokenCount seq => do
    let (result, a) ← s.arena.admitSequence tokenCount seq
    some
      { arena := a
        held :=
          match result with
          | .ok receipt => receipt.allocatedBlocks ++ s.held
          | .error _ => s.held
        history := (admitted s.arena tokenCount).reverse.map .handedOut ++ s.history }
  | .evictOne => some { s with arena := s.arena.evictOne.2 }
  | .release id =>
    if id ∈ s.held then some { s with arena := s.arena.release id, held := s.held.erase id }
    else none

/-! ## Counted arenas -/

/-- Refcounts count the references held, and the free list is the slots nobody references. -/
structure Counted (a : KvBlockArena) (held : List PhysicalBlockId) : Prop where
  counted : ∀ i b, a.blocks[i]? = some b → b.refcount.toNat = held.count (UInt32.ofNat i)
  live : ∀ id ∈ held, id.toNat < a.blocks.length
  freeNodup : a.freeList.Nodup
  freeExact : ∀ i, i ∈ a.freeList ↔ ∃ b, a.blocks[i]? = some b ∧ b.refcount = 0

variable {a a' : KvBlockArena} {held : List PhysicalBlockId} {id : PhysicalBlockId}

theorem counted_start (plan : KvCachePlan) (backend : BackendAffinity) :
    Counted (.fromPlan plan backend) [] where
  counted := by simp [fromPlan]
  live := by simp
  freeNodup := by simp [fromPlan]
  freeExact := by simp [fromPlan]

theorem refused_allocation {e : ArenaError} (alloc : Allocation a (.error e) a') :
    a' = a ∧ a.availableBlocks = 0 := by
  cases alloc with
  | refused exhausted full none_eligible =>
    exact ⟨rfl, by simp [availableBlocks, exhausted, full]⟩

namespace Counted

theorem perm {held' : List PhysicalBlockId} (h : Counted a held) (same : held.Perm held') :
    Counted a held' where
  counted := fun i b at_i => (h.counted i b at_i).trans (same.count_eq _)
  live := fun id member => h.live id (same.mem_iff.mpr member)
  freeNodup := h.freeNodup
  freeExact := h.freeExact

theorem congr (h : Counted a held) (blocks : a'.blocks = a.blocks)
    (free : a'.freeList = a.freeList) : Counted a' held where
  counted := blocks ▸ h.counted
  live := blocks ▸ h.live
  freeNodup := free ▸ h.freeNodup
  freeExact := by simpa only [blocks, free] using h.freeExact

theorem none_eligible (h : Counted a held) : a.evictionCandidate = none := by
  cases chosen : a.evictionCandidate with
  | none => rfl
  | some c =>
    obtain ⟨at_i, unreferenced, notFree⟩ := evictionCandidate_some chosen
    exact absurd ((h.freeExact _).mpr ⟨_, at_i, unreferenced⟩) notFree

theorem unreferenced_of_free (h : Counted a held) {i : ℕ} (free : i ∈ a.freeList) :
    UInt32.ofNat i ∉ held := by
  obtain ⟨b, at_i, zero⟩ := (h.freeExact i).mp free
  have := h.counted i b at_i
  rw [zero] at this
  exact List.count_eq_zero.mp this.symm

/-- Handing out a slot: its fresh block has the one reference of the new holder. -/
private theorem handOut (h : Counted a held) {idx : ℕ} (unheld : UInt32.ofNat idx ∉ held)
    (small : idx < 2 ^ 32) (notFree : idx ∉ a'.freeList)
    (grows : a.blocks.length ≤ a'.blocks.length)
    (own : ∃ b, a'.blocks[idx]? = some b ∧ b.refcount = 1)
    (others : ∀ i, i ≠ idx → a'.blocks[i]? = a.blocks[i]? ∧ (i ∈ a'.freeList ↔ i ∈ a.freeList))
    (nodup : a'.freeList.Nodup) : Counted a' (UInt32.ofNat idx :: held) := by
  obtain ⟨b₀, at_idx, one⟩ := own
  have slot : (UInt32.ofNat idx).toNat = idx := UInt32.toNat_ofNat_of_lt' small
  refine ⟨fun i b at_i => ?_, ?_, nodup, fun i => ?_⟩
  · rcases eq_or_ne i idx with rfl | apart
    · obtain rfl : b = b₀ := Option.some.inj (at_i.symm.trans at_idx)
      rw [List.count_cons_self, List.count_eq_zero.mpr unheld, one]
      rfl
    · have distinct : UInt32.ofNat idx ≠ UInt32.ofNat i := by
        intro same
        have inRange := (List.getElem?_eq_some_iff.mp at_i).1
        rw [← a'.toNat_ofNat_slot inRange, ← same, slot] at apart
        exact apart rfl
      rw [List.count_cons_of_ne distinct]
      exact h.counted i b ((others i apart).1 ▸ at_i)
  · intro id member
    rcases List.mem_cons.mp member with rfl | old
    · rw [slot]
      exact (List.getElem?_eq_some_iff.mp at_idx).1
    · exact (h.live id old).trans_le grows
  · rcases eq_or_ne i idx with rfl | apart
    · refine iff_of_false notFree ?_
      rintro ⟨b, at_i, zero⟩
      obtain rfl : b = b₀ := Option.some.inj (at_i.symm.trans at_idx)
      rw [one] at zero
      exact absurd zero (by decide)
    · rw [(others i apart).2, (others i apart).1]
      exact h.freeExact i

theorem allocation (h : Counted a held) (alloc : Allocation a (.ok id) a') :
    Counted a' (id :: held) ∧ id ∉ held ∧ a.availableBlocks = a'.availableBlocks + 1 := by
  cases alloc with
  | recycled idx _ popped blocks cache capacity =>
    have free : idx ∈ a.freeList := by simp [popped]
    have inRange := a.freeInRange idx free
    have unheld := h.unreferenced_of_free free
    have nodup := List.nodup_append.mp (popped ▸ h.freeNodup)
    have notFree : idx ∉ a'.freeList := fun member => nodup.2.2 idx member idx (by simp) rfl
    refine ⟨h.handOut unheld (by have := a.withinCapacity; have := a.capacityFits; omega) notFree
      (by simp [blocks]) ⟨_, by rw [blocks, List.getElem?_set_self inRange], rfl⟩ ?_ nodup.1,
      unheld, ?_⟩
    · intro i apart
      exact ⟨by rw [blocks, List.getElem?_set_ne apart.symm], by simp [popped, apart]⟩
    · simp only [availableBlocks, popped, blocks, capacity, List.length_set, List.length_append,
        List.length_singleton]
      omega
  | evicted b idx _ exhausted full chosen =>
    -- Every block without references is in the free list already.
    cases h.none_eligible.symm.trans chosen
  | fresh _ exhausted room free blocks cache capacity =>
    have small : a.blocks.length < 2 ^ 32 := room.trans a.capacityFits
    have unheld : UInt32.ofNat a.blocks.length ∉ held := by
      intro member
      have := h.live _ member
      rw [UInt32.toNat_ofNat_of_lt' small] at this
      omega
    refine ⟨h.handOut unheld small (by simp [free]) (by simp [blocks])
      ⟨_, by rw [blocks, List.getElem?_concat_length], rfl⟩ ?_ (by simp [free]), unheld, ?_⟩
    · intro i apart
      refine ⟨?_, by simp [free, exhausted]⟩
      rw [blocks, List.getElem?_append]
      split
      next => rfl
      next outside =>
        rw [List.getElem?_eq_none (Nat.le_of_not_lt outside), List.getElem?_eq_none]
        simp only [List.length_singleton]
        omega
    · simp only [availableBlocks, free, exhausted, blocks, capacity, List.length_append,
        List.length_singleton, List.length_nil]
      omega

/-- The admission loop hands out distinct blocks nobody holds, as many as are available. -/
theorem allocateBlocks {n : ℕ} {ids : List PhysicalBlockId} {error : Option ArenaError}
    (h : Counted a held) (run : a.allocateBlocks n = some (ids, error, a')) :
    Counted a' (ids ++ held) ∧ ids.Nodup ∧ (∀ id ∈ ids, id ∉ held) ∧
      ids.length = min n a.availableBlocks ∧ (error = none ↔ n ≤ a.availableBlocks) := by
  induction n generalizing a held ids with
  | zero =>
    cases run
    exact ⟨h, .nil, by simp, by simp, by simp⟩
  | succ n ih =>
    rcases allocateBlocks_succ run with ⟨id, a₁, rest, first, rfl, later⟩ | ⟨e, first, rfl, rfl⟩
    · obtain ⟨h₁, unheld, room⟩ := h.allocation (tryAllocate_some first)
      obtain ⟨counted, nodup, apart, length, success⟩ := ih h₁ later
      refine ⟨counted.perm List.perm_middle, ?_, ?_, ?_, ?_⟩
      · exact List.nodup_cons.mpr ⟨fun again => apart id again (by simp), nodup⟩
      · intro id' member
        rcases List.mem_cons.mp member with rfl | later
        · exact unheld
        · exact fun old => apart id' later (List.mem_cons_of_mem _ old)
      · rw [List.length_cons, length, room]
        omega
      · rw [success, room]
        omega
    · obtain ⟨rfl, full⟩ := refused_allocation (tryAllocate_some first)
      exact ⟨h, .nil, by simp, by simp [full], by simp [full]⟩

theorem hit (h : Counted a held) {b : PhysicalBlock} (at_id : a.blocks[id.toNat]? = some b)
    (referenced : b.refcount ≠ 0) (room : b.refcount.toNat + 1 < 2 ^ 64)
    (blocks : a'.blocks = a.blocks.modify id.toNat .incRef) (free : a'.freeList = a.freeList) :
    Counted a' (id :: held) := by
  have bumped : (b.refcount + 1).toNat = b.refcount.toNat + 1 := by
    rw [UInt64.toNat_add]
    exact Nat.mod_eq_of_lt room
  have inRange := (List.getElem?_eq_some_iff.mp at_id).1
  refine ⟨fun i c at_i => ?_, ?_, free ▸ h.freeNodup, fun i => ?_⟩
  · rw [blocks, List.getElem?_modify] at at_i
    obtain ⟨old, before, rfl⟩ := Option.map_eq_some_iff.mp at_i
    split
    next same =>
      subst same
      obtain rfl : old = b := Option.some.inj (before.symm.trans at_id)
      have counted := h.counted _ _ before
      rw [UInt32.ofNat_toNat] at counted ⊢
      simp only [PhysicalBlock.incRef, bumped, List.count_cons_self, counted]
    next apart =>
      have distinct : id ≠ UInt32.ofNat i := by
        rintro rfl
        exact apart (a.toNat_ofNat_slot (List.getElem?_eq_some_iff.mp before).1)
      rw [List.count_cons_of_ne distinct]
      exact h.counted i old before
  · intro id' member
    rw [blocks, List.length_modify]
    rcases List.mem_cons.mp member with rfl | old
    · exact inRange
    · exact h.live id' old
  · rw [free, blocks, h.freeExact, List.getElem?_modify]
    rcases eq_or_ne id.toNat i with rfl | apart
    · -- The block was referenced before and is after, so its slot is not free.
      simp only [at_id, Option.map_eq_map, Option.map_some, if_pos, Option.some.injEq,
        exists_eq_left', PhysicalBlock.incRef]
      refine iff_of_false referenced fun wrapped => ?_
      rw [wrapped] at bumped
      cases bumped
    · simp [apart]

/-- A hit keeps the counts right exactly if its block is referenced and can count one more. -/
theorem hit_iff (h : Counted a held) (blocks : a'.blocks = a.blocks.modify id.toNat .incRef)
    (free : a'.freeList = a.freeList) :
    Counted a' (id :: held) ↔
      ∃ b, a.blocks[id.toNat]? = some b ∧ b.refcount ≠ 0 ∧ b.refcount.toNat + 1 < 2 ^ 64 := by
  constructor
  · intro after
    have inRange := after.live id List.mem_cons_self
    rw [blocks, List.length_modify] at inRange
    refine ⟨_, List.getElem?_eq_getElem inRange, ?_, ?_⟩
    · -- A block without references is free, and stays in the free list when revived.
      intro zero
      have wasFree := (h.freeExact _).mpr ⟨_, List.getElem?_eq_getElem inRange, zero⟩
      obtain ⟨b, at_id, stillZero⟩ := (after.freeExact _).mp (free ▸ wasFree)
      rw [blocks, List.getElem?_modify_eq, List.getElem?_eq_getElem inRange] at at_id
      cases at_id
      simp only [PhysicalBlock.incRef, zero] at stillZero
      exact absurd stillZero (by decide)
    · -- A count that wraps around forgets the references handed out.
      by_contra full
      have limit := a.blocks[id.toNat].refcount.toNat_lt
      have counted := after.counted id.toNat _ (by
        rw [blocks, List.getElem?_modify_eq, List.getElem?_eq_getElem inRange]
        rfl)
      rw [UInt32.ofNat_toNat, List.count_cons_self, PhysicalBlock.incRef, UInt64.toNat_add]
        at counted
      simp only [UInt64.reduceToNat] at counted
      omega
  · rintro ⟨b, at_id, referenced, room⟩
    exact h.hit at_id referenced room blocks free

/-- An admission that fails keeps the counts right exactly if it has allocated nothing: nobody
holds the blocks it has allocated. -/
theorem failed_iff {n : ℕ} {ids : List PhysicalBlockId} {e : ArenaError} (h : Counted a held)
    (run : a.allocateBlocks n = some (ids, some e, a')) :
    Counted a' held ↔ n ≤ a.availableBlocks ∨ a.availableBlocks = 0 := by
  obtain ⟨after, -, -, length, success⟩ := h.allocateBlocks run
  have failed : ¬ n ≤ a.availableBlocks := success.not.mp (by simp)
  constructor
  · intro kept
    right
    cases ids with
    | nil => simpa [Nat.le_of_not_le failed] using length.symm
    | cons id rest =>
      have inRange := after.live id (by simp)
      obtain ⟨b, at_id⟩ : ∃ b, a'.blocks[id.toNat]? = some b :=
        ⟨_, List.getElem?_eq_getElem inRange⟩
      -- the count of the first block includes its allocation, the references held do not
      have counted := after.counted _ _ at_id
      have dropped := kept.counted _ _ at_id
      rw [UInt32.ofNat_toNat] at counted dropped
      rw [dropped] at counted
      simp only [List.cons_append, List.count_cons_self, List.count_append] at counted
      omega
  · rintro (enough | full)
    · exact absurd enough failed
    · obtain rfl : ids = [] := by simpa [full] using length
      exact after

theorem evictOne (h : Counted a held) : a.evictOne.2 = a := by
  rw [evictOne_none h.none_eligible]

/-- Giving a reference back; the slot of the last one is recycled. -/
theorem release (h : Counted a held) (member : id ∈ held) :
    Counted (a.release id) (held.erase id) := by
  have inRange := h.live id member
  obtain ⟨b, at_id⟩ : ∃ b, a.blocks[id.toNat]? = some b := ⟨_, List.getElem?_eq_getElem inRange⟩
  have counted := h.counted _ _ at_id
  rw [UInt32.ofNat_toNat] at counted
  have positive : 0 < held.count id := List.count_pos_iff.mpr member
  have lowered : (b.refcount - 1).toNat = b.refcount.toNat - 1 :=
    UInt64.toNat_sub_of_le _ _ (by rw [UInt64.le_iff_toNat_le, counted]; exact positive)
  have notFree : id.toNat ∉ a.freeList := by
    intro free
    exact h.unreferenced_of_free free (by rwa [UInt32.ofNat_toNat])
  -- the source compares before it counts down
  have last : b.refcount = 1 ↔ b.refcount - 1 = 0 := by
    rw [← UInt64.toNat_inj, ← UInt64.toNat_inj, lowered]
    simp only [UInt64.reduceToNat]
    omega
  refine ⟨fun i c at_i => ?_, ?_, ?_, fun i => ?_⟩
  · rw [release_blocks, List.getElem?_modify] at at_i
    obtain ⟨old, before, rfl⟩ := Option.map_eq_some_iff.mp at_i
    split
    next same =>
      subst same
      obtain rfl : old = b := Option.some.inj (before.symm.trans at_id)
      rw [UInt32.ofNat_toNat, List.count_erase_self, PhysicalBlock.decRef, lowered, counted]
    next apart =>
      have distinct : UInt32.ofNat i ≠ id := by
        rintro rfl
        exact apart (a.toNat_ofNat_slot (List.getElem?_eq_some_iff.mp before).1)
      rw [List.count_erase_of_ne distinct]
      exact h.counted i old before
  · intro id' old
    rw [release_blocks, List.length_modify]
    exact h.live id' (List.mem_of_mem_erase old)
  · rw [release_freeList at_id]
    split
    -- a referenced block was not in the free list before
    next =>
      refine List.nodup_append.mpr ⟨h.freeNodup, by simp, ?_⟩
      rintro i free j member rfl
      exact notFree (List.mem_singleton.mp member ▸ free)
    next => exact h.freeNodup
  · rw [release_freeList at_id, release_blocks, List.getElem?_modify]
    rcases eq_or_ne id.toNat i with rfl | apart
    · simp only [at_id, Option.map_eq_map, Option.map_some, if_pos, Option.some.injEq,
        exists_eq_left', PhysicalBlock.decRef, ← last]
      split
      next one => simp [one]
      next more => simp [more, notFree]
    · have := h.freeExact i
      split <;> simp [apart.symm, this]

end Counted

/-! ## The law over runs -/

/-- The reference-count law: counts are the references held, free slots are the unreferenced
ones, and no allocation returns a block somebody holds. -/
structure RefcountLaw (s : System) : Prop where
  counted : ∀ i b, s.arena.blocks[i]? = some b →
    b.refcount.toNat = s.held.count (UInt32.ofNat i)
  live : ∀ id ∈ s.held, id.toNat < s.arena.blocks.length
  freeNodup : s.arena.freeList.Nodup
  freeExact : ∀ i, i ∈ s.arena.freeList ↔ ∃ b, s.arena.blocks[i]? = some b ∧ b.refcount = 0
  ids : ∀ i (b : PhysicalBlock), s.arena.blocks[i]? = some b → b.id.toNat = i
  bounded : s.arena.blocks.length ≤ s.arena.capacity
  allocatesUnheld : ∀ id a, s.arena.tryAllocate = some (.ok id, a) → id ∉ s.held
  admitsUnheld : ∀ tokenCount seq receipt a,
    s.arena.admitSequence tokenCount seq = some (.ok receipt, a) →
      receipt.allocatedBlocks.Nodup ∧ ∀ id ∈ receipt.allocatedBlocks, id ∉ s.held

/-- A prefix hit is on a block that is referenced, below the counter's limit, and an admission
finds all its blocks or none. -/
def KeepsCounts (s : System) : ArenaOp → Prop
  | .allocatePrefixed hash => ∀ id ∈ s.arena.prefixCache.index.lookup hash,
      ∃ b ∈ s.arena.blocks[id.toNat]?, b.refcount ≠ 0 ∧ b.refcount.toNat + 1 < 2 ^ 64
  | .admitSequence tokenCount _ => ∀ n ∈ tokensToBlocks tokenCount.toNat s.arena.blockSize,
      n ≤ s.arena.availableBlocks ∨ s.arena.availableBlocks = 0
  | _ => True

instance (s : System) (op : ArenaOp) : Decidable (s.KeepsCounts op) :=
  match op with
  -- Bounded by the option: an instance for finite types would try every block id.
  | .allocatePrefixed hash =>
      Option.decidableForallMem (s.arena.prefixCache.index.lookup hash)
  | .admitSequence tokenCount _ =>
      Option.decidableForallMem (tokensToBlocks tokenCount.toNat s.arena.blockSize)
  | .tryAllocate | .evictOne | .release _ => isTrue trivial

theorem refcountLaw_iff (s : System) : s.RefcountLaw ↔ Counted s.arena s.held := by
  constructor
  · intro law
    exact ⟨law.counted, law.live, law.freeNodup, law.freeExact⟩
  · intro h
    refine ⟨h.counted, h.live, h.freeNodup, h.freeExact, ?_, s.arena.withinCapacity, ?_, ?_⟩
    · intro i b at_i
      rw [s.arena.ids i b at_i]
      exact s.arena.toNat_ofNat_slot (List.getElem?_eq_some_iff.mp at_i).1
    · intro id a allocated
      exact (h.allocation (tryAllocate_some allocated)).2.1
    · intro tokenCount seq receipt a admitted
      obtain ⟨n, ids, error, a₁, -, run, -, -, -, outcome⟩ := admitSequence_cases admitted
      rcases outcome with ⟨e, -, failed⟩ | ⟨-, receipt', same, blocks⟩
      · cases failed
      · cases same
        rw [blocks]
        exact ⟨(h.allocateBlocks run).2.1, (h.allocateBlocks run).2.2.1⟩

theorem counted_step_iff {s t : System} {op : ArenaOp} (h : Counted s.arena s.held)
    (taken : s.step op = some t) : Counted t.arena t.held ↔ s.KeepsCounts op := by
  cases op with
  | tryAllocate =>
    refine iff_of_true ?_ trivial
    simp only [step, Option.bind_eq_bind] at taken
    obtain ⟨⟨result, a⟩, allocated, taken⟩ := Option.bind_eq_some_iff.mp taken
    cases result with
    | ok id =>
      cases taken
      exact (h.allocation (tryAllocate_some allocated)).1
    | error e =>
      cases taken
      obtain ⟨rfl, -⟩ := refused_allocation (tryAllocate_some allocated)
      exact h
  | allocatePrefixed hash =>
    simp only [step, Option.bind_eq_bind] at taken
    obtain ⟨⟨id, a⟩, allocated, taken⟩ := Option.bind_eq_some_iff.mp taken
    cases taken
    rcases allocatePrefixed_cases allocated with
      ⟨found, blocks, free, -⟩ | ⟨missed, a₁, allocation, same⟩
    -- a hit hands out a block that another sequence may hold
    · simp only [KeepsCounts, found, Option.mem_def, Option.some.injEq, forall_eq']
      exact h.hit_iff blocks free
    · refine iff_of_true ?_ (by simp [KeepsCounts, missed])
      subst same
      exact (h.allocation allocation).1.congr rfl rfl
  | admitSequence tokenCount seq =>
    simp only [step, Option.bind_eq_bind] at taken
    obtain ⟨⟨result, a⟩, admitted, taken⟩ := Option.bind_eq_some_iff.mp taken
    cases taken
    obtain ⟨n, ids, error, a₁, needed, run, blocks, free, -, outcome⟩ :=
      admitSequence_cases admitted
    -- a refused admission keeps the blocks that it has taken so far
    simp only [KeepsCounts, needed, Option.mem_def, Option.some.injEq, forall_eq']
    rcases outcome with ⟨e, rfl, rfl⟩ | ⟨rfl, receipt, rfl, same⟩
    · rw [← h.failed_iff run]
      exact ⟨fun kept => kept.congr blocks.symm free.symm, fun kept => kept.congr blocks free⟩
    · -- The blocks of an admitted sequence are all held by it.
      obtain ⟨after, -, -, -, success⟩ := h.allocateBlocks run
      refine iff_of_true ?_ (.inl (success.mp rfl))
      simp only [same]
      exact after.congr blocks free
  | evictOne =>
    cases taken
    exact iff_of_true (h.evictOne.symm ▸ h) trivial
  | release id =>
    refine iff_of_true ?_ trivial
    simp only [step] at taken
    split at taken
    next member =>
      cases taken
      exact h.release member
    next => cases taken

/-- Along a run the law holds exactly where every step keeps the counts. -/
theorem refcountLaw_iff_keepsCounts (plan : KvCachePlan) (backend : BackendAffinity)
    (ops : List ArenaOp) (t : System) (run : Runs.exec step (start plan backend) ops = some t) :
    Runs.Always step RefcountLaw (start plan backend) ops ↔
      Runs.Guarded step KeepsCounts (start plan backend) ops := by
  refine Runs.always_iff_guarded step (fun _ law => law) ?_ ?_ ?_ run
  · intro s op t law keeps taken
    rw [refcountLaw_iff] at law ⊢
    exact (counted_step_iff law taken).mpr keeps
  · intro s op t law taken after
    rw [refcountLaw_iff] at law after
    exact (counted_step_iff law taken).mp after
  · exact (refcountLaw_iff _).mpr (counted_start plan backend)

/-- A shared prefix block, its release and an admission keep the law. -/
theorem refcountLaw_sharedBlock :
    Runs.Always step RefcountLaw (start .default .hostPinned)
      [.allocatePrefixed 7, .allocatePrefixed 7, .release 0, .admitSequence 40 1, .tryAllocate] :=
  (refcountLaw_iff_keepsCounts .default .hostPinned _ _ rfl).mpr (by decide)

/-- A hit on a released block leaves it in the free list, and it is handed out again. -/
theorem revivedBlock_breaks_law :
    ∃ t, Runs.exec step (start .default .hostPinned)
        [.allocatePrefixed 7, .release 0, .allocatePrefixed 7] = some t ∧
      0 ∈ t.held ∧ ¬t.RefcountLaw := by
  refine ⟨_, rfl, by decide, fun law => ?_⟩
  exact law.allocatesUnheld 0 _ rfl (by decide)

end System

end TribunusCompute.KvArena
