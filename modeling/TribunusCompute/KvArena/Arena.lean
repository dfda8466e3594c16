import Mathlib.Algebra.Group.Nat.Defs
import Mathlib.Data.List.AList
import Mathlib.Data.List.MinMax
import Mathlib.Data.Prod.Lex

/-!
# The paged KV cache arena

Physical blocks with reference counts, a free list of slot indices, a prefix
index from content hashes to block ids, and the five operations of the arena.
Every operation is described by what it can do, once.
-/
namespace TribunusCompute.KvArena

inductive BackendAffinity
  | mlxMetal
  | candleCpu
  | tensix
  | intelLevelZero
  | hostPinned
  | ane
  deriving DecidableEq, Repr

abbrev PhysicalBlockId := UInt32
abbrev SequenceId := UInt64
abbrev PrefixHash := UInt64

/-- A physical block. Its atomics wrap around at `2^64`. -/
structure PhysicalBlock where
  id : PhysicalBlockId
  blockSize : ℕ
  tokenCount : UInt64
  refcount : UInt64
  lastAccessNs : UInt64
  backend : BackendAffinity
  deriving DecidableEq, Repr

namespace PhysicalBlock

def new (id : PhysicalBlockId) (blockSize : ℕ) (backend : BackendAffinity) : PhysicalBlock where
  id := id
  blockSize := blockSize
  tokenCount := 0
  refcount := 1
  lastAccessNs := 0
  backend := backend

def decRef (b : PhysicalBlock) : PhysicalBlock := { b with refcount := b.refcount - 1 }

def incRef (b : PhysicalBlock) : PhysicalBlock := { b with refcount := b.refcount + 1 }

def isCompletelyFree (b : PhysicalBlock) : Bool := b.refcount == 0

@[simp] theorem isCompletelyFree_iff (b : PhysicalBlock) :
    b.isCompletelyFree = true ↔ b.refcount = 0 := by
  simp [isCompletelyFree]

end PhysicalBlock

/-- Ceiling division; `none` is the division by zero. -/
def tokensToBlocks (numTokens blockSize : ℕ) : Option ℕ :=
  if blockSize = 0 then none else some ((numTokens + blockSize - 1) / blockSize)

/-! ## The prefix index -/

structure PrefixCacheIndex where
  index : AList (fun _ : PrefixHash => PhysicalBlockId)
  hits : AList (fun _ : PrefixHash => UInt64)

namespace PrefixCacheIndex

def new : PrefixCacheIndex := ⟨∅, ∅⟩

def lookup (p : PrefixCacheIndex) (hash : PrefixHash) :
    Option PhysicalBlockId × PrefixCacheIndex :=
  match p.index.lookup hash with
  | some blockId =>
    (some blockId, { p with hits := p.hits.insert hash ((p.hits.lookup hash).getD 0 + 1) })
  | none => (none, p)

def insert (p : PrefixCacheIndex) (hash : PrefixHash) (blockId : PhysicalBlockId) :
    PrefixCacheIndex where
  index := p.index.insert hash blockId
  hits := p.hits.insert hash ((p.hits.lookup hash).getD 0)

def remove (p : PrefixCacheIndex) (hash : PrefixHash) : PrefixCacheIndex where
  index := p.index.erase hash
  hits := p.hits.erase hash

def Unmapped (p : PrefixCacheIndex) (id : PhysicalBlockId) : Prop :=
  ∀ hash, p.index.lookup hash ≠ some id

instance (p : PrefixCacheIndex) (id : PhysicalBlockId) : Decidable (p.Unmapped id) :=
  have := List.decidableBAll (fun entry : Σ _ : PrefixHash, PhysicalBlockId => entry.2 ≠ id)
    p.index.entries
  decidable_of_iff (∀ entry ∈ p.index.entries, entry.2 ≠ id) <| by
    constructor
    · intro apart hash found
      exact apart ⟨hash, id⟩ (AList.mem_lookup_iff.mp found) rfl
    · rintro unmapped ⟨hash, id'⟩ member rfl
      exact unmapped hash (AList.mem_lookup_iff.mpr member)

end PrefixCacheIndex

/-! ## The arena -/

structure KvCachePlan where
  blockTokens : UInt32
  maxBlocks : UInt32
  evictionPolicy : String

def KvCachePlan.default : KvCachePlan where
  blockTokens := 32
  maxBlocks := 4096
  evictionPolicy := "lru"

inductive ArenaError
  | capacityExceeded (requested available total : ℕ)
  | backendMismatch (expected actual : BackendAffinity)
  | outOfMemory (attempted available : ℕ)
  deriving DecidableEq, Repr

structure LogicalBlockTable where
  sequenceId : SequenceId
  logicalToPhysical : List PhysicalBlockId
  tokenCount : UInt64
  maxBlocks : ℕ
  deriving DecidableEq, Repr

structure AdmissionReceipt where
  sequenceId : SequenceId
  allocatedBlocks : List PhysicalBlockId
  totalTokens : UInt64
  totalBlocks : ℕ
  bytesAllocated : ℕ
  prefixHits : ℕ
  newBlocks : ℕ
  deriving DecidableEq, Repr

/-- An arena whose slots carry their own index as id and whose free list names slots. No
operation can leave these, so indexing a block never panics. -/
structure KvBlockArena where
  blocks : List PhysicalBlock
  freeList : List ℕ
  blockSize : ℕ
  capacity : ℕ
  backend : BackendAffinity
  prefixCache : PrefixCacheIndex
  logicalTables : List LogicalBlockTable
  evictionPolicy : String
  capacityFits : capacity < 2 ^ 32
  withinCapacity : blocks.length ≤ capacity
  ids : ∀ i b, blocks[i]? = some b → b.id = UInt32.ofNat i
  freeInRange : ∀ i ∈ freeList, i < blocks.length

namespace KvBlockArena

def fromPlan (plan : KvCachePlan) (backend : BackendAffinity) : KvBlockArena where
  blocks := []
  freeList := []
  blockSize := plan.blockTokens.toNat
  capacity := plan.maxBlocks.toNat
  backend := backend
  prefixCache := .new
  logicalTables := []
  evictionPolicy := plan.evictionPolicy
  capacityFits := plan.maxBlocks.toNat_lt
  withinCapacity := Nat.zero_le _
  ids := by simp
  freeInRange := by simp

def new (blockSize capacity : ℕ) (backend : BackendAffinity) : KvBlockArena :=
  fromPlan { KvCachePlan.default with
    blockTokens := UInt32.ofNat blockSize
    maxBlocks := UInt32.ofNat capacity } backend

/-- `free_list.pop()` -/
def popFree (a : KvBlockArena) : Option (ℕ × KvBlockArena) :=
  a.freeList.getLast?.map fun idx =>
    (idx, { a with
      freeList := a.freeList.dropLast
      freeInRange := fun i member => a.freeInRange i (List.dropLast_subset _ member) })

/-- `blocks[idx] = PhysicalBlock::new(PhysicalBlockId(idx as u32), ..)` -/
def reinitialize (a : KvBlockArena) (idx : ℕ) : KvBlockArena :=
  { a with
    blocks := a.blocks.set idx (.new (UInt32.ofNat idx) a.blockSize a.backend)
    withinCapacity := by simpa using a.withinCapacity
    ids := by
      intro i b at_i
      rcases eq_or_ne idx i with rfl | apart
      · rw [List.getElem?_set_self'] at at_i
        obtain ⟨_, -, rfl⟩ := Option.map_eq_some_iff.mp at_i
        rfl
      · exact a.ids i b (by simpa [apart] using at_i)
    freeInRange := by simpa using a.freeInRange }

def updateBlock (a : KvBlockArena) (idx : ℕ) (f : PhysicalBlock → PhysicalBlock)
    (sameId : ∀ b, (f b).id = b.id) : KvBlockArena :=
  { a with
    blocks := a.blocks.modify idx f
    withinCapacity := by simpa using a.withinCapacity
    ids := by
      intro i b at_i
      rw [List.getElem?_modify] at at_i
      obtain ⟨old, before, rfl⟩ := Option.map_eq_some_iff.mp at_i
      split
      next => rw [sameId, a.ids i old before]
      next => exact a.ids i old before
    freeInRange := by simpa using a.freeInRange }

/-- `blocks.push(PhysicalBlock::new(..))` -/
def pushFresh (a : KvBlockArena) (room : a.blocks.length < a.capacity) : KvBlockArena :=
  { a with
    blocks := a.blocks ++ [.new (UInt32.ofNat a.blocks.length) a.blockSize a.backend]
    withinCapacity := by simpa [Nat.succ_le_iff] using room
    ids := by
      intro i b at_i
      rw [List.getElem?_append] at at_i
      split at at_i
      next => exact a.ids i b at_i
      next outside =>
        rw [List.getElem?_singleton] at at_i
        split at at_i
        next first =>
          obtain rfl : i = a.blocks.length := by omega
          cases at_i
          rfl
        next => cases at_i
    freeInRange := by
      intro i member
      have := a.freeInRange i member
      simp only [List.length_append]
      omega }

/-- `free_list.push(idx)` -/
def pushFree (a : KvBlockArena) (idx : ℕ) (inRange : idx < a.blocks.length) : KvBlockArena :=
  { a with
    freeList := a.freeList ++ [idx]
    freeInRange := by
      intro i member
      rcases List.mem_append.mp member with old | new
      · exact a.freeInRange i old
      · rwa [List.mem_singleton.mp new] }

/-- The blocks without references that are not recycled yet, with their slots. -/
def eligible (a : KvBlockArena) : List (PhysicalBlock × ℕ) :=
  (a.blocks.zipIdx.filter fun (b, _) => b.isCompletelyFree).filter
    fun (_, i) => !a.freeList.contains i

/-- The block the eviction policy chooses; `"lru"` is the default. -/
def evictionCandidate (a : KvBlockArena) : Option (PhysicalBlock × ℕ) :=
  if a.evictionPolicy = "fifo" then a.eligible.argmin fun (_, i) => i
  else if a.evictionPolicy = "lru_refcount" then
    a.eligible.argmin fun (b, _) => toLex (b.refcount.toNat, b.lastAccessNs.toNat)
  else a.eligible.argmin fun (b, _) => b.lastAccessNs.toNat

theorem evictionCandidate_mem {a : KvBlockArena} {c : PhysicalBlock × ℕ}
    (chosen : a.evictionCandidate = some c) : c ∈ a.eligible := by
  unfold evictionCandidate at chosen
  split at chosen
  next => exact List.argmin_mem chosen
  next =>
    split at chosen
    next => exact List.argmin_mem chosen
    next => exact List.argmin_mem chosen

theorem eligible_iff (a : KvBlockArena) (b : PhysicalBlock) (i : ℕ) :
    (b, i) ∈ a.eligible ↔ a.blocks[i]? = some b ∧ b.refcount = 0 ∧ i ∉ a.freeList := by
  simp only [eligible, List.mem_filter, List.mem_zipIdx_iff_getElem?,
    PhysicalBlock.isCompletelyFree_iff, List.contains_eq_mem, Bool.not_eq_true',
    decide_eq_false_iff_not, and_assoc]

theorem evictionCandidate_some {a : KvBlockArena} {b : PhysicalBlock} {i : ℕ}
    (chosen : a.evictionCandidate = some (b, i)) :
    a.blocks[i]? = some b ∧ b.refcount = 0 ∧ i ∉ a.freeList :=
  (eligible_iff a b i).mp (evictionCandidate_mem chosen)

theorem evictionCandidate_inRange {a : KvBlockArena} {b : PhysicalBlock} {i : ℕ}
    (chosen : a.evictionCandidate = some (b, i)) : i < a.blocks.length :=
  (List.getElem?_eq_some_iff.mp (evictionCandidate_some chosen).1).1

/-- Removes the entry keyed by the block's id, and recycles its slot. -/
def evictOne (a : KvBlockArena) : Option PhysicalBlockId × KvBlockArena :=
  match chosen : a.evictionCandidate with
  | none => (none, a)
  | some (block, idx) =>
    (some block.id, pushFree
      { a with prefixCache := a.prefixCache.remove block.id.toUInt64 } idx
      (evictionCandidate_inRange chosen))

/-- `none` would be the panic of the `unwrap` after an eviction. -/
def tryAllocate (a : KvBlockArena) : Option (Except ArenaError PhysicalBlockId × KvBlockArena) :=
  match a.popFree with
  | some (idx, a') => some (.ok (UInt32.ofNat idx), a'.reinitialize idx)
  | none =>
    if full : a.capacity ≤ a.blocks.length then
      match a.evictOne with
      | (some _, a') =>
        match a'.popFree with
        | some (idx, a'') => some (.ok (UInt32.ofNat idx), a''.reinitialize idx)
        | none => none
      | (none, a') => some (.error (.capacityExceeded 1 0 a'.capacity), a')
    else some (.ok (UInt32.ofNat a.blocks.length), a.pushFresh (Nat.lt_of_not_le full))

def release (a : KvBlockArena) (id : PhysicalBlockId) : KvBlockArena :=
  if inRange : id.toNat < a.blocks.length then
    let released := a.updateBlock id.toNat .decRef fun _ => rfl
    if a.blocks[id.toNat].decRef.isCompletelyFree then
      released.pushFree id.toNat (by simpa [released, updateBlock] using inRange)
    else released
  else a

def incRefOf (a : KvBlockArena) (cachedId : PhysicalBlockId) : KvBlockArena :=
  match a.blocks.findIdx? (fun b => b.id == cachedId) with
  | some idx => a.updateBlock idx .incRef fun _ => rfl
  | none => a

/-- `none` when no block can be had, which panics. -/
def allocatePrefixed (a : KvBlockArena) (hash : PrefixHash) :
    Option (PhysicalBlockId × KvBlockArena) :=
  match a.prefixCache.lookup hash with
  | (some cachedId, cache) => some (cachedId, { a with prefixCache := cache }.incRefOf cachedId)
  | (none, _) => do
    let (id, a') ← match ← a.tryAllocate with
      | (.ok id, a') => some (id, a')
      | (.error _, a') =>
        -- Fallback: evict and retry.
        match ← a'.evictOne.2.tryAllocate with
        | (.ok id, a'') => some (id, a'')
        | (.error _, _) => none
    some (id, { a' with prefixCache := a'.prefixCache.insert hash id })

/-- The allocation loop of `admit_sequence`: the blocks allocated, and the error that ended it
early, if one did. -/
def allocateBlocks : ℕ → KvBlockArena →
    Option (List PhysicalBlockId × Option ArenaError × KvBlockArena)
  | 0, a => some ([], none, a)
  | n + 1, a => do
    match ← a.tryAllocate with
    | (.ok id, a') =>
      let (ids, error, a'') ← allocateBlocks n a'
      some (id :: ids, error, a'')
    | (.error e, a') => some ([], some e, a')

/-- `seq` is what the global counter of sequence ids hands out. -/
def admitSequence (a : KvBlockArena) (tokenCount : UInt32) (seq : SequenceId) :
    Option (Except ArenaError AdmissionReceipt × KvBlockArena) := do
  let blocksNeeded ← tokensToBlocks tokenCount.toNat a.blockSize
  match ← a.allocateBlocks blocksNeeded with
  | (_, some e, a') => some (.error e, a')
  | (allocated, none, a') =>
    let table : LogicalBlockTable :=
      { sequenceId := seq
        logicalToPhysical := allocated
        tokenCount := tokenCount.toUInt64
        maxBlocks := a'.capacity }
    let bytesPerBlock := a'.blockSize * 4 * 2
    some (.ok
      { sequenceId := seq
        allocatedBlocks := allocated
        totalTokens := tokenCount.toUInt64
        totalBlocks := blocksNeeded
        bytesAllocated := allocated.length * bytesPerBlock
        prefixHits := 0
        newBlocks := blocksNeeded },
      { a' with logicalTables := a'.logicalTables ++ [table] })

def availableBlocks (a : KvBlockArena) : ℕ :=
  (a.capacity - a.blocks.length) + a.freeList.length

/-! ## What the operations do -/

theorem toNat_ofNat_slot (a : KvBlockArena) {i : ℕ} (inRange : i < a.blocks.length) :
    (UInt32.ofNat i).toNat = i :=
  UInt32.toNat_ofNat_of_lt' (lt_of_lt_of_le inRange (a.withinCapacity.trans a.capacityFits.le))

theorem popFree_none_iff (a : KvBlockArena) : a.popFree = none ↔ a.freeList = [] := by
  simp [popFree]

theorem popFree_some {a a' : KvBlockArena} {idx : ℕ} (popped : a.popFree = some (idx, a')) :
    a.freeList = a'.freeList ++ [idx] ∧ a'.blocks = a.blocks ∧ a'.blockSize = a.blockSize ∧
      a'.backend = a.backend ∧ a'.prefixCache = a.prefixCache ∧ a'.capacity = a.capacity := by
  obtain ⟨last, found, same⟩ := Option.map_eq_some_iff.mp popped
  cases same
  exact ⟨(List.dropLast_append_getLast? idx found).symm, rfl, rfl, rfl, rfl, rfl⟩

inductive Allocation (a : KvBlockArena) : Except ArenaError PhysicalBlockId → KvBlockArena → Prop
  | recycled (idx : ℕ) (a' : KvBlockArena)
      (popped : a.freeList = a'.freeList ++ [idx])
      (blocks : a'.blocks = a.blocks.set idx (.new (UInt32.ofNat idx) a.blockSize a.backend))
      (cache : a'.prefixCache = a.prefixCache) (capacity : a'.capacity = a.capacity) :
      Allocation a (.ok (UInt32.ofNat idx)) a'
  | evicted (b : PhysicalBlock) (idx : ℕ) (a' : KvBlockArena)
      (exhausted : a.freeList = []) (full : a.capacity ≤ a.blocks.length)
      (chosen : a.evictionCandidate = some (b, idx)) (free : a'.freeList = [])
      (blocks : a'.blocks = a.blocks.set idx (.new (UInt32.ofNat idx) a.blockSize a.backend))
      (cache : a'.prefixCache = a.prefixCache.remove b.id.toUInt64)
      (capacity : a'.capacity = a.capacity) :
      Allocation a (.ok (UInt32.ofNat idx)) a'
  | refused (exhausted : a.freeList = []) (full : a.capacity ≤ a.blocks.length)
      (none_eligible : a.evictionCandidate = none) :
      Allocation a (.error (.capacityExceeded 1 0 a.capacity)) a
  | fresh (a' : KvBlockArena)
      (exhausted : a.freeList = []) (room : a.blocks.length < a.capacity)
      (free : a'.freeList = [])
      (blocks : a'.blocks =
        a.blocks ++ [.new (UInt32.ofNat a.blocks.length) a.blockSize a.backend])
      (cache : a'.prefixCache = a.prefixCache) (capacity : a'.capacity = a.capacity) :
      Allocation a (.ok (UInt32.ofNat a.blocks.length)) a'

theorem evictOne_none {a : KvBlockArena} (none_eligible : a.evictionCandidate = none) :
    a.evictOne = (none, a) := by
  unfold evictOne
  split
  next => rfl
  next _ _ chosen => cases none_eligible.symm.trans chosen

theorem evictOne_some {a : KvBlockArena} {b : PhysicalBlock} {idx : ℕ}
    (chosen : a.evictionCandidate = some (b, idx)) :
    ∃ e, a.evictOne = (some b.id, e) ∧ e.freeList = a.freeList ++ [idx] ∧
      e.blocks = a.blocks ∧ e.blockSize = a.blockSize ∧ e.backend = a.backend ∧
      e.prefixCache = a.prefixCache.remove b.id.toUInt64 ∧ e.capacity = a.capacity := by
  unfold evictOne
  split
  next none_eligible => cases none_eligible.symm.trans chosen
  next b' idx' chosen' =>
    obtain ⟨rfl, rfl⟩ := Prod.mk.inj (Option.some.inj (chosen'.symm.trans chosen))
    exact ⟨_, rfl, rfl, rfl, rfl, rfl, rfl, rfl⟩

/-- Allocation never panics, and goes one of the four ways. -/
theorem tryAllocate_spec (a : KvBlockArena) :
    ∃ result a', a.tryAllocate = some (result, a') ∧ Allocation a result a' := by
  cases popped : a.popFree with
  | some slot =>
    obtain ⟨idx, a'⟩ := slot
    obtain ⟨free, blocks, size, backend, cache, capacity⟩ := popFree_some popped
    refine ⟨.ok (UInt32.ofNat idx), a'.reinitialize idx, by simp only [tryAllocate, popped], ?_⟩
    exact .recycled idx _ free (by rw [← blocks, ← size, ← backend]; rfl) cache capacity
  | none =>
    have exhausted := a.popFree_none_iff.mp popped
    rcases Nat.lt_or_ge a.blocks.length a.capacity with room | full
    · refine ⟨_, _, ?_, .fresh (a.pushFresh room) exhausted room exhausted rfl rfl rfl⟩
      simp only [tryAllocate, popped, dif_neg (Nat.not_le.mpr room)]
    · cases chosen : a.evictionCandidate with
      | none =>
        refine ⟨_, _, ?_, .refused exhausted full chosen⟩
        simp only [tryAllocate, popped, dif_pos full, evictOne_none chosen]
      | some c =>
        -- The slot the eviction pushed is the one popped again.
        obtain ⟨b, idx⟩ := c
        obtain ⟨e, evicted, pushed, blocks, size, backend, cache, capacity⟩ := evictOne_some chosen
        rw [exhausted, List.nil_append] at pushed
        cases again : e.popFree with
        | none => simp [pushed, popFree_none_iff] at again
        | some slot =>
          obtain ⟨idx', a'⟩ := slot
          obtain ⟨free, blocks', size', backend', cache', capacity'⟩ := popFree_some again
          obtain ⟨emptied, rfl⟩ : a'.freeList = [] ∧ idx = idx' := by
            cases rest : a'.freeList <;> simp_all
          refine ⟨.ok (UInt32.ofNat idx), a'.reinitialize idx, ?_, ?_⟩
          · simp only [tryAllocate, popped, dif_pos full, evicted, again]
          · refine .evicted b idx _ exhausted full chosen emptied ?_ (cache'.trans cache)
              (capacity'.trans capacity)
            rw [← blocks, ← size, ← backend, ← blocks', ← size', ← backend']
            rfl

theorem tryAllocate_some {a a' : KvBlockArena} {result : Except ArenaError PhysicalBlockId}
    (allocated : a.tryAllocate = some (result, a')) : Allocation a result a' := by
  obtain ⟨result', a'', allocated', allocation⟩ := tryAllocate_spec a
  obtain ⟨rfl, rfl⟩ := Prod.mk.inj (Option.some.inj (allocated.symm.trans allocated'))
  exact allocation

theorem incRefOf_blocks (a : KvBlockArena) (id : PhysicalBlockId) :
    (a.incRefOf id).blocks = a.blocks.modify id.toNat .incRef := by
  unfold incRefOf
  split
  next idx found =>
    -- The block carrying the id is the one in the id's own slot.
    obtain ⟨inRange, same, -⟩ := List.findIdx?_eq_some_iff_getElem.mp found
    have own := a.ids idx _ (List.getElem?_eq_getElem inRange)
    have same : a.blocks[idx].id = id := by simpa using same
    have slot : id.toNat = idx := by rw [← same, own, a.toNat_ofNat_slot inRange]
    rw [slot]
    rfl
  next absent =>
    have outside : a.blocks.length ≤ id.toNat := by
      by_contra inside
      have inRange : id.toNat < a.blocks.length := Nat.lt_of_not_le inside
      have own := a.ids _ _ (List.getElem?_eq_getElem inRange)
      rw [UInt32.ofNat_toNat] at own
      have := List.findIdx?_eq_none_iff.mp absent _ (List.getElem_mem inRange)
      simp [own] at this
    rw [List.modify_eq_self outside]

@[simp] theorem incRefOf_freeList (a : KvBlockArena) (id : PhysicalBlockId) :
    (a.incRefOf id).freeList = a.freeList := by
  unfold incRefOf
  split <;> rfl

@[simp] theorem incRefOf_prefixCache (a : KvBlockArena) (id : PhysicalBlockId) :
    (a.incRefOf id).prefixCache = a.prefixCache := by
  unfold incRefOf
  split <;> rfl

theorem allocatePrefixed_cases {a a' : KvBlockArena} {hash : PrefixHash} {id : PhysicalBlockId}
    (allocated : a.allocatePrefixed hash = some (id, a')) :
    (a.prefixCache.index.lookup hash = some id ∧
      a'.blocks = a.blocks.modify id.toNat .incRef ∧ a'.freeList = a.freeList ∧
      a'.prefixCache.index = a.prefixCache.index) ∨
    (a.prefixCache.index.lookup hash = none ∧
      ∃ a₁, Allocation a (.ok id) a₁ ∧
        a' = { a₁ with prefixCache := a₁.prefixCache.insert hash id }) := by
  cases found : a.prefixCache.index.lookup hash with
  | some cachedId =>
    simp only [allocatePrefixed, PrefixCacheIndex.lookup, found, Option.some.injEq,
      Prod.mk.injEq] at allocated
    obtain ⟨rfl, rfl⟩ := allocated
    exact .inl ⟨rfl, incRefOf_blocks _ _, by simp, by simp⟩
  | none =>
    right
    obtain ⟨result, a₁, first, allocation⟩ := tryAllocate_spec a
    simp only [allocatePrefixed, PrefixCacheIndex.lookup, found, first, Option.bind_eq_bind,
      Option.bind_some] at allocated
    cases allocation with
    | recycled idx a₁ popped blocks cache capacity =>
      cases allocated
      exact ⟨rfl, _, .recycled idx a₁ popped blocks cache capacity, rfl⟩
    | evicted b idx a₁ exhausted full chosen free blocks cache capacity =>
      cases allocated
      exact ⟨rfl, _, .evicted b idx a₁ exhausted full chosen free blocks cache capacity, rfl⟩
    | fresh a₁ exhausted room free blocks cache capacity =>
      cases allocated
      exact ⟨rfl, _, .fresh a₁ exhausted room free blocks cache capacity, rfl⟩
    | refused exhausted full none_eligible =>
      -- The retry meets the same arena, so it is refused too and the code panics.
      simp [evictOne_none none_eligible, first] at allocated

theorem release_blocks (a : KvBlockArena) (id : PhysicalBlockId) :
    (a.release id).blocks = a.blocks.modify id.toNat .decRef := by
  simp only [release]
  split
  next => split <;> rfl
  next outside => rw [List.modify_eq_self (Nat.le_of_not_lt outside)]

theorem release_freeList {a : KvBlockArena} {id : PhysicalBlockId} {b : PhysicalBlock}
    (at_id : a.blocks[id.toNat]? = some b) :
    (a.release id).freeList =
      if b.refcount = 1 then a.freeList ++ [id.toNat] else a.freeList := by
  obtain ⟨inRange, rfl⟩ := List.getElem?_eq_some_iff.mp at_id
  have last (n : UInt64) : n - 1 = 0 ↔ n = 1 := by
    constructor
    · intro zero
      have := UInt64.sub_add_cancel n 1
      rw [← this, zero]
      rfl
    · rintro rfl
      rfl
  simp only [release, dif_pos inRange, PhysicalBlock.isCompletelyFree_iff, PhysicalBlock.decRef,
    last]
  split <;> rfl

@[simp] theorem release_prefixCache (a : KvBlockArena) (id : PhysicalBlockId) :
    (a.release id).prefixCache = a.prefixCache := by
  simp only [release]
  split
  next => split <;> rfl
  next => rfl

theorem allocateBlocks_succ {n : ℕ} {a a' : KvBlockArena} {ids : List PhysicalBlockId}
    {error : Option ArenaError} (run : allocateBlocks (n + 1) a = some (ids, error, a')) :
    (∃ id a₁ rest, a.tryAllocate = some (.ok id, a₁) ∧ ids = id :: rest ∧
      allocateBlocks n a₁ = some (rest, error, a')) ∨
    (∃ e, a.tryAllocate = some (.error e, a') ∧ ids = [] ∧ error = some e) := by
  obtain ⟨result, a₁, first, -⟩ := tryAllocate_spec a
  simp only [allocateBlocks, first, Option.bind_eq_bind, Option.bind_some] at run
  cases result with
  | ok id =>
    obtain ⟨⟨rest, error', a''⟩, later, same⟩ := Option.bind_eq_some_iff.mp run
    cases same
    exact .inl ⟨id, a₁, rest, first, rfl, later⟩
  | error e =>
    cases run
    exact .inr ⟨e, first, rfl, rfl⟩

theorem admitSequence_cases {a a' : KvBlockArena} {tokenCount : UInt32} {seq : SequenceId}
    {result : Except ArenaError AdmissionReceipt}
    (admitted : a.admitSequence tokenCount seq = some (result, a')) :
    ∃ n ids error a₁, tokensToBlocks tokenCount.toNat a.blockSize = some n ∧
      a.allocateBlocks n = some (ids, error, a₁) ∧ a'.blocks = a₁.blocks ∧
      a'.freeList = a₁.freeList ∧ a'.prefixCache = a₁.prefixCache ∧
      ((∃ e, error = some e ∧ result = .error e) ∨
        (error = none ∧ ∃ receipt, result = .ok receipt ∧ receipt.allocatedBlocks = ids)) := by
  simp only [admitSequence, Option.bind_eq_bind] at admitted
  obtain ⟨n, needed, admitted⟩ := Option.bind_eq_some_iff.mp admitted
  obtain ⟨⟨ids, error, a₁⟩, run, admitted⟩ := Option.bind_eq_some_iff.mp admitted
  refine ⟨n, ids, error, a₁, needed, run, ?_⟩
  cases error with
  | some e =>
    cases admitted
    exact ⟨rfl, rfl, rfl, .inl ⟨e, rfl, rfl⟩⟩
  | none =>
    cases admitted
    exact ⟨rfl, rfl, rfl, .inr ⟨rfl, _, rfl, rfl⟩⟩

end KvBlockArena

end TribunusCompute.KvArena
