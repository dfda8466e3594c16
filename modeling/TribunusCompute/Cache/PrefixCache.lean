import Mathlib.Data.List.AList
import TribunusCompute.Library.LittleEndian
import TribunusCompute.Library.Lru

/-!
# The block-aware prefix cache

Token lists are cut into blocks of 64 tokens, the last one padded with zeros, and
cached by block hash in least-recently-used order. The standard hasher is a
parameter: a function from the words written to it to 64 bits.
-/
namespace TribunusCompute.Cache

def prefixBlockSize : ℕ := 64

abbrev BlockHash := List UInt8

structure BlockCacheEntry where
  blockHash : BlockHash
  blockIndex : ℕ
  deriving DecidableEq, Repr

structure CompressedBlockCacheEntry where
  blockHash : BlockHash
  pageIndex : ℕ
  tokenCount : UInt32
  deriving DecidableEq, Repr

structure PrefixCacheStats where
  hits : ℕ
  misses : ℕ
  cachedBlocks : ℕ
  evictedBlocks : ℕ
  deriving DecidableEq, Repr

def totalBlocks (tokens : List UInt32) : ℕ :=
  (tokens.length + prefixBlockSize - 1) / prefixBlockSize

def blockTokens (tokens : List UInt32) (blockIdx : ℕ) : List UInt32 :=
  let start := blockIdx * prefixBlockSize
  let stop := min (start + prefixBlockSize) tokens.length
  (tokens.take stop).drop start

theorem blockTokens_eq (tokens : List UInt32) (blockIdx : ℕ) :
    blockTokens tokens blockIdx = (tokens.drop (blockIdx * 64)).take 64 := by
  simp only [blockTokens, prefixBlockSize, List.drop_take]
  rw [List.take_eq_take_iff, List.length_drop]
  omega

/-- Up to 64 tokens, padded with zeros to 64. -/
def padBlock (tokens : List UInt32) : List UInt32 :=
  let n := min tokens.length prefixBlockSize
  tokens.take n ++ List.replicate (prefixBlockSize - n) 0

theorem padBlock_idem (tokens : List UInt32) : padBlock (padBlock tokens) = padBlock tokens := by
  have length : (padBlock tokens).length = prefixBlockSize := by
    simp only [padBlock, List.length_append, List.length_take, List.length_replicate]
    omega
  conv_lhs => rw [padBlock]
  simp only [length, Nat.min_self, Nat.sub_self, List.replicate_zero, List.append_nil]
  rw [← length, List.take_length]

/-- The 64-bit hash of the padded block, repeated with wrapping multiplies. -/
def computeBlockHash (hasher : List UInt32 → UInt64) (tokens : List UInt32) : BlockHash :=
  let result := hasher (padBlock tokens)
  LittleEndian.encode 8 result.toNat ++
    [1, 2, 3].flatMap fun i => LittleEndian.encode 8 (result * (UInt64.ofNat i + 1)).toNat

theorem computeBlockHash_padBlock (hasher : List UInt32 → UInt64) (tokens : List UInt32) :
    computeBlockHash hasher (padBlock tokens) = computeBlockHash hasher tokens := by
  simp only [computeBlockHash, padBlock_idem]

/-! ## A cache in least-recently-used order -/

/-- Entries by hash, and every cached hash once in the order of its last use. -/
structure LruCache (Entry : Type) where
  entries : AList (fun _ : BlockHash => Entry)
  lruOrder : List BlockHash
  nodup : lruOrder.Nodup
  agree : ∀ hash, hash ∈ lruOrder ↔ hash ∈ entries

namespace LruCache

variable {Entry : Type}

def empty : LruCache Entry where
  entries := ∅
  lruOrder := []
  nodup := .nil
  agree := by simp

def touchLru (q : LruCache Entry) (hash : BlockHash) : LruCache Entry :=
  if present : hash ∈ q.lruOrder then
    { q with
      lruOrder := q.lruOrder.erase hash ++ [hash]
      nodup := by
        refine List.nodup_append.mpr ⟨q.nodup.erase hash, by simp, ?_⟩
        rintro a old b new rfl
        exact (q.nodup.mem_erase_iff.mp old).1 (List.mem_singleton.mp new)
      agree := fun other => by
        rw [← q.agree, List.mem_append, q.nodup.mem_erase_iff, List.mem_singleton]
        rcases eq_or_ne other hash with rfl | apart
        · simp [present]
        · simp [apart] }
  else q

def pushBack (q : LruCache Entry) (hash : BlockHash) (entry : Entry)
    (absent : hash ∉ q.entries) : LruCache Entry where
  entries := q.entries.insert hash entry
  lruOrder := q.lruOrder ++ [hash]
  nodup := by
    refine List.nodup_append.mpr ⟨q.nodup, by simp, ?_⟩
    rintro a old b new rfl
    exact absent (List.mem_singleton.mp new ▸ (q.agree a).mp old)
  agree := fun other => by
    rw [List.mem_append, q.agree, List.mem_singleton, AList.mem_insert, or_comm]

/-- Remove the least recently used hash; `none` when there is none. -/
def popFront (q : LruCache Entry) : Option (LruCache Entry) :=
  match front : q.lruOrder with
  | [] => none
  | hash :: rest => some
    { entries := q.entries.erase hash
      lruOrder := rest
      nodup := (List.nodup_cons.mp (front ▸ q.nodup)).2
      agree := fun other => by
        have nodup := List.nodup_cons.mp (front ▸ q.nodup)
        rw [AList.mem_erase, ← q.agree, front, List.mem_cons]
        constructor
        · intro member
          exact ⟨fun same => nodup.1 (same ▸ member), .inr member⟩
        · rintro ⟨apart, same | member⟩
          · exact absurd same apart
          · exact member }

/-- Pop until at most `maxBlocks` entries are left, counting. The fuel is the length of the
order; without it the loop would spin on an empty order, which is `none`. -/
def evictLru (maxBlocks : ℕ) : ℕ → LruCache Entry → ℕ → Option (LruCache Entry × ℕ)
  | fuel, q, evictedBlocks =>
    if maxBlocks < q.entries.entries.length then
      match fuel with
      | 0 => none
      | fuel + 1 => do evictLru maxBlocks fuel (← q.popFront) (evictedBlocks + 1)
    else some (q, evictedBlocks)

theorem length_entries (q : LruCache Entry) : q.entries.entries.length = q.lruOrder.length := by
  have same : q.entries.keys.Perm q.lruOrder :=
    (List.perm_ext_iff_of_nodup q.entries.keys_nodup q.nodup).mpr fun hash =>
      (q.agree hash).symm
  rw [← same.length_eq, AList.keys, List.keys, List.length_map]

theorem touchLru_order {q : LruCache Entry} {hash : BlockHash} (present : hash ∈ q.lruOrder) :
    (q.touchLru hash).lruOrder = q.lruOrder.erase hash ++ [hash] := by
  rw [touchLru, dif_pos present]

theorem popFront_some {q : LruCache Entry} (some_ : q.lruOrder ≠ []) :
    ∃ q', q.popFront = some q' ∧ q'.lruOrder = q.lruOrder.tail := by
  unfold popFront
  split
  next none_ => exact absurd none_ some_
  next hash rest front => exact ⟨_, rfl, by simp [front]⟩

/-- The eviction loop ends, with the most recent `maxBlocks` hashes. -/
theorem evictLru_spec (maxBlocks evictedBlocks : ℕ) (q : LruCache Entry) :
    ∃ q', evictLru maxBlocks q.lruOrder.length q evictedBlocks =
        some (q', evictedBlocks + (q.lruOrder.length - maxBlocks)) ∧
      q'.lruOrder = q.lruOrder.rtake maxBlocks := by
  generalize fuelEq : q.lruOrder.length = fuel
  induction fuel generalizing q evictedBlocks with
  | zero =>
    refine ⟨q, ?_, (Lru.rtake_of_length_le (by omega)).symm⟩
    rw [evictLru, if_neg (by rw [length_entries]; omega), Nat.zero_sub, Nat.add_zero]
  | succ fuel ih =>
    rcases Nat.lt_or_ge maxBlocks (fuel + 1) with beyond | within
    · obtain ⟨p, popped, order⟩ := popFront_some (q := q) (by
        rintro none_
        simp [none_] at fuelEq)
      obtain ⟨q', rest, kept⟩ := ih (evictedBlocks + 1) p (by
        rw [order, List.length_tail, fuelEq, Nat.add_sub_cancel])
      refine ⟨q', ?_, ?_⟩
      · rw [evictLru, if_pos (by rw [length_entries]; omega)]
        simp only [popped, Option.bind_eq_bind, Option.bind_some, rest, Option.some.injEq,
          Prod.mk.injEq, true_and]
        omega
      · rw [kept, order, List.rtake, List.rtake, List.length_tail, fuelEq, ← List.drop_one,
          List.drop_drop]
        congr 1
        omega
    · refine ⟨q, ?_, (Lru.rtake_of_length_le (by omega)).symm⟩
      rw [evictLru, if_neg (by rw [length_entries]; omega), Nat.sub_eq_zero_of_le within,
        Nat.add_zero]

theorem touchLru_use {q : LruCache Entry} {hash : BlockHash} {maxBlocks : ℕ}
    (within : q.lruOrder.length ≤ maxBlocks) (present : hash ∈ q.entries) :
    (q.touchLru hash).lruOrder = Lru.touch maxBlocks q.lruOrder hash := by
  have old : hash ∈ q.lruOrder := (q.agree hash).mpr present
  rw [touchLru_order old, Lru.touch, Lru.rtake_of_length_le]
  rw [List.length_append, List.length_erase_of_mem old, List.length_singleton]
  have := List.length_pos_of_mem old
  omega

theorem pushBack_use {q : LruCache Entry} {hash : BlockHash} (maxBlocks evictedBlocks : ℕ)
    (entry : Entry) (absent : hash ∉ q.entries) :
    ∃ q' evicted, evictLru maxBlocks (q.pushBack hash entry absent).lruOrder.length
        (q.pushBack hash entry absent) evictedBlocks = some (q', evicted) ∧
      q'.lruOrder = Lru.touch maxBlocks q.lruOrder hash := by
  have new : hash ∉ q.lruOrder := (q.agree hash).not.mpr absent
  obtain ⟨q', evicts, order⟩ :=
    evictLru_spec maxBlocks evictedBlocks (q.pushBack hash entry absent)
  refine ⟨q', _, evicts, order.trans ?_⟩
  rw [Lru.touch, List.erase_of_not_mem new]
  rfl

end LruCache

/-! ## The cache manager -/

structure BlockAwarePrefixCache where
  uncompressed : LruCache BlockCacheEntry
  compressed : LruCache CompressedBlockCacheEntry
  maxBlocks : ℕ
  stats : PrefixCacheStats

namespace BlockAwarePrefixCache

def new (maxBlocks : ℕ) : BlockAwarePrefixCache where
  uncompressed := .empty
  compressed := .empty
  maxBlocks := maxBlocks
  stats := ⟨0, 0, 0, 0⟩

variable (hasher : List UInt32 → UInt64)

def blockHash (tokens : List UInt32) (blockIdx : ℕ) : BlockHash :=
  computeBlockHash hasher (blockTokens tokens blockIdx)

/-- The lookup loop over the blocks, which stops at the first miss. -/
def findFrom (c : BlockAwarePrefixCache) (tokens : List UInt32) :
    List ℕ → PrefixCacheStats → List BlockCacheEntry × PrefixCacheStats
  | [], stats => ([], stats)
  | blockIdx :: rest, stats =>
    match c.uncompressed.entries.lookup (blockHash hasher tokens blockIdx) with
    | some entry =>
      let (matched, stats) := findFrom c tokens rest { stats with hits := stats.hits + 1 }
      (entry :: matched, stats)
    | none => ([], { stats with misses := stats.misses + 1 })

/-- The matched entries, the number of tokens they stand for, and the updated statistics. -/
def findPrefix (c : BlockAwarePrefixCache) (tokens : List UInt32) :
    (List BlockCacheEntry × ℕ) × BlockAwarePrefixCache :=
  let (matched, stats) := c.findFrom hasher tokens (List.range (totalBlocks tokens)) c.stats
  ((matched, matched.length * prefixBlockSize), { c with stats := stats })

def insertBlock (tokens : List UInt32) (c : BlockAwarePrefixCache) (blockIdx : ℕ) :
    Option BlockAwarePrefixCache :=
  let hash := blockHash hasher tokens blockIdx
  if absent : hash ∉ c.uncompressed.entries then do
    let entry : BlockCacheEntry :=
      { blockHash := hash, blockIndex := c.stats.cachedBlocks + blockIdx }
    let grown := c.uncompressed.pushBack hash entry absent
    let (cache, evictedBlocks) ←
      grown.evictLru c.maxBlocks grown.lruOrder.length c.stats.evictedBlocks
    some
      { c with
        uncompressed := cache
        stats := { c.stats with
          cachedBlocks := c.stats.cachedBlocks + 1
          evictedBlocks := evictedBlocks } }
  else some { c with uncompressed := c.uncompressed.touchLru hash }

def insert (c : BlockAwarePrefixCache) (tokens : List UInt32) : Option BlockAwarePrefixCache :=
  Runs.exec (insertBlock hasher tokens) c (List.range (totalBlocks tokens))

end BlockAwarePrefixCache

end TribunusCompute.Cache
