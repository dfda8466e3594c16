import TribunusCompute.Cache.PrefixCache

/-!
# What a prefix hit stands for

After any insertions the cache holds the most recent distinct blocks of what was
inserted, whatever list and position they come from. A lookup is sound where the
blocks it matches continue one inserted list from its start and no padded tail
is among them.
-/
namespace TribunusCompute.Cache

def paddedBlocks (tokens : List UInt32) : List (List UInt32) :=
  (List.range (totalBlocks tokens)).map fun blockIdx => padBlock (blockTokens tokens blockIdx)

/-- The hash tells the given blocks apart. -/
def CollisionFree (hasher : List UInt32 → UInt64) (blocks : List (List UInt32)) : Prop :=
  ∀ x ∈ blocks, ∀ y ∈ blocks, computeBlockHash hasher x = computeBlockHash hasher y → x = y

instance (hasher : List UInt32 → UInt64) (blocks : List (List UInt32)) :
    Decidable (CollisionFree hasher blocks) :=
  inferInstanceAs (Decidable (∀ x ∈ blocks, ∀ y ∈ blocks, _ → _))

/-- The padded blocks a cache of `maxBlocks` blocks keeps of its insertions. -/
def keptBlocks (maxBlocks : ℕ) (inserted : List (List UInt32)) : List (List UInt32) :=
  Lru.recent maxBlocks (inserted.flatMap paddedBlocks)

/-- The reported tokens are tokens of the query, and begin an inserted list. -/
def MatchSound (inserted : List (List UInt32)) (tokens : List UInt32) (matchedTokens : ℕ) : Prop :=
  matchedTokens ≤ tokens.length ∧ ∃ u ∈ inserted, tokens.take matchedTokens <+: u

/-- Something has been inserted; a padded tail is not kept together with all blocks before it;
and full blocks that are kept from the first on continue one inserted list. -/
def Continues (maxBlocks : ℕ) (inserted : List (List UInt32)) (tokens : List UInt32) : Prop :=
  inserted ≠ [] ∧
  (tokens.length % prefixBlockSize ≠ 0 →
    ∃ i < totalBlocks tokens, padBlock (blockTokens tokens i) ∉ keptBlocks maxBlocks inserted) ∧
  ∀ k < tokens.length / prefixBlockSize,
    (∀ i < k + 1, padBlock (blockTokens tokens i) ∈ keptBlocks maxBlocks inserted) →
      ∃ u ∈ inserted, ∀ i < k + 1, blockTokens u i = blockTokens tokens i

instance (maxBlocks : ℕ) (inserted : List (List UInt32)) (tokens : List UInt32) :
    Decidable (Continues maxBlocks inserted tokens) :=
  inferInstanceAs (Decidable (_ ∧ (_ → _) ∧ _))

/-! ## Insertions keep the most recent blocks -/

namespace BlockAwarePrefixCache

variable (hasher : List UInt32 → UInt64)

theorem insertBlock_spec (tokens : List UInt32) {c : BlockAwarePrefixCache}
    (within : c.uncompressed.lruOrder.length ≤ c.maxBlocks) (blockIdx : ℕ) :
    ∃ c', c.insertBlock hasher tokens blockIdx = some c' ∧ c'.maxBlocks = c.maxBlocks ∧
      c'.uncompressed.lruOrder =
        Lru.touch c.maxBlocks c.uncompressed.lruOrder (blockHash hasher tokens blockIdx) ∧
      c'.compressed = c.compressed := by
  rcases em (blockHash hasher tokens blockIdx ∈ c.uncompressed.entries) with present | absent
  · exact ⟨_, dif_neg (not_not.mpr present), rfl, LruCache.touchLru_use within present, rfl⟩
  · obtain ⟨q, evicted, evicts, order⟩ := LruCache.pushBack_use c.maxBlocks c.stats.evictedBlocks
      ⟨blockHash hasher tokens blockIdx, c.stats.cachedBlocks + blockIdx⟩ absent
    exact ⟨_, (dif_pos absent).trans (Option.bind_eq_some_iff.mpr ⟨_, evicts, rfl⟩), rfl, order,
      rfl⟩

/-- The order is the recent part of the hashes used so far. -/
structure Holds (c : BlockAwarePrefixCache) (maxBlocks : ℕ) (stream : List BlockHash) : Prop where
  capacity : c.maxBlocks = maxBlocks
  order : c.uncompressed.lruOrder = Lru.recent maxBlocks stream

theorem holds_insertBlocks (tokens : List UInt32) (maxBlocks : ℕ) (blocks : List ℕ)
    {c : BlockAwarePrefixCache} {stream : List BlockHash} (holds : c.Holds maxBlocks stream) :
    ∃ c', Runs.exec (insertBlock hasher tokens) c blocks = some c' ∧
      c'.Holds maxBlocks (stream ++ blocks.map (blockHash hasher tokens)) := by
  obtain ⟨c', run, capacity, order⟩ := Lru.recent_exec (insertBlock hasher tokens)
    (fun c => c.uncompressed.lruOrder) (blockHash hasher tokens)
    (I := fun c => c.maxBlocks = maxBlocks)
    (by
      rintro c blockIdx rfl within
      obtain ⟨c', inserted, capacity, order, -⟩ := insertBlock_spec hasher tokens within blockIdx
      exact ⟨c', inserted, capacity, order⟩) blocks holds.capacity holds.order
  exact ⟨c', run, capacity, order⟩

/-- Every run of insertions goes through, and keeps the most recent distinct block hashes. -/
theorem holds_inserts (maxBlocks : ℕ) (inserted : List (List UInt32)) {c : BlockAwarePrefixCache}
    {stream : List BlockHash} (holds : c.Holds maxBlocks stream) :
    ∃ c', Runs.exec (insert hasher) c inserted = some c' ∧
      c'.Holds maxBlocks
        (stream ++ (inserted.flatMap paddedBlocks).map (computeBlockHash hasher)) := by
  induction inserted generalizing c stream with
  | nil => exact ⟨c, rfl, by simpa using holds⟩
  | cons tokens inserted ih =>
    obtain ⟨c₁, insertedTokens, holds₁⟩ :=
      holds_insertBlocks hasher tokens maxBlocks (List.range (totalBlocks tokens)) holds
    obtain ⟨c', run, holds'⟩ := ih holds₁
    refine ⟨c', (Runs.exec_cons_iff _ _ _ _ _).mpr ⟨c₁, insertedTokens, run⟩, ?_⟩
    have hashes : (List.range (totalBlocks tokens)).map (blockHash hasher tokens) =
        (paddedBlocks tokens).map (computeBlockHash hasher) := by
      simp only [paddedBlocks, List.map_map]
      exact List.map_congr_left fun i _ => (computeBlockHash_padBlock hasher _).symm
    rwa [hashes, List.append_assoc, ← List.map_append, ← List.flatMap_cons] at holds'

theorem holds_new (maxBlocks : ℕ) : (new maxBlocks).Holds maxBlocks [] :=
  ⟨rfl, by simp [new, LruCache.empty, Lru.recent]⟩

/-! ## Lookups -/

/-- The lookup matches the blocks up to the first one that is not cached. -/
theorem findFrom_matched (c : BlockAwarePrefixCache) (tokens : List UInt32) (blocks : List ℕ)
    (stats : PrefixCacheStats) :
    (c.findFrom hasher tokens blocks stats).1.length =
      (blocks.takeWhile fun i => blockHash hasher tokens i ∈ c.uncompressed.lruOrder).length := by
  induction blocks generalizing stats with
  | nil => rfl
  | cons i blocks ih =>
    have cached : blockHash hasher tokens i ∈ c.uncompressed.lruOrder ↔
        (c.uncompressed.entries.lookup (blockHash hasher tokens i)).isSome := by
      rw [c.uncompressed.agree, AList.lookup_isSome]
    cases found : c.uncompressed.entries.lookup (blockHash hasher tokens i) with
    | none => simp [findFrom, found, cached]
    | some entry => simp [findFrom, found, cached, ih]

end BlockAwarePrefixCache

/-- A whole number of blocks of the query begins a list where the blocks agree. -/
theorem prefix_iff_blocks {tokens u : List UInt32} {m : ℕ}
    (inside : m * prefixBlockSize ≤ tokens.length) :
    tokens.take (m * prefixBlockSize) <+: u ↔
      ∀ i < m, blockTokens u i = blockTokens tokens i := by
  rw [List.prefix_iff_eq_take, List.length_take, Nat.min_eq_left inside]
  simp only [blockTokens_eq, prefixBlockSize]
  constructor
  · intro same i before
    have block (l : List UInt32) :
        (l.drop (i * 64)).take 64 = ((l.take (m * 64)).drop (i * 64)).take 64 := by
      rw [List.drop_take, List.take_take, Nat.min_eq_left (by omega)]
    rw [block u, block tokens, same]
  · intro same
    have grow (n : ℕ) (upto : n ≤ m) : tokens.take (n * 64) = u.take (n * 64) := by
      induction n with
      | zero => simp
      | succ n ih =>
        rw [Nat.succ_mul, List.take_add, List.take_add, ih (by omega), same n (by omega)]
    exact grow m le_rfl

theorem takeWhile_range (n : ℕ) (p : ℕ → Bool) :
    ∃ m ≤ n, ((List.range n).takeWhile p).length = m ∧ (∀ i < m, p i) ∧ (m < n → ¬ p m) := by
  induction n with
  | zero => exact ⟨0, le_rfl, rfl, by simp, by simp⟩
  | succ n ih =>
    obtain ⟨m, upto, length, hits, miss⟩ := ih
    rw [List.range_succ, List.takeWhile_append]
    rcases upto.lt_or_eq with early | rfl
    · refine ⟨m, by omega, ?_, hits, fun _ => miss early⟩
      rw [if_neg (by rw [length, List.length_range]; omega), length]
    · rw [if_pos (by rw [length, List.length_range]), List.length_append, List.length_range]
      cases last : p m with
      | true =>
        refine ⟨m + 1, le_rfl, by simp [last], fun i before => ?_, by simp⟩
        rcases Nat.lt_succ_iff_lt_or_eq.mp before with inside | rfl
        · exact hits i inside
        · exact last
      | false => exact ⟨m, by omega, by simp [last], hits, by simp [last]⟩

section Reuse

variable {hasher : List UInt32 → UInt64} {maxBlocks : ℕ} {inserted : List (List UInt32)}
  {tokens : List UInt32} {c : BlockAwarePrefixCache}

/-- A block of the query is cached exactly if its padded tokens are kept. -/
theorem cached_iff_kept
    (collisionFree : CollisionFree hasher (inserted.flatMap paddedBlocks ++ paddedBlocks tokens))
    (holds : c.Holds maxBlocks ((inserted.flatMap paddedBlocks).map (computeBlockHash hasher)))
    {i : ℕ} (inside : i < totalBlocks tokens) :
    BlockAwarePrefixCache.blockHash hasher tokens i ∈ c.uncompressed.lruOrder ↔
      padBlock (blockTokens tokens i) ∈ keptBlocks maxBlocks inserted := by
  have apart : Set.InjOn (computeBlockHash hasher) {x | x ∈ inserted.flatMap paddedBlocks} :=
    fun x hx y hy => collisionFree x (List.mem_append_left _ hx) y (List.mem_append_left _ hy)
  rw [holds.order, Lru.recent_map maxBlocks apart, List.mem_map]
  constructor
  · rintro ⟨block, kept, same⟩
    have queried : padBlock (blockTokens tokens i) ∈ paddedBlocks tokens :=
      List.mem_map_of_mem (List.mem_range.mpr inside)
    have equal : block = padBlock (blockTokens tokens i) :=
      collisionFree _ (List.mem_append_left _ (Lru.mem_of_mem_recent kept))
        _ (List.mem_append_right _ queried)
        (same.trans (computeBlockHash_padBlock hasher _).symm)
    rwa [← equal]
  · intro kept
    exact ⟨_, kept, computeBlockHash_padBlock hasher _⟩

/-- A lookup reports the blocks before the first one that is not kept. -/
theorem findPrefix_matched
    (collisionFree : CollisionFree hasher (inserted.flatMap paddedBlocks ++ paddedBlocks tokens))
    (holds : c.Holds maxBlocks ((inserted.flatMap paddedBlocks).map (computeBlockHash hasher))) :
    ∃ m ≤ totalBlocks tokens, (c.findPrefix hasher tokens).1.2 = m * prefixBlockSize ∧
      (∀ i < m, padBlock (blockTokens tokens i) ∈ keptBlocks maxBlocks inserted) ∧
      (m < totalBlocks tokens →
        padBlock (blockTokens tokens m) ∉ keptBlocks maxBlocks inserted) := by
  obtain ⟨m, upto, length, hits, miss⟩ := takeWhile_range (totalBlocks tokens)
    fun i => BlockAwarePrefixCache.blockHash hasher tokens i ∈ c.uncompressed.lruOrder
  refine ⟨m, upto, ?_, fun i before => ?_, fun early => ?_⟩
  · rw [← length, ← c.findFrom_matched hasher tokens _ c.stats]
    rfl
  · exact (cached_iff_kept collisionFree holds (before.trans_le upto)).mp
      (of_decide_eq_true (hits i before))
  · rw [← cached_iff_kept collisionFree holds early]
    exact fun cached => miss early (decide_eq_true cached)

/-- After any insertions a lookup is sound exactly if the kept blocks continue the query. -/
theorem matchSound_iff_continues
    (collisionFree : CollisionFree hasher (inserted.flatMap paddedBlocks ++ paddedBlocks tokens)) :
    ∃ c, Runs.exec (BlockAwarePrefixCache.insert hasher) (.new maxBlocks) inserted = some c ∧
      (MatchSound inserted tokens (c.findPrefix hasher tokens).1.2 ↔
        Continues maxBlocks inserted tokens) := by
  obtain ⟨c, run, holds⟩ := BlockAwarePrefixCache.holds_inserts hasher maxBlocks inserted
    (BlockAwarePrefixCache.holds_new maxBlocks)
  obtain ⟨m, upto, matched, hits, miss⟩ := findPrefix_matched collisionFree holds
  refine ⟨c, run, ?_⟩
  have total : totalBlocks tokens = (tokens.length + 63) / 64 := rfl
  rw [matched]
  unfold MatchSound Continues
  simp only [prefixBlockSize]
  constructor
  · rintro ⟨inside, u, member, start⟩
    refine ⟨List.ne_nil_of_mem member, fun tail => ⟨m, by omega, miss (by omega)⟩, ?_⟩
    intro k full kept
    have reached : k + 1 ≤ m := by
      by_contra short
      exact miss (by omega) (kept m (by omega))
    have agree := (prefix_iff_blocks inside).mp start
    exact ⟨u, member, fun i before => agree i (by omega)⟩
  · rintro ⟨nonempty, tail, continues⟩
    have inside : m * 64 ≤ tokens.length := by
      by_contra beyond
      -- A match beyond the tokens takes the padded tail, and all blocks before it.
      obtain ⟨i, before, dropped⟩ := tail (by omega)
      exact dropped (hits i (by omega))
    refine ⟨inside, ?_⟩
    cases m with
    | zero =>
      obtain ⟨u, member⟩ := List.exists_mem_of_ne_nil _ nonempty
      exact ⟨u, member, by simp⟩
    | succ k =>
      obtain ⟨u, member, agree⟩ := continues k (by omega) hits
      exact ⟨u, member, (prefix_iff_blocks inside).mpr agree⟩

end Reuse

def mixWords (words : List UInt32) : UInt64 :=
  words.foldl (fun hash word => (hash ^^^ word.toUInt64) * 0x100000001b3) 0xcbf29ce484222325

/-- A query that goes on after the 64 tokens of an inserted list. -/
theorem matchSound_fullBlock :
    ∃ c, Runs.exec (BlockAwarePrefixCache.insert mixWords) (.new 8)
        [List.replicate 64 1, [2]] = some c ∧
      (MatchSound [List.replicate 64 1, [2]] (List.replicate 64 1 ++ [3])
          (c.findPrefix mixWords (List.replicate 64 1 ++ [3])).1.2 ↔
        Continues 8 [List.replicate 64 1, [2]] (List.replicate 64 1 ++ [3])) :=
  matchSound_iff_continues (by decide +kernel)

/-- Whatever the hasher, a lookup of the one inserted token reports 64 tokens. -/
theorem paddedTail_reported_as_tokens :
    ¬ ∃ hasher, CollisionFree hasher ([[1]].flatMap paddedBlocks ++ paddedBlocks [1]) ∧
      ∀ c, Runs.exec (BlockAwarePrefixCache.insert hasher) (.new 8) [[1]] = some c →
        MatchSound [[1]] [1] (c.findPrefix hasher [1]).1.2 := by
  rintro ⟨hasher, collisionFree, sound⟩
  obtain ⟨c, run, holds⟩ := BlockAwarePrefixCache.holds_inserts hasher 8 [[1]]
    (BlockAwarePrefixCache.holds_new 8)
  obtain ⟨m, upto, matched, -, miss⟩ := findPrefix_matched collisionFree holds
  have inside := (sound c run).1
  rw [matched] at inside
  have none_ : m = 0 := by
    simp only [prefixBlockSize, List.length_singleton] at inside
    omega
  subst none_
  exact miss (by decide) (by decide)

end TribunusCompute.Cache
