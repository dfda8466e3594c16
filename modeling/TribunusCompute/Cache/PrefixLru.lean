import TribunusCompute.Cache.SharedPrefix

/-!
# The two least-recently-used queues

Uncompressed and compressed blocks are cached apart, each map with its own queue
and both under one capacity. Whatever is inserted, every eviction loop ends, and
each queue is the most recent distinct hashes used in its store.
-/
namespace TribunusCompute.Cache

namespace BlockAwarePrefixCache

variable (hasher : List UInt32 → UInt64)

theorem insertCompressedBlock_spec (tokens : List UInt32) (pageIndex : ℕ)
    {c : BlockAwarePrefixCache} (within : c.compressed.lruOrder.length ≤ c.maxBlocks)
    (blockIdx : ℕ) :
    ∃ c', c.insertCompressedBlock hasher tokens pageIndex blockIdx = some c' ∧
      c'.maxBlocks = c.maxBlocks ∧ c'.compressed.lruOrder =
        Lru.touch c.maxBlocks c.compressed.lruOrder (blockHash hasher tokens blockIdx) ∧
      c'.uncompressed = c.uncompressed := by
  rcases em (blockHash hasher tokens blockIdx ∈ c.compressed.entries) with present | absent
  · exact ⟨_, dif_neg (not_not.mpr present), rfl, LruCache.touchLru_use within present, rfl⟩
  · obtain ⟨q, evicted, evicts, order⟩ := LruCache.pushBack_use c.maxBlocks c.stats.evictedBlocks
      ⟨blockHash hasher tokens blockIdx, pageIndex,
        UInt32.ofNat (blockTokens tokens blockIdx).length⟩ absent
    exact ⟨_, (dif_pos absent).trans (Option.bind_eq_some_iff.mpr ⟨_, evicts, rfl⟩), rfl, order,
      rfl⟩

/-! ## What has been used -/

def blockHashes (tokens : List UInt32) : List BlockHash :=
  (List.range (totalBlocks tokens)).map (blockHash hasher tokens)

/-- The hashes used in the uncompressed store and in the compressed one since the last clear. -/
def useHashes (used : List BlockHash × List BlockHash) : CacheOp → List BlockHash × List BlockHash
  | .insert tokens => (used.1 ++ blockHashes hasher tokens, used.2)
  | .insertCompressed tokens _ | .insertSharedPrefix tokens _ =>
    (used.1, used.2 ++ blockHashes hasher tokens)
  | .clear => ([], [])
  | .findPrefix _ | .findCompressedPrefix _ | .checkSharedPrefix _ => used

/-- The queue lists the keys of the map once each, at most `maxBlocks` of them: the hashes used
most recently, the least recent first. -/
structure LruLaw {Entry : Type} (maxBlocks : ℕ) (used : List BlockHash) (q : LruCache Entry) :
    Prop where
  nodup : q.lruOrder.Nodup
  keys : ∀ hash, hash ∈ q.lruOrder ↔ hash ∈ q.entries
  bounded : q.entries.entries.length ≤ maxBlocks
  recent : q.lruOrder = Lru.recent maxBlocks used

theorem lruLaw_of_recent {Entry : Type} {maxBlocks : ℕ} {used : List BlockHash}
    {q : LruCache Entry} (recent : q.lruOrder = Lru.recent maxBlocks used) :
    LruLaw maxBlocks used q where
  nodup := q.nodup
  keys := q.agree
  bounded := by
    rw [q.length_entries, recent]
    exact Lru.length_recent_le ..
  recent := recent

/-- Both queues are the recent parts of what was used in their stores. -/
structure Recent (c : BlockAwarePrefixCache) (maxBlocks : ℕ)
    (used : List BlockHash × List BlockHash) : Prop where
  capacity : c.maxBlocks = maxBlocks
  uncompressed : c.uncompressed.lruOrder = Lru.recent maxBlocks used.1
  compressed : c.compressed.lruOrder = Lru.recent maxBlocks used.2

variable {c : BlockAwarePrefixCache} {maxBlocks : ℕ} {used : List BlockHash × List BlockHash}

theorem recent_empty : (new maxBlocks).Recent maxBlocks ([], []) where
  capacity := rfl
  uncompressed := by simp [new, LruCache.empty, Lru.recent]
  compressed := by simp [new, LruCache.empty, Lru.recent]

theorem recent_insertBlocks (tokens : List UInt32) (blocks : List ℕ)
    (recent : c.Recent maxBlocks used) :
    ∃ c', Runs.exec (insertBlock hasher tokens) c blocks = some c' ∧
      c'.Recent maxBlocks (used.1 ++ blocks.map (blockHash hasher tokens), used.2) := by
  obtain ⟨c', run, ⟨capacity, other⟩, order⟩ := Lru.recent_exec
    (insertBlock hasher tokens) (fun c => c.uncompressed.lruOrder) (blockHash hasher tokens)
    (I := fun c' => c'.maxBlocks = maxBlocks ∧ c'.compressed = c.compressed)
    (by
      rintro c blockIdx ⟨rfl, other⟩ within
      obtain ⟨c', inserted, capacity, order, same⟩ := insertBlock_spec hasher tokens within blockIdx
      exact ⟨c', inserted, ⟨capacity, same.trans other⟩, order⟩)
    blocks ⟨recent.capacity, rfl⟩ recent.uncompressed
  exact ⟨c', run, capacity, order, other ▸ recent.compressed⟩

theorem recent_insertCompressedBlocks (tokens : List UInt32) (pageIndex : ℕ) (blocks : List ℕ)
    (recent : c.Recent maxBlocks used) :
    ∃ c', Runs.exec (insertCompressedBlock hasher tokens pageIndex) c blocks = some c' ∧
      c'.Recent maxBlocks (used.1, used.2 ++ blocks.map (blockHash hasher tokens)) := by
  obtain ⟨c', run, ⟨capacity, other⟩, order⟩ := Lru.recent_exec
    (insertCompressedBlock hasher tokens pageIndex) (fun c => c.compressed.lruOrder)
    (blockHash hasher tokens)
    (I := fun c' => c'.maxBlocks = maxBlocks ∧ c'.uncompressed = c.uncompressed)
    (by
      rintro c blockIdx ⟨rfl, other⟩ within
      obtain ⟨c', inserted, capacity, order, same⟩ :=
        insertCompressedBlock_spec hasher tokens pageIndex within blockIdx
      exact ⟨c', inserted, ⟨capacity, same.trans other⟩, order⟩)
    blocks ⟨recent.capacity, rfl⟩ recent.compressed
  exact ⟨c', run, capacity, other ▸ recent.uncompressed, order⟩

/-- Every call ends; a lookup uses no hash in the sense of the queues. -/
theorem recent_apply (op : CacheOp) (recent : c.Recent maxBlocks used) :
    ∃ c', c.apply hasher op = some c' ∧ c'.Recent maxBlocks (useHashes hasher used op) := by
  cases op with
  | insert tokens => exact recent_insertBlocks hasher tokens _ recent
  | insertCompressed tokens pageIndex | insertSharedPrefix tokens pageIndex =>
    exact recent_insertCompressedBlocks hasher tokens pageIndex _ recent
  | clear =>
    obtain ⟨-, order, order'⟩ : (new maxBlocks).Recent maxBlocks ([], []) := recent_empty
    exact ⟨_, rfl, recent.capacity, order, order'⟩
  | findPrefix tokens | findCompressedPrefix tokens =>
    exact ⟨_, rfl, recent.capacity, recent.uncompressed, recent.compressed⟩
  | checkSharedPrefix tokens =>
    -- The lookup of the shared cache changes statistics only.
    refine ⟨_, rfl, ?_⟩
    rw [checkSharedPrefix_eq]
    split <;> exact ⟨recent.capacity, recent.uncompressed, recent.compressed⟩

theorem recent_run (ops : List CacheOp) (recent : c.Recent maxBlocks used) :
    ∃ c', Runs.exec (apply hasher) c ops = some c' ∧
      c'.Recent maxBlocks (ops.foldl (useHashes hasher) used) := by
  induction ops generalizing c used with
  | nil => exact ⟨c, rfl, recent⟩
  | cons op ops ih =>
    obtain ⟨c₁, applied, recent₁⟩ := recent_apply hasher op recent
    obtain ⟨c', run, recent'⟩ := ih recent₁
    exact ⟨c', (Runs.exec_cons_iff _ _ _ _ _).mpr ⟨c₁, applied, run⟩, recent'⟩

/-- Every run of insertions, with lookups and clears in between, ends, and both queues obey the
law of least recent use. -/
theorem lruLaw_run (maxBlocks : ℕ) (ops : List CacheOp) :
    ∃ c, Runs.exec (apply hasher) (new maxBlocks) ops = some c ∧
      LruLaw maxBlocks (ops.foldl (useHashes hasher) ([], [])).1 c.uncompressed ∧
      LruLaw maxBlocks (ops.foldl (useHashes hasher) ([], [])).2 c.compressed := by
  obtain ⟨c, run, recent⟩ := recent_run hasher ops recent_empty
  exact ⟨c, run, lruLaw_of_recent recent.uncompressed, lruLaw_of_recent recent.compressed⟩

end BlockAwarePrefixCache

end TribunusCompute.Cache
