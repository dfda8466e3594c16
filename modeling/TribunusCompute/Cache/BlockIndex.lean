import TribunusCompute.Cache.SharedPrefix

/-!
# Block indices of cached prefixes

A new entry gets the number of blocks cached so far plus its position in the list
at hand as its block index. Both grow within one call, so two entries share an
index when the later one is as much earlier in its list as it was cached later.
-/
namespace TribunusCompute.Cache

/-- One turn of the loop of `insert`: a token list and the index of a block of it. -/
abbrev Turn := List UInt32 × ℕ

def turns (inserted : List (List UInt32)) : List Turn :=
  inserted.flatMap fun tokens => (List.range (totalBlocks tokens)).map fun i => (tokens, i)

/-- The cache with the history of its entries: how many blocks had been cached before, and the
position of the block in its list. -/
structure PlacedCache where
  cache : BlockAwarePrefixCache
  placed : BlockHash → ℕ × ℕ

namespace PlacedCache

open BlockAwarePrefixCache

def start (maxBlocks : ℕ) : PlacedCache where
  cache := .new maxBlocks
  placed _ := (0, 0)

variable (hasher : List UInt32 → UInt64)

def step (s : PlacedCache) (turn : Turn) : Option PlacedCache :=
  let hash := blockHash hasher turn.1 turn.2
  (s.cache.insertBlock hasher turn.1 turn.2).map fun cache =>
    { cache := cache
      placed :=
        if hash ∈ s.cache.uncompressed.entries then s.placed
        else Function.update s.placed hash (s.cache.stats.cachedBlocks, turn.2) }

/-- Different cached blocks have different block indices. -/
def DistinctIndices (s : PlacedCache) : Prop :=
  ∀ hash entry hash' entry', s.cache.uncompressed.entries.lookup hash = some entry →
    s.cache.uncompressed.entries.lookup hash' = some entry' → hash ≠ hash' →
      entry.blockIndex ≠ entry'.blockIndex

/-- Where the turn caches a new block, none of the blocks that stay cached was as much further in
its list as it was cached earlier. -/
def PlacedApart (s : PlacedCache) (turn : Turn) : Prop :=
  blockHash hasher turn.1 turn.2 ∉ s.cache.uncompressed.entries →
    ∀ kept ∈ s.cache.uncompressed.lruOrder.rtake (s.cache.maxBlocks - 1),
      (s.placed kept).2 ≠ turn.2 + (s.cache.stats.cachedBlocks - (s.placed kept).1)

instance (s : PlacedCache) (turn : Turn) : Decidable (s.PlacedApart hasher turn) :=
  inferInstanceAs (Decidable (_ → ∀ kept ∈ _, _))

/-- The indices are those of the places, and the queue is within its capacity. -/
structure Indexed (s : PlacedCache) : Prop where
  bounded : s.cache.uncompressed.lruOrder.length ≤ s.cache.maxBlocks
  index : ∀ hash entry, s.cache.uncompressed.entries.lookup hash = some entry →
    entry.blockIndex = (s.placed hash).1 + (s.placed hash).2 ∧
      (s.placed hash).1 < s.cache.stats.cachedBlocks

theorem indexed_start (maxBlocks : ℕ) : (start maxBlocks).Indexed where
  bounded := by simp [start, new, LruCache.empty]
  index := by
    rintro hash entry ⟨⟩

theorem distinctIndices_start (maxBlocks : ℕ) : (start maxBlocks).DistinctIndices := by
  rintro hash entry hash' entry' ⟨⟩

variable {hasher}

theorem step_present {s t : PlacedCache} {turn : Turn} (indexed : s.Indexed)
    (present : blockHash hasher turn.1 turn.2 ∈ s.cache.uncompressed.entries)
    (taken : s.step hasher turn = some t) :
    t.cache.uncompressed.entries = s.cache.uncompressed.entries ∧ t.Indexed := by
  obtain ⟨cache, inserted, rfl⟩ := Option.map_eq_some_iff.mp taken
  rw [if_pos present]
  have touched := (dif_neg (not_not.mpr present)).symm.trans inserted
  cases touched
  have same : (s.cache.uncompressed.touchLru (blockHash hasher turn.1 turn.2)).entries =
      s.cache.uncompressed.entries := by
    unfold LruCache.touchLru
    split <;> rfl
  refine ⟨same, ?_, fun hash entry found => indexed.index hash entry (by rwa [← same])⟩
  rw [← LruCache.length_entries, same, LruCache.length_entries]
  exact indexed.bounded

/-- A new block is cached with the next index for its position, and the blocks evicted are the
least recent ones. -/
theorem step_absent {s t : PlacedCache} {turn : Turn}
    (absent : blockHash hasher turn.1 turn.2 ∉ s.cache.uncompressed.entries)
    (taken : s.step hasher turn = some t) :
    t.placed = Function.update s.placed (blockHash hasher turn.1 turn.2)
        (s.cache.stats.cachedBlocks, turn.2) ∧
      t.cache.stats.cachedBlocks = s.cache.stats.cachedBlocks + 1 ∧
      t.cache.maxBlocks = s.cache.maxBlocks ∧
      t.cache.uncompressed.lruOrder = (s.cache.uncompressed.lruOrder ++
        [blockHash hasher turn.1 turn.2]).rtake s.cache.maxBlocks ∧
      ∀ hash entry, t.cache.uncompressed.entries.lookup hash = some entry →
        (hash = blockHash hasher turn.1 turn.2 ∧
          entry.blockIndex = s.cache.stats.cachedBlocks + turn.2) ∨
        (hash ≠ blockHash hasher turn.1 turn.2 ∧
          s.cache.uncompressed.entries.lookup hash = some entry) := by
  obtain ⟨cache, inserted, rfl⟩ := Option.map_eq_some_iff.mp taken
  rw [if_neg absent]
  obtain ⟨⟨q, count⟩, evicted, rest⟩ :=
    Option.bind_eq_some_iff.mp ((dif_pos absent).symm.trans inserted)
  cases rest
  obtain ⟨q', evicted', order⟩ := LruCache.evictLru_spec s.cache.maxBlocks
    s.cache.stats.evictedBlocks (s.cache.uncompressed.pushBack
      (blockHash hasher turn.1 turn.2)
      ⟨blockHash hasher turn.1 turn.2, s.cache.stats.cachedBlocks + turn.2⟩ absent)
  obtain ⟨rfl, -⟩ := Prod.mk.inj (Option.some.inj (evicted.symm.trans evicted'))
  refine ⟨rfl, rfl, rfl, order, fun hash entry found => ?_⟩
  have grown := LruCache.within_evictLru evicted hash entry found
  rcases Keyed.lookup_insert_eq_some_iff.mp grown with ⟨rfl, rfl⟩ | ⟨apart, grown⟩
  · exact .inl ⟨rfl, rfl⟩
  · exact .inr ⟨apart, grown⟩

theorem indexed_step {s t : PlacedCache} {turn : Turn} (indexed : s.Indexed)
    (taken : s.step hasher turn = some t) : t.Indexed := by
  by_cases present : blockHash hasher turn.1 turn.2 ∈ s.cache.uncompressed.entries
  · exact (step_present indexed present taken).2
  · obtain ⟨placed, cached, capacity, order, entries⟩ := step_absent present taken
    refine ⟨?_, fun hash entry found => ?_⟩
    · rw [order, capacity]
      exact Lru.length_rtake_le ..
    · rcases entries hash entry found with ⟨rfl, here⟩ | ⟨apart, old⟩
      · rw [placed, Function.update_self, cached]
        exact ⟨here, Nat.lt_succ_self _⟩
      · rw [placed, Function.update_of_ne apart, cached]
        obtain ⟨same, before⟩ := indexed.index hash entry old
        exact ⟨same, before.trans (Nat.lt_succ_self _)⟩

/-- Besides the new block, what stays cached is what the queue keeps below its capacity. -/
theorem kept_iff {s t : PlacedCache} {turn : Turn}
    (absent : blockHash hasher turn.1 turn.2 ∉ s.cache.uncompressed.entries)
    (taken : s.step hasher turn = some t) {kept : BlockHash} :
    kept ∈ s.cache.uncompressed.lruOrder.rtake (s.cache.maxBlocks - 1) ↔
      kept ∈ t.cache.uncompressed.lruOrder ∧ kept ≠ blockHash hasher turn.1 turn.2 := by
  obtain ⟨-, -, -, order, -⟩ := step_absent absent taken
  have new := (s.cache.uncompressed.agree _).not.mpr absent
  rw [order]
  cases s.cache.maxBlocks with
  | zero => simp
  | succ n =>
    rw [Nat.add_sub_cancel, List.rtake_concat_succ, List.mem_append, List.mem_singleton]
    constructor
    · intro member
      exact ⟨.inl member, fun same => new (same ▸ List.mem_of_mem_drop member)⟩
    · rintro ⟨member | same, apart⟩
      · exact member
      · exact absurd same apart

/-- A turn keeps the indices apart exactly if it places its block apart. -/
theorem distinctIndices_step_iff {s t : PlacedCache} {turn : Turn} (indexed : s.Indexed)
    (distinct : s.DistinctIndices) (taken : s.step hasher turn = some t) :
    t.DistinctIndices ↔ s.PlacedApart hasher turn := by
  by_cases present : blockHash hasher turn.1 turn.2 ∈ s.cache.uncompressed.entries
  · -- A touch moves the queue only.
    refine iff_of_true ?_ fun absent => absurd present absent
    unfold DistinctIndices
    rw [(step_present indexed present taken).1]
    exact distinct
  obtain ⟨placed, cached, capacity, order, entries⟩ := step_absent present taken
  have cached_in {hash : BlockHash} (member : hash ∈ t.cache.uncompressed.lruOrder) :
      ∃ entry, t.cache.uncompressed.entries.lookup hash = some entry :=
    Option.isSome_iff_exists.mp
      (AList.lookup_isSome.mpr ((t.cache.uncompressed.agree hash).mp member))
  constructor
  · intro after _ kept member same
    obtain ⟨stays, apart⟩ := (kept_iff present taken).mp member
    have new_stays : blockHash hasher turn.1 turn.2 ∈ t.cache.uncompressed.lruOrder := by
      rw [order]
      cases capacityEq : s.cache.maxBlocks with
      | zero => simp [capacityEq] at member
      | succ n => simp [List.rtake_concat_succ]
    obtain ⟨old, oldFound⟩ := cached_in stays
    obtain ⟨new, newFound⟩ := cached_in new_stays
    have differ := after _ _ _ _ oldFound newFound apart
    -- The old block has the index of its place, the new one that of this turn.
    rcases entries _ _ oldFound with ⟨eq, -⟩ | ⟨-, before⟩
    · exact apart eq
    rcases entries _ _ newFound with ⟨-, index⟩ | ⟨ne, -⟩
    · obtain ⟨oldIndex, earlier⟩ := indexed.index _ _ before
      omega
    · exact ne rfl
  · intro apart
    -- The new block shares its index with nothing that stays.
    have clash {kept : BlockHash} {entry : BlockCacheEntry}
        (found : t.cache.uncompressed.entries.lookup kept = some entry)
        (other : kept ≠ blockHash hasher turn.1 turn.2)
        (before : s.cache.uncompressed.entries.lookup kept = some entry) :
        entry.blockIndex ≠ s.cache.stats.cachedBlocks + turn.2 := by
      have stays : kept ∈ t.cache.uncompressed.lruOrder :=
        (t.cache.uncompressed.agree kept).mpr
          (AList.lookup_isSome.mp (Option.isSome_iff_exists.mpr ⟨_, found⟩))
      have placedApart := apart present kept ((kept_iff present taken).mpr ⟨stays, other⟩)
      obtain ⟨index, earlier⟩ := indexed.index _ _ before
      omega
    intro hash entry hash' entry' found found' ne
    rcases entries _ _ found with ⟨rfl, index⟩ | ⟨other, before⟩
    · rcases entries _ _ found' with ⟨rfl, -⟩ | ⟨other', before'⟩
      · exact absurd rfl ne
      · rw [index]
        exact (clash found' other' before').symm
    · rcases entries _ _ found' with ⟨rfl, index'⟩ | ⟨other', before'⟩
      · rw [index']
        exact clash found other before
      · exact distinct _ _ _ _ before before' ne

/-! ## Runs of insertions -/

theorem step_total (s : PlacedCache) (turn : Turn) (indexed : s.Indexed) :
    ∃ t, s.step hasher turn = some t := by
  obtain ⟨cache, inserted, -⟩ := insertBlock_spec hasher turn.1 indexed.bounded turn.2
  exact ⟨_, by simp only [step, inserted, Option.map_some]; rfl⟩

/-- The turns at blocks of one list are the loop of the call. -/
theorem exec_blocks (tokens : List UInt32) (blocks : List ℕ) (s : PlacedCache) :
    (Runs.exec (step hasher) s (blocks.map fun i => (tokens, i))).map (·.cache) =
      Runs.exec (insertBlock hasher tokens) s.cache blocks := by
  induction blocks generalizing s with
  | nil => rfl
  | cons i blocks ih =>
    rw [List.map_cons, Runs.exec, Runs.exec, Option.map_bind]
    cases inserted : s.cache.insertBlock hasher tokens i with
    | none => simp only [step, inserted, Option.map_none, Option.bind_none]
    | some cache =>
      simp only [step, inserted, Option.map_some, Option.bind_some, Function.comp_apply]
      exact ih _

theorem exec_turns {inserted : List (List UInt32)} {s t : PlacedCache}
    (run : Runs.exec (step hasher) s (turns inserted) = some t) :
    Runs.exec (insert hasher) s.cache inserted = some t.cache := by
  induction inserted generalizing s with
  | nil =>
    cases run
    rfl
  | cons tokens inserted ih =>
    rw [turns, List.flatMap_cons, Runs.exec_append] at run
    obtain ⟨u, call, rest⟩ := Option.bind_eq_some_iff.mp run
    refine (Runs.exec_cons_iff _ _ _ _ _).mpr ⟨u.cache, ?_, ih rest⟩
    rw [BlockAwarePrefixCache.insert, ← exec_blocks, call]
    rfl

/-- Every run of insertions goes through, and the indices stay different exactly if every new
block is placed apart from those that stay. -/
theorem distinctIndices_iff (hasher : List UInt32 → UInt64) (maxBlocks : ℕ)
    (inserted : List (List UInt32)) :
    ∃ t, Runs.exec (step hasher) (start maxBlocks) (turns inserted) = some t ∧
      Runs.exec (insert hasher) (.new maxBlocks) inserted = some t.cache ∧
      (Runs.Always (step hasher) DistinctIndices (start maxBlocks) (turns inserted) ↔
        Runs.Guarded (step hasher) (PlacedApart hasher) (start maxBlocks) (turns inserted)) := by
  have guarded : Runs.Guarded (step hasher) (fun _ _ => True) (start maxBlocks) (turns inserted) :=
    Runs.guarded_of_forall _ (fun _ _ => trivial) _
  obtain ⟨⟨t, run⟩, -⟩ := Runs.exec_of_guarded (step hasher)
    (fun s turn indexed _ => by
      obtain ⟨t, taken⟩ := step_total s turn indexed
      exact ⟨t, taken, indexed_step indexed taken⟩) (indexed_start maxBlocks) guarded
  refine ⟨t, run, exec_turns run, ?_⟩
  refine Runs.always_iff_guarded (step hasher) (I := fun s => s.Indexed ∧ s.DistinctIndices)
    (fun _ inv => inv.2) ?_ ?_ ⟨indexed_start maxBlocks, distinctIndices_start maxBlocks⟩ run
  · rintro s turn t ⟨indexed, distinct⟩ apart taken
    exact ⟨indexed_step indexed taken,
      (distinctIndices_step_iff indexed distinct taken).mpr apart⟩
  · rintro s turn t ⟨indexed, distinct⟩ taken after
    exact (distinctIndices_step_iff indexed distinct taken).mp after

/-- The second block of the first list and the block of the second both get index 2. -/
theorem blocks_share_index :
    ∃ t, Runs.exec (step mixWords) (start 8) (turns [List.replicate 64 1 ++ [2], [3]]) = some t ∧
      Runs.exec (insert mixWords) (.new 8) [List.replicate 64 1 ++ [2], [3]] = some t.cache ∧
      ¬ t.DistinctIndices := by
  have indices : ((Runs.exec (step mixWords) (start 8)
      (turns [List.replicate 64 1 ++ [2], [3]])).map fun t =>
        [[2], [3]].map fun block =>
          (t.cache.uncompressed.entries.lookup (computeBlockHash mixWords block)).map
            (·.blockIndex)) = some [some 2, some 2] := by
    decide +kernel
  obtain ⟨t, run, indices⟩ := Option.map_eq_some_iff.mp indices
  have inserted := exec_turns run
  refine ⟨t, run, inserted, fun distinct => ?_⟩
  simp only [List.map_cons, List.map_nil, List.cons.injEq, and_true] at indices
  obtain ⟨⟨entry, found, index⟩, entry', found', index'⟩ :=
    And.intro (Option.map_eq_some_iff.mp indices.1) (Option.map_eq_some_iff.mp indices.2)
  exact distinct _ _ _ _ found found' (by decide +kernel) (index.trans index'.symm)

end PlacedCache

end TribunusCompute.Cache
