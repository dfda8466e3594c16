import TribunusCompute.Cache.PrefixReuse
import TribunusCompute.Library.Keyed

/-!
# The prefix cache shared by all sessions

The shared entry points write to the compressed store and look up in the other one.
A lookup therefore answers from what `insert` has put there, and a shared insertion
changes nothing about it.
-/
namespace TribunusCompute.Cache

namespace LruCache

variable {Entry : Type}

def Within (p q : LruCache Entry) : Prop :=
  ∀ hash entry, p.entries.lookup hash = some entry → q.entries.lookup hash = some entry

theorem within_popFront {q q' : LruCache Entry} (popped : q.popFront = some q') : q'.Within q := by
  unfold popFront at popped
  split at popped
  next => cases popped
  next front rest _ =>
    cases popped
    intro hash entry found
    exact (Keyed.lookup_erase_eq_some_iff.mp found).2

theorem within_evictLru {maxBlocks fuel evictedBlocks count : ℕ} {q q' : LruCache Entry}
    (evicted : q.evictLru maxBlocks fuel evictedBlocks = some (q', count)) : q'.Within q := by
  induction fuel generalizing q evictedBlocks with
  | zero =>
    rw [evictLru] at evicted
    split at evicted
    · cases evicted
    · cases evicted
      exact fun hash entry found => found
  | succ fuel ih =>
    rw [evictLru] at evicted
    split at evicted
    · obtain ⟨p, popped, rest⟩ := Option.bind_eq_some_iff.mp evicted
      intro hash entry found
      exact within_popFront popped hash entry (ih rest hash entry found)
    · cases evicted
      exact fun hash entry found => found

end LruCache

namespace BlockAwarePrefixCache

variable (hasher : List UInt32 → UInt64)

/-! ## The compressed store -/

def insertCompressedBlock (tokens : List UInt32) (pageIndex : ℕ) (c : BlockAwarePrefixCache)
    (blockIdx : ℕ) : Option BlockAwarePrefixCache :=
  let hash := blockHash hasher tokens blockIdx
  if absent : hash ∉ c.compressed.entries then do
    let entry : CompressedBlockCacheEntry :=
      { blockHash := hash
        pageIndex := pageIndex
        tokenCount := UInt32.ofNat (blockTokens tokens blockIdx).length }
    let grown := c.compressed.pushBack hash entry absent
    let (cache, evictedBlocks) ←
      grown.evictLru c.maxBlocks grown.lruOrder.length c.stats.evictedBlocks
    some
      { c with
        compressed := cache
        stats := { c.stats with
          cachedBlocks := c.stats.cachedBlocks + 1
          evictedBlocks := evictedBlocks } }
  else some { c with compressed := c.compressed.touchLru hash }

def insertCompressed (c : BlockAwarePrefixCache) (tokens : List UInt32) (pageIndex : ℕ) :
    Option BlockAwarePrefixCache :=
  Runs.exec (insertCompressedBlock hasher tokens pageIndex) c (List.range (totalBlocks tokens))

/-- The lookup loop over the compressed store, which stops at the first miss. -/
def findCompressedFrom (c : BlockAwarePrefixCache) (tokens : List UInt32) :
    List ℕ → PrefixCacheStats → List CompressedBlockCacheEntry × PrefixCacheStats
  | [], stats => ([], stats)
  | blockIdx :: rest, stats =>
    match c.compressed.entries.lookup (blockHash hasher tokens blockIdx) with
    | some entry =>
      let (matched, stats) := findCompressedFrom c tokens rest { stats with hits := stats.hits + 1 }
      (entry :: matched, stats)
    | none => ([], { stats with misses := stats.misses + 1 })

def findCompressedPrefix (c : BlockAwarePrefixCache) (tokens : List UInt32) :
    (List CompressedBlockCacheEntry × ℕ) × BlockAwarePrefixCache :=
  let (matched, stats) :=
    c.findCompressedFrom hasher tokens (List.range (totalBlocks tokens)) c.stats
  ((matched, matched.length * prefixBlockSize), { c with stats := stats })

def clear (c : BlockAwarePrefixCache) : BlockAwarePrefixCache :=
  { c with uncompressed := .empty, compressed := .empty, stats := ⟨0, 0, 0, 0⟩ }

/-! ## The shared entry points -/

/-- The matched block hashes with the number of tokens they stand for, if any. -/
def checkSharedPrefix (c : BlockAwarePrefixCache) (tokens : List UInt32) :
    Option (List BlockHash × ℕ) × BlockAwarePrefixCache :=
  let ((matched, count), c) := c.findPrefix hasher tokens
  if 0 < count then (some (matched.map (·.blockHash), count), c) else (none, c)

def insertSharedPrefix (c : BlockAwarePrefixCache) (tokens : List UInt32) (pageIndex : ℕ) :
    Option BlockAwarePrefixCache :=
  c.insertCompressed hasher tokens pageIndex

end BlockAwarePrefixCache

/-- What a session may do to the shared cache: its entry points, and the methods they call. -/
inductive CacheOp
  | insert (tokens : List UInt32)
  | insertCompressed (tokens : List UInt32) (pageIndex : ℕ)
  | findPrefix (tokens : List UInt32)
  | findCompressedPrefix (tokens : List UInt32)
  | clear
  | checkSharedPrefix (tokens : List UInt32)
  | insertSharedPrefix (tokens : List UInt32) (pageIndex : ℕ)
  deriving DecidableEq, Repr

namespace BlockAwarePrefixCache

def apply (hasher : List UInt32 → UInt64) (c : BlockAwarePrefixCache) :
    CacheOp → Option BlockAwarePrefixCache
  | .insert tokens => c.insert hasher tokens
  | .insertCompressed tokens pageIndex => c.insertCompressed hasher tokens pageIndex
  | .findPrefix tokens => some (c.findPrefix hasher tokens).2
  | .findCompressedPrefix tokens => some (c.findCompressedPrefix hasher tokens).2
  | .clear => some c.clear
  | .checkSharedPrefix tokens => some (c.checkSharedPrefix hasher tokens).2
  | .insertSharedPrefix tokens pageIndex => c.insertSharedPrefix hasher tokens pageIndex

/-- The lookup answers with one hash for each block, and with all the tokens. -/
def AnswersWhole (hasher : List UInt32 → UInt64) (c : BlockAwarePrefixCache)
    (tokens : List UInt32) : Prop :=
  (c.checkSharedPrefix hasher tokens).1 =
    some ((List.range (totalBlocks tokens)).map (blockHash hasher tokens), tokens.length)

/-- Every block of the tokens has an entry in the store that lookups read. -/
def Uncompressed (hasher : List UInt32 → UInt64) (c : BlockAwarePrefixCache)
    (tokens : List UInt32) : Prop :=
  ∀ blockIdx < totalBlocks tokens, blockHash hasher tokens blockIdx ∈ c.uncompressed.entries

def Keyed (c : BlockAwarePrefixCache) : Prop :=
  ∀ hash entry, c.uncompressed.entries.lookup hash = some entry → entry.blockHash = hash

variable {hasher : List UInt32 → UInt64}

/-! ## What the operations do to the uncompressed store -/

/-- A compressed insertion always goes through, and leaves the uncompressed store alone. -/
theorem insertCompressed_spec (hasher : List UInt32 → UInt64) (c : BlockAwarePrefixCache)
    (tokens : List UInt32) (pageIndex : ℕ) :
    ∃ c', c.insertCompressed hasher tokens pageIndex = some c' ∧
      c'.uncompressed = c.uncompressed := by
  have block (c : BlockAwarePrefixCache) (blockIdx : ℕ) :
      ∃ c', c.insertCompressedBlock hasher tokens pageIndex blockIdx = some c' ∧
        c'.uncompressed = c.uncompressed := by
    rcases em (blockHash hasher tokens blockIdx ∈ c.compressed.entries) with present | absent
    · exact ⟨_, dif_neg (not_not.mpr present), rfl⟩
    · obtain ⟨q, evicted, -⟩ := LruCache.evictLru_spec c.maxBlocks c.stats.evictedBlocks
        (c.compressed.pushBack (blockHash hasher tokens blockIdx)
          ⟨_, pageIndex, UInt32.ofNat (blockTokens tokens blockIdx).length⟩ absent)
      exact ⟨_, (dif_pos absent).trans (Option.bind_eq_some_iff.mpr ⟨_, evicted, rfl⟩), rfl⟩
  unfold insertCompressed
  induction List.range (totalBlocks tokens) generalizing c with
  | nil => exact ⟨c, rfl, rfl⟩
  | cons blockIdx blocks ih =>
    obtain ⟨c₁, inserted, same⟩ := block c blockIdx
    obtain ⟨c', rest, same'⟩ := ih c₁
    exact ⟨c', (Runs.exec_cons_iff _ _ _ _ _).mpr ⟨c₁, inserted, rest⟩, same'.trans same⟩

theorem keyed_insertBlock {tokens : List UInt32} {c c' : BlockAwarePrefixCache} {blockIdx : ℕ}
    (keyed : c.Keyed) (inserted : c.insertBlock hasher tokens blockIdx = some c') : c'.Keyed := by
  rcases em (blockHash hasher tokens blockIdx ∈ c.uncompressed.entries) with present | absent
  · have touched : some { c with
        uncompressed := c.uncompressed.touchLru (blockHash hasher tokens blockIdx) } = some c' :=
      (dif_neg (not_not.mpr present)).symm.trans inserted
    cases touched
    intro hash entry found
    refine keyed hash entry ?_
    rw [← found]
    unfold LruCache.touchLru
    split <;> rfl
  · obtain ⟨⟨q, count⟩, evicted, rest⟩ :=
      Option.bind_eq_some_iff.mp ((dif_pos absent).symm.trans inserted)
    cases rest
    intro hash entry found
    have grown := LruCache.within_evictLru evicted hash entry found
    rcases Keyed.lookup_insert_eq_some_iff.mp grown with ⟨rfl, rfl⟩ | ⟨-, grown⟩
    · rfl
    · exact keyed hash entry grown

theorem findPrefix_uncompressed (c : BlockAwarePrefixCache) (tokens : List UInt32) :
    (c.findPrefix hasher tokens).2.uncompressed = c.uncompressed := rfl

theorem checkSharedPrefix_eq (c : BlockAwarePrefixCache) (tokens : List UInt32) :
    c.checkSharedPrefix hasher tokens =
      if 0 < (c.findPrefix hasher tokens).1.2 then
        (some ((c.findPrefix hasher tokens).1.1.map (·.blockHash),
          (c.findPrefix hasher tokens).1.2), (c.findPrefix hasher tokens).2)
      else (none, (c.findPrefix hasher tokens).2) := rfl

theorem checkSharedPrefix_uncompressed (c : BlockAwarePrefixCache) (tokens : List UInt32) :
    (c.checkSharedPrefix hasher tokens).2.uncompressed = c.uncompressed := by
  rw [checkSharedPrefix_eq]
  split <;> rfl

theorem apply_uncompressed {c c' : BlockAwarePrefixCache} {op : CacheOp}
    (applied : c.apply hasher op = some c') :
    (∃ tokens, op = .insert tokens) ∨ c'.uncompressed = c.uncompressed ∨
      c'.uncompressed = .empty := by
  cases op with
  | insert tokens => exact .inl ⟨tokens, rfl⟩
  | insertCompressed tokens pageIndex | insertSharedPrefix tokens pageIndex =>
    obtain ⟨d, inserted, unchanged⟩ := insertCompressed_spec hasher c tokens pageIndex
    cases inserted.symm.trans applied
    exact .inr (.inl unchanged)
  | findPrefix tokens =>
    cases applied
    exact .inr (.inl (findPrefix_uncompressed c tokens))
  | findCompressedPrefix tokens =>
    cases applied
    exact .inr (.inl rfl)
  | clear =>
    cases applied
    exact .inr (.inr rfl)
  | checkSharedPrefix tokens =>
    cases applied
    exact .inr (.inl (checkSharedPrefix_uncompressed c tokens))

theorem keyed_of_empty {c : BlockAwarePrefixCache} (empty : c.uncompressed = .empty) :
    c.Keyed := by
  unfold Keyed
  rw [empty]
  rintro hash entry ⟨⟩

theorem keyed_apply {c c' : BlockAwarePrefixCache} {op : CacheOp} (keyed : c.Keyed)
    (applied : c.apply hasher op = some c') : c'.Keyed := by
  rcases apply_uncompressed applied with ⟨tokens, rfl⟩ | same | empty
  · exact Runs.exec_keeps _ (fun _ _ _ _ kept taken => keyed_insertBlock kept taken) keyed applied
  · unfold Keyed
    rwa [same]
  · exact keyed_of_empty empty

/-! ## Lookups after a shared insertion -/

theorem findFrom_hashes (hasher : List UInt32 → UInt64) {c : BlockAwarePrefixCache}
    (keyed : c.Keyed) (tokens : List UInt32) (blocks : List ℕ) (stats : PrefixCacheStats) :
    (c.findFrom hasher tokens blocks stats).1.map (·.blockHash) =
      (blocks.takeWhile fun i => blockHash hasher tokens i ∈ c.uncompressed.entries).map
        (blockHash hasher tokens) := by
  induction blocks generalizing stats with
  | nil => rfl
  | cons i blocks ih =>
    have cached : blockHash hasher tokens i ∈ c.uncompressed.entries ↔
        (c.uncompressed.entries.lookup (blockHash hasher tokens i)).isSome :=
      AList.lookup_isSome.symm
    cases found : c.uncompressed.entries.lookup (blockHash hasher tokens i) with
    | none => simp [findFrom, found, cached]
    | some entry => simp [findFrom, found, cached, ih, keyed _ _ found]

/-- A nonempty whole number of blocks is answered in full exactly if every block has an entry. -/
theorem answersWhole_iff {c : BlockAwarePrefixCache} (keyed : c.Keyed) {tokens : List UInt32}
    (nonempty : tokens ≠ []) (whole : tokens.length % prefixBlockSize = 0) :
    c.AnswersWhole hasher tokens ↔ c.Uncompressed hasher tokens := by
  have hashes :=
    findFrom_hashes hasher keyed tokens (List.range (totalBlocks tokens)) c.stats
  generalize matchedEq : (List.range (totalBlocks tokens)).takeWhile
    (fun i => blockHash hasher tokens i ∈ c.uncompressed.entries) = matched at hashes
  have found : (c.findPrefix hasher tokens).1.1.map (·.blockHash) =
      matched.map (blockHash hasher tokens) := hashes
  have count : (c.findPrefix hasher tokens).1.2 = matched.length * prefixBlockSize := by
    have length := congrArg List.length hashes
    rw [List.length_map, List.length_map] at length
    rw [← length]
    rfl
  have total : totalBlocks tokens * prefixBlockSize = tokens.length := by
    unfold totalBlocks prefixBlockSize at *
    omega
  unfold AnswersWhole Uncompressed
  rw [checkSharedPrefix_eq, found, count]
  constructor
  · intro answers
    -- The answer has one hash for each block, so the walk saw no miss.
    have all : matched = List.range (totalBlocks tokens) := by
      split at answers
      next =>
        have lengths := congrArg (List.length ∘ Prod.fst) (Option.some.inj answers)
        simp only [Function.comp_apply, List.length_map] at lengths
        have start : matched <+: List.range (totalBlocks tokens) :=
          matchedEq ▸ List.takeWhile_prefix _
        exact start.eq_of_length lengths
      next => cases answers
    intro blockIdx inside
    have member : blockIdx ∈ matched := all ▸ List.mem_range.mpr inside
    rw [← matchedEq] at member
    have cached := List.mem_takeWhile_imp member
    exact of_decide_eq_true cached
  · intro cached
    have all : matched = List.range (totalBlocks tokens) := by
      rw [← matchedEq, List.takeWhile_eq_self_iff]
      intro i member
      exact decide_eq_true (cached i (List.mem_range.mp member))
    rw [all, List.length_range, total, if_pos (List.length_pos_iff.mpr nonempty)]

/-- After any run of the shared cache, a nonempty whole number of blocks that has just been
inserted is found exactly if `insert` had stored every block of it before. -/
theorem shared_insert_found_iff {maxBlocks : ℕ} {ops : List CacheOp} {c : BlockAwarePrefixCache}
    (run : Runs.exec (apply hasher) (new maxBlocks) ops = some c) {tokens : List UInt32}
    (nonempty : tokens ≠ []) (whole : tokens.length % prefixBlockSize = 0) (pageIndex : ℕ) :
    ∃ c', c.insertSharedPrefix hasher tokens pageIndex = some c' ∧
      (c'.AnswersWhole hasher tokens ↔ c.Uncompressed hasher tokens) := by
  have keyed : c.Keyed :=
    Runs.exec_keeps _ (fun _ _ _ _ kept taken => keyed_apply kept taken) (keyed_of_empty rfl) run
  obtain ⟨c', inserted, same⟩ := insertCompressed_spec hasher c tokens pageIndex
  have keyed' : c'.Keyed := by
    unfold Keyed
    rwa [same]
  refine ⟨c', inserted, ?_⟩
  rw [answersWhole_iff keyed' nonempty whole]
  unfold Uncompressed
  rw [same]

/-- A list that `insert` has stored. -/
theorem stored_block_found :
    ∃ c c', Runs.exec (apply mixWords) (new 8) [.insert (List.replicate 64 1)] = some c ∧
      c.insertSharedPrefix mixWords (List.replicate 64 1) 0 = some c' ∧
      (c'.AnswersWhole mixWords (List.replicate 64 1) ↔
        c.Uncompressed mixWords (List.replicate 64 1)) := by
  obtain ⟨c, inserted, -⟩ := holds_insertBlocks mixWords (List.replicate 64 1) 8
    (List.range (totalBlocks (List.replicate 64 1))) (holds_new 8)
  have run : Runs.exec (apply mixWords) (new 8) [.insert (List.replicate 64 1)] = some c :=
    (Runs.exec_cons_iff _ _ _ _ _).mpr ⟨c, inserted, rfl⟩
  have nonempty : List.replicate 64 (1 : UInt32) ≠ [] := by simp
  obtain ⟨c', shared, found⟩ := shared_insert_found_iff run nonempty (by simp [prefixBlockSize]) 0
  exact ⟨c, c', run, shared, found⟩

/-- Nothing is found as long as nothing is inserted but compressed blocks. -/
theorem not_answersWhole_of_empty {c : BlockAwarePrefixCache} (empty : c.uncompressed = .empty)
    {tokens : List UInt32} (nonempty : tokens ≠ []) (whole : tokens.length % prefixBlockSize = 0) :
    ¬ c.AnswersWhole hasher tokens := by
  rw [answersWhole_iff (keyed_of_empty empty) nonempty whole]
  intro cached
  have positive : 0 < totalBlocks tokens := by
    have := List.length_pos_iff.mpr nonempty
    unfold totalBlocks prefixBlockSize
    omega
  have member := cached 0 positive
  rw [empty] at member
  exact AList.notMem_empty _ member

/-- Where only the shared entry points are used, no insertion is ever found. -/
theorem shared_entry_points_never_answer {maxBlocks : ℕ} {ops : List CacheOp}
    (shared : ∀ op ∈ ops, ∀ tokens, op ≠ .insert tokens) {c : BlockAwarePrefixCache}
    (run : Runs.exec (apply hasher) (new maxBlocks) ops = some c) {tokens : List UInt32}
    (nonempty : tokens ≠ []) (whole : tokens.length % prefixBlockSize = 0) :
    ¬ c.AnswersWhole hasher tokens := by
  refine not_answersWhole_of_empty ?_ nonempty whole
  refine Runs.exec_keeps _ (P := fun c => c.uncompressed = .empty) ?_ rfl run
  intro s op member t empty applied
  rcases apply_uncompressed applied with ⟨tokens, insert⟩ | same | empty'
  · exact absurd insert (shared op member tokens)
  · exact same.trans empty
  · exact empty'

/-- Whatever the hasher, a block is not found right after its insertion in a new global cache. -/
theorem shared_insert_not_found :
    ¬ ∃ hasher c, (new 10000).insertSharedPrefix hasher (List.replicate 64 1) 0 = some c ∧
      c.AnswersWhole hasher (List.replicate 64 1) := by
  rintro ⟨hasher, c, inserted, answers⟩
  obtain ⟨c', inserted', same⟩ :=
    insertCompressed_spec hasher (new 10000) (List.replicate 64 1) 0
  cases inserted'.symm.trans inserted
  exact not_answersWhole_of_empty same (by simp) (by simp [prefixBlockSize]) answers

end BlockAwarePrefixCache

end TribunusCompute.Cache
