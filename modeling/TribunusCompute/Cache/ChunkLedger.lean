import Mathlib.Algebra.Order.BigOperators.Group.List
import TribunusCompute.Cache.ChunkTiling
import TribunusCompute.Library.Lists

/-!
# What chunks are charged and refunded

A chunk is charged for its tokens, its record and four more words. The refund of an
eviction leaves the four words out, so each eviction leaves bytes behind that no
resident chunk accounts for, until the cache is cleared.
-/
namespace TribunusCompute.Cache

inductive ChunkOp
  | ingestTokens (tokens : List UInt32) (hint : ChunkType)
  | insertChunk (start stop : UInt32) (tokens pages : List UInt32)
  | evictOne
  | clear
  deriving DecidableEq, Repr

/-- The cache after a call. A refused insertion changes nothing. -/
def ChunkKvCache.apply (least : LeastImportant) (c : ChunkKvCache) : ChunkOp → ChunkKvCache
  | .ingestTokens tokens hint => (c.ingestTokens least tokens hint).1
  | .insertChunk start stop tokens pages =>
    match c.insertChunk least start stop tokens pages with
    | .ok c => c
    | .error _ => c
  | .evictOne => c.evictOne least
  | .clear => c.clear

/-- A cache with the bytes each chunk was charged, by the id of the chunk. -/
structure Ledger where
  cache : ChunkKvCache
  charged : ℕ → ℕ

namespace Ledger

def start (maxChunks budgetBytes perTokenCompressed : ℕ)
    (sentenceEnds speakerBounds : List UInt32) : Ledger where
  cache :=
    { (ChunkKvCache.new maxChunks budgetBytes).setBoundaryTokens sentenceEnds speakerBounds with
      perTokenCompressed := perTokenCompressed }
  charged _ := 0

variable (least : LeastImportant) (hint : ChunkType)

/-- The next chunk is charged the estimate for its tokens. -/
def charge (s : Ledger) (tokens : List UInt32) : ℕ → ℕ :=
  Function.update s.charged s.cache.nextChunkId (s.cache.estimateChunkBytes tokens)

def commitChunk (s : Ledger) (cut b committed : ℕ) : Ledger where
  cache := s.cache.commitChunk least hint cut b committed
  charged := s.charge (s.cache.bufferedTokens cut b)

def commitChunks : Ledger → (cut committed : ℕ) → List ℕ → Ledger
  | s, _, _, [] => s
  | s, cut, committed, b :: boundaries =>
    if s.cache.pending.tokens.length < b then s
    else if b ≤ cut then commitChunks s cut committed boundaries
    else if (s.cache.bufferedTokens cut b).isEmpty then commitChunks s b committed boundaries
    else
      commitChunks (s.commitChunk least hint cut b committed) b (committed + 1) boundaries

def chargedBy (s : Ledger) : ChunkOp → ℕ → ℕ
  | .ingestTokens tokens hint =>
    if tokens.isEmpty then s.charged
    else
      (commitChunks least hint { s with cache := s.cache.buffer tokens } 0 0
        (s.cache.detectChunks (s.cache.pending.tokens ++ tokens))).charged
  | .insertChunk start stop tokens pages =>
    match s.cache.insertChunk least start stop tokens pages with
    | .ok _ => s.charge tokens
    | .error _ => s.charged
  | .evictOne => s.charged
  | .clear => s.charged

def step (s : Ledger) (op : ChunkOp) : Option Ledger :=
  some { cache := s.cache.apply least op, charged := s.chargedBy least op }

def total (s : Ledger) : ℕ := (s.cache.chunks.map fun chunk => s.charged chunk.chunkId).sum

/-- The bytes in use are those the resident chunks were charged, none where no chunk is left. -/
structure UsedBytesLaw (s : Ledger) : Prop where
  booked : s.cache.currentBytes = s.total
  emptied : s.cache.chunks = [] → s.cache.currentBytes = 0

/-- There is room for more chunks, with bytes in all. -/
def Fits (s : Ledger) (chunks bytes : ℕ) : Prop :=
  s.cache.chunks.length + chunks ≤ s.cache.maxChunks ∧
    s.cache.currentBytes + bytes ≤ s.cache.totalBudgetBytes

instance (s : Ledger) (chunks bytes : ℕ) : Decidable (s.Fits chunks bytes) :=
  inferInstanceAs (Decidable (_ ∧ _))

/-- The call evicts nothing: what it adds is within the limits. -/
def WithinLimits (s : Ledger) : ChunkOp → Prop
  | .ingestTokens tokens _ =>
    let boundaries := s.cache.detectChunks (s.cache.pending.tokens ++ tokens)
    tokens ≠ [] → ∀ last ∈ boundaries.getLast?,
      s.Fits boundaries.length
        (last * s.cache.perTokenCompressed + boundaries.length * (semanticChunkSize + 4 * 4))
  | .insertChunk start stop tokens _ =>
    start < stop → (stop - start).toNat = tokens.length →
      s.Fits 1 (s.cache.estimateChunkBytes tokens)
  | .evictOne => s.cache.chunks = []
  | .clear => True

/-- The bytes in use beyond what the resident chunks were charged. -/
def surplus (s : Ledger) : ℤ := s.cache.currentBytes - s.total

/-- Ids are given once, and every chunk was charged at least 16 bytes more than its refund. -/
structure Booked (s : Ledger) : Prop where
  fresh : ∀ chunk ∈ s.cache.chunks, chunk.chunkId < s.cache.nextChunkId
  refundable : ∀ chunk ∈ s.cache.chunks,
    s.cache.estimateEvictionBytes chunk + 4 * 4 ≤ s.charged chunk.chunkId

variable {least hint} {s : Ledger}

theorem law_iff : s.UsedBytesLaw ↔ s.surplus = 0 := by
  unfold surplus
  constructor
  · intro law
    rw [law.booked, Int.sub_self]
  · intro none_
    have booked : s.cache.currentBytes = s.total := by omega
    refine ⟨booked, fun emptied => ?_⟩
    rw [booked, total, emptied]
    rfl

/-! ## One chunk -/

/-- A chunk is added, and charged for its tokens. -/
def add (s : Ledger) (chunk : SemanticChunk) (tokens : List UInt32) : Ledger where
  cache := s.cache.addChunk chunk tokens
  charged := s.charge tokens

theorem charge_of_fresh {tokens : List UInt32} {id : ℕ} (fresh : id < s.cache.nextChunkId) :
    s.charge tokens id = s.charged id :=
  Function.update_of_ne fresh.ne _ _

theorem booked_add (booked : s.Booked) {chunk : SemanticChunk} {tokens : List UInt32}
    (id : chunk.chunkId = s.cache.nextChunkId)
    (count : chunk.tokenCount = UInt32.ofNat tokens.length) : (s.add chunk tokens).Booked := by
  have self : s.charge tokens chunk.chunkId = s.cache.estimateChunkBytes tokens :=
    id ▸ Function.update_self _ _ _
  constructor
  · intro resident member
    rcases List.mem_append.mp member with old | new
    · exact (booked.fresh resident old).trans (Nat.lt_succ_self _)
    · rw [List.mem_singleton.mp new, id]
      exact Nat.lt_succ_self _
  · intro resident member
    rcases List.mem_append.mp member with old | new
    · exact (booked.refundable resident old).trans (charge_of_fresh (booked.fresh _ old)).ge
    · -- The refund counts the tokens in 32 bits.
      rw [List.mem_singleton.mp new]
      refine le_of_le_of_eq ?_ self.symm
      have fewer : chunk.tokenCount.toNat * s.cache.perTokenCompressed ≤
          tokens.length * s.cache.perTokenCompressed := by
        rw [count, UInt32.toNat_ofNat']
        exact Nat.mul_le_mul_right _ (Nat.mod_le _ _)
      unfold ChunkKvCache.estimateChunkBytes
      exact (Nat.add_assoc _ _ _).le.trans (Nat.add_le_add_right fewer _)

theorem surplus_add (booked : s.Booked) {chunk : SemanticChunk} {tokens : List UInt32}
    (id : chunk.chunkId = s.cache.nextChunkId) : (s.add chunk tokens).surplus = s.surplus := by
  have old : (s.cache.chunks.map fun chunk => s.charge tokens chunk.chunkId) =
      s.cache.chunks.map fun chunk => s.charged chunk.chunkId :=
    List.map_congr_left fun resident member => charge_of_fresh (booked.fresh resident member)
  have self : s.charge tokens chunk.chunkId = s.cache.estimateChunkBytes tokens :=
    id ▸ Function.update_self _ _ _
  simp only [surplus, total, add, ChunkKvCache.addChunk, List.map_append, List.map_cons,
    List.map_nil, List.sum_append, List.sum_singleton, old, self]
  omega

def evict (least : LeastImportant) (s : Ledger) : Ledger :=
  { s with cache := s.cache.evictLowest least }

theorem booked_evict (booked : s.Booked) : (s.evict least).Booked := by
  unfold evict ChunkKvCache.evictLowest
  split
  next some_ =>
    have resident {chunk : SemanticChunk} (member : chunk ∈ (s.cache.chunks.set
        (least s.cache.chunks some_) (s.cache.chunks.getLast some_)).dropLast) :
        chunk ∈ s.cache.chunks :=
      (Removal.set_dropLast_perm some_ (least s.cache.chunks some_).isLt).subset
        (List.mem_cons_of_mem _ member)
    exact ⟨fun chunk member => booked.fresh chunk (resident member),
      fun chunk member => booked.refundable chunk (resident member)⟩
  next => exact booked

/-- An eviction leaves at least the four words behind. -/
theorem surplus_evict (booked : s.Booked) (some_ : s.cache.chunks ≠ []) :
    s.surplus + 16 ≤ (s.evict least).surplus := by
  have split_ : s.total = s.charged (s.cache.chunks[least s.cache.chunks some_]).chunkId +
      (s.evict least).total := by
    rw [evict, ChunkKvCache.evictLowest, dif_pos some_]
    unfold total
    have parts := Removal.set_dropLast_perm some_ (least s.cache.chunks some_).isLt
    rw [← (parts.map _).sum_eq, List.map_cons, List.sum_cons]
    rfl
  have refund := booked.refundable _
    (List.getElem_mem (least s.cache.chunks some_).isLt)
  have bytes : (s.evict least).cache.currentBytes = s.cache.currentBytes -
      s.cache.estimateEvictionBytes s.cache.chunks[least s.cache.chunks some_] := by
    rw [evict, ChunkKvCache.evictLowest, dif_pos some_]
  unfold surplus
  rw [split_, bytes]
  simp only [Fin.getElem_fin] at *
  omega

theorem evictOverLimits_spec (c : ChunkKvCache) {charged : ℕ → ℕ} (booked : Booked ⟨c, charged⟩) :
    Booked ⟨c.evictOverLimits least, charged⟩ ∧
      surplus ⟨c, charged⟩ ≤ surplus ⟨c.evictOverLimits least, charged⟩ := by
  induction c using ChunkKvCache.evictOverLimits.induct least with
  | case1 c beyond ih =>
    have evicted : surplus ⟨c, charged⟩ + 16 ≤ surplus ⟨c.evictLowest least, charged⟩ :=
      surplus_evict booked beyond.1
    obtain ⟨booked', more⟩ := ih (booked_evict booked)
    rw [ChunkKvCache.evictOverLimits, if_pos beyond]
    exact ⟨booked', by omega⟩
  | case2 c within =>
    rw [ChunkKvCache.evictOverLimits, if_neg within]
    exact ⟨booked, le_rfl⟩

/-- An insertion beyond the limits evicts at least one chunk. -/
theorem surplus_evictOverLimits {c : ChunkKvCache} {charged : ℕ → ℕ} (booked : Booked ⟨c, charged⟩)
    (some_ : c.chunks ≠ [])
    (beyond : c.maxChunks < c.chunks.length ∨ c.totalBudgetBytes < c.currentBytes) :
    surplus ⟨c, charged⟩ + 16 ≤ surplus ⟨c.evictOverLimits least, charged⟩ := by
  have evicted : surplus ⟨c, charged⟩ + 16 ≤ surplus ⟨c.evictLowest least, charged⟩ :=
    surplus_evict booked some_
  have rest := (@evictOverLimits_spec least (c.evictLowest least) charged
    (booked_evict booked)).2
  rw [ChunkKvCache.evictOverLimits, if_pos ⟨some_, beyond⟩]
  omega

/-! ## The commit loop -/

theorem commitChunk_eq (s : Ledger) (cut b committed : ℕ) :
    s.commitChunk least hint cut b committed =
      let added := s.add (s.cache.nextChunk hint cut b committed) (s.cache.bufferedTokens cut b)
      if s.Fits 1 (s.cache.estimateChunkBytes (s.cache.bufferedTokens cut b)) then added
      else added.evict least := by
  have limits : (s.cache.maxChunks < (s.cache.chunks ++
        [s.cache.nextChunk hint cut b committed]).length ∨
      s.cache.totalBudgetBytes < s.cache.currentBytes +
        s.cache.estimateChunkBytes (s.cache.bufferedTokens cut b)) ↔
      ¬ s.Fits 1 (s.cache.estimateChunkBytes (s.cache.bufferedTokens cut b)) := by
    rw [List.length_append, List.length_singleton, Fits]
    omega
  rw [commitChunk, ChunkKvCache.commitChunk]
  dsimp only
  by_cases fits : s.Fits 1 (s.cache.estimateChunkBytes (s.cache.bufferedTokens cut b))
  · rw [if_pos fits, if_neg (limits.not.mpr (not_not.mpr fits))]
    rfl
  · rw [if_neg fits, if_pos (limits.mpr fits)]
    rfl

theorem cache_commitChunks (boundaries : List ℕ) (s : Ledger) (cut committed : ℕ) :
    (commitChunks least hint s cut committed boundaries).cache =
      (ChunkKvCache.commitChunks least hint s.cache cut committed boundaries).1 := by
  induction boundaries generalizing s cut committed with
  | nil => rfl
  | cons b boundaries ih =>
    rw [commitChunks, ChunkKvCache.commitChunks]
    split
    · rfl
    split
    · exact ih s cut committed
    split
    · exact ih s b committed
    · exact ih _ b (committed + 1)

/-- The pieces up to the last boundary fit. -/
def FitsCuts (s : Ledger) (cut : ℕ) (boundaries : List ℕ) : Prop :=
  ∀ last ∈ boundaries.getLast?, s.Fits boundaries.length
    ((last - cut) * s.cache.perTokenCompressed + boundaries.length * (semanticChunkSize + 4 * 4))

theorem fitsCuts_cons {cut b : ℕ} {boundaries : List ℕ} {tokens : List UInt32}
    (ascend : (cut :: b :: boundaries).Pairwise (· < ·)) (count : tokens.length = b - cut)
    (chunk : SemanticChunk) :
    s.FitsCuts cut (b :: boundaries) ↔
      s.Fits 1 (s.cache.estimateChunkBytes tokens) ∧
        (s.add chunk tokens).FitsCuts b boundaries := by
  have forward : cut < b := (List.pairwise_cons.mp ascend).1 b List.mem_cons_self
  have grown : (s.add chunk tokens).cache.chunks.length = s.cache.chunks.length + 1 :=
    List.length_append
  have bytes : (s.add chunk tokens).cache.currentBytes =
      s.cache.currentBytes + s.cache.estimateChunkBytes tokens := rfl
  have limits : (s.add chunk tokens).cache.maxChunks = s.cache.maxChunks ∧
      (s.add chunk tokens).cache.totalBudgetBytes = s.cache.totalBudgetBytes ∧
      (s.add chunk tokens).cache.perTokenCompressed = s.cache.perTokenCompressed :=
    ⟨rfl, rfl, rfl⟩
  rw [ChunkKvCache.estimateChunkBytes, count] at bytes ⊢
  unfold FitsCuts Fits semanticChunkSize at *
  rw [grown, bytes, limits.1, limits.2.1, limits.2.2, List.length_cons, List.getLast?_cons]
  cases found : boundaries.getLast? with
  | none =>
    rw [List.getLast?_eq_none_iff.mp found]
    simp
  | some last =>
    have further : b < last :=
      (List.pairwise_cons.mp (List.pairwise_cons.mp ascend).2).1 last (List.mem_of_getLast? found)
    have piece : (last - cut) * s.cache.perTokenCompressed =
        (b - cut) * s.cache.perTokenCompressed + (last - b) * s.cache.perTokenCompressed := by
      rw [← Nat.add_mul]
      congr 1
      omega
    simp only [Option.getD_some, Option.mem_def, Option.some.injEq, forall_eq', piece]
    omega

theorem commitChunk_spec (booked : s.Booked) (cut b committed : ℕ) :
    (s.commitChunk least hint cut b committed).Booked ∧
      (s.Fits 1 (s.cache.estimateChunkBytes (s.cache.bufferedTokens cut b)) →
        (s.commitChunk least hint cut b committed).surplus = s.surplus) ∧
      (¬ s.Fits 1 (s.cache.estimateChunkBytes (s.cache.bufferedTokens cut b)) →
        s.surplus + 16 ≤ (s.commitChunk least hint cut b committed).surplus) := by
  have booked' : (s.add (s.cache.nextChunk hint cut b committed)
      (s.cache.bufferedTokens cut b)).Booked := booked_add booked rfl rfl
  have surplus' : (s.add (s.cache.nextChunk hint cut b committed)
      (s.cache.bufferedTokens cut b)).surplus = s.surplus := surplus_add booked rfl
  rw [commitChunk_eq]
  dsimp only
  split
  next fits => exact ⟨booked', fun _ => surplus', fun beyond => absurd fits beyond⟩
  next beyond =>
    refine ⟨booked_evict booked', fun fits => absurd fits beyond, fun _ => ?_⟩
    rw [← surplus']
    exact surplus_evict booked' (List.append_ne_nil_of_right_ne_nil _ (List.cons_ne_nil _ _))

/-- Within the limits the loop leaves the surplus as it is, beyond them it evicts. -/
theorem commitChunks_spec (boundaries : List ℕ) {s : Ledger} {cut committed : ℕ}
    (booked : s.Booked) (ascend : (cut :: boundaries).Pairwise (· < ·))
    (inside : ∀ b ∈ boundaries, b ≤ s.cache.pending.tokens.length) :
    (commitChunks least hint s cut committed boundaries).Booked ∧
      s.surplus ≤ (commitChunks least hint s cut committed boundaries).surplus ∧
      (s.FitsCuts cut boundaries →
        (commitChunks least hint s cut committed boundaries).surplus = s.surplus) ∧
      (¬ s.FitsCuts cut boundaries →
        s.surplus + 16 ≤ (commitChunks least hint s cut committed boundaries).surplus) := by
  -- induction on the boundaries: each commit starts where the one before ended
  induction boundaries generalizing s cut committed with
  | nil =>
    refine ⟨booked, le_rfl, fun _ => rfl, fun beyond => absurd ?_ beyond⟩
    rintro last ⟨⟩
  | cons b boundaries ih =>
    obtain ⟨above, ascend'⟩ := List.pairwise_cons.mp ascend
    have forward : cut < b := above b List.mem_cons_self
    have within : b ≤ s.cache.pending.tokens.length := inside b List.mem_cons_self
    have tokens : (s.cache.bufferedTokens cut b).length = b - cut :=
      ChunkKvCache.length_bufferedTokens cut within
    have next : commitChunks least hint s cut committed (b :: boundaries) =
        commitChunks least hint (s.commitChunk least hint cut b committed) b (committed + 1)
          boundaries := by
      rw [commitChunks, if_neg (by omega), if_neg (by omega),
        if_neg (ChunkKvCache.isEmpty_bufferedTokens forward within)]
    obtain ⟨booked', same, more⟩ := @commitChunk_spec least hint s booked cut b committed
    obtain ⟨pending, -, -⟩ := @ChunkKvCache.commitChunk_cases least hint s.cache cut b committed
    obtain ⟨booked'', grows, sameRest, moreRest⟩ := @ih _ b (committed + 1) booked' ascend'
      fun b' member => (inside b' (List.mem_cons_of_mem _ member)).trans_eq
        (congrArg (·.tokens.length) pending).symm
    have all := fitsCuts_cons (s := s) ascend tokens (s.cache.nextChunk hint cut b committed)
    rw [next]
    by_cases fits : s.Fits 1 (s.cache.estimateChunkBytes (s.cache.bufferedTokens cut b))
    · have added : s.commitChunk least hint cut b committed =
          s.add (s.cache.nextChunk hint cut b committed) (s.cache.bufferedTokens cut b) := by
        rw [commitChunk_eq]
        exact if_pos fits
      rw [added] at sameRest moreRest grows same booked'' ⊢
      refine ⟨booked'', (same fits).ge.trans grows, fun within => ?_, fun beyond => ?_⟩
      · exact (sameRest (all.mp within).2).trans (same fits)
      · exact (same fits) ▸ moreRest fun rest => beyond (all.mpr ⟨fits, rest⟩)
    · -- What is evicted here, the rest of the loop does not make up for.
      have evicted := more fits
      exact ⟨booked'', by omega, fun within => absurd (all.mp within).1 fits,
        fun _ => evicted.trans grows⟩

/-! ## One call -/

/-- What a call does to the books, where `within` says that it evicts nothing. -/
structure Effect (s t : Ledger) (within : Prop) : Prop where
  booked : t.Booked
  settled : within → s.surplus = 0 → t.surplus = 0
  evicted : ¬ within → s.surplus + 16 ≤ t.surplus

theorem effect_refl (booked : s.Booked) {within : Prop} (holds : within) : Effect s s within :=
  ⟨booked, fun _ settled => settled, fun beyond => absurd holds beyond⟩

theorem effect_ingestTokens (booked : s.Booked) (tokens : List UInt32) {t : Ledger}
    (taken : s.step least (.ingestTokens tokens hint) = some t) :
    Effect s t (s.WithinLimits (.ingestTokens tokens hint)) := by
  cases taken
  rcases eq_or_ne tokens [] with rfl | some_
  · exact effect_refl booked fun absurd_ => absurd rfl absurd_
  set boundaries := s.cache.detectChunks (s.cache.pending.tokens ++ tokens)
  obtain ⟨ascend, inside⟩ := s.cache.detectChunks_spec (s.cache.pending.tokens ++ tokens)
  have buffered : Booked { s with cache := s.cache.buffer tokens } :=
    ⟨booked.fresh, booked.refundable⟩
  obtain ⟨booked', -, same, more⟩ := @commitChunks_spec least hint boundaries _ 0 0 buffered
    (List.pairwise_cons.mpr ⟨fun b member => (inside b member).1, ascend⟩)
    fun b member => (inside b member).2
  have within : s.WithinLimits (.ingestTokens tokens hint) ↔
      FitsCuts { s with cache := s.cache.buffer tokens } 0 boundaries := by
    constructor
    · exact fun within => within some_
    · exact fun fits _ => fits
  have committed : (commitChunks least hint { s with cache := s.cache.buffer tokens } 0 0
      boundaries).cache = (ChunkKvCache.commitChunks least hint (s.cache.buffer tokens) 0 0
        boundaries).1 := cache_commitChunks boundaries _ 0 0
  have charged : s.chargedBy least (.ingestTokens tokens hint) =
      (commitChunks least hint { s with cache := s.cache.buffer tokens } 0 0
        boundaries).charged := by
    rw [chargedBy, if_neg (by simpa using some_)]
  rw [within, charged, ChunkKvCache.apply, Session.ingestTokens_eq some_]
  dsimp only
  rw [← committed]
  -- Draining the buffer touches no chunk.
  split
  next =>
    exact ⟨⟨booked'.fresh, booked'.refundable⟩, fun fits settled => (same fits).trans settled, more⟩
  next => exact ⟨booked', fun fits settled => (same fits).trans settled, more⟩

theorem effect_insertChunk (booked : s.Booked) {start stop : UInt32} {tokens pages : List UInt32}
    {t : Ledger} (taken : s.step least (.insertChunk start stop tokens pages) = some t) :
    Effect s t (s.WithinLimits (.insertChunk start stop tokens pages)) := by
  cases taken
  simp only [ChunkKvCache.apply, chargedBy, ChunkKvCache.insertChunk]
  by_cases order : stop ≤ start
  · rw [if_pos order]
    exact effect_refl booked fun forward => absurd forward (UInt32.not_lt.mpr order)
  rw [if_neg order]
  by_cases count : (stop - start).toNat ≠ tokens.length
  · rw [if_pos count]
    exact effect_refl booked fun _ matched => absurd matched count
  rw [if_neg count]
  dsimp only
  have within : s.WithinLimits (.insertChunk start stop tokens pages) ↔
      s.Fits 1 (s.cache.estimateChunkBytes tokens) := by
    constructor
    · exact fun within => within (UInt32.not_le.mp order) (not_not.mp count)
    · exact fun fits _ _ => fits
  set chunk := s.cache.insertedChunk start stop tokens pages
  have booked' : (s.add chunk tokens).Booked := booked_add booked rfl rfl
  have surplus' : (s.add chunk tokens).surplus = s.surplus := surplus_add booked rfl
  have evicted := @evictOverLimits_spec least _ _ booked'
  rw [within]
  refine ⟨evicted.1, fun fits settled => ?_, fun beyond => ?_⟩
  · -- Within the limits the loop ends at once.
    rw [ChunkKvCache.evictOverLimits, if_neg]
    · exact surplus'.trans settled
    · rintro ⟨-, beyond⟩
      unfold Fits at fits
      simp only [ChunkKvCache.addChunk, List.length_append, List.length_singleton] at beyond
      omega
  · rw [← surplus']
    refine surplus_evictOverLimits booked'
      (List.append_ne_nil_of_right_ne_nil _ (List.cons_ne_nil _ _)) ?_
    unfold Fits at beyond
    simp only [ChunkKvCache.addChunk, List.length_append, List.length_singleton]
    omega

theorem effect_evictOne (booked : s.Booked) {t : Ledger}
    (taken : s.step least .evictOne = some t) : Effect s t (s.WithinLimits .evictOne) := by
  cases taken
  refine ⟨booked_evict booked, fun empty settled => ?_, fun some_ => surplus_evict booked some_⟩
  have same : s.cache.evictLowest least = s.cache := dif_neg (not_not.mpr empty)
  simp only [ChunkKvCache.apply, ChunkKvCache.evictOne, same]
  exact settled

theorem effect_clear {t : Ledger} (taken : s.step least .clear = some t) :
    Effect s t (s.WithinLimits .clear) := by
  cases taken
  refine ⟨⟨?_, ?_⟩, fun _ _ => rfl, fun beyond => absurd trivial beyond⟩
  · rintro chunk ⟨⟩
  · rintro chunk ⟨⟩

theorem effect_step (booked : s.Booked) {op : ChunkOp} {t : Ledger}
    (taken : s.step least op = some t) : Effect s t (s.WithinLimits op) := by
  cases op with
  -- The only call that starts the books over is the clear.
  | ingestTokens tokens hint => exact effect_ingestTokens booked tokens taken
  | insertChunk start stop tokens pages => exact effect_insertChunk booked taken
  | evictOne => exact effect_evictOne booked taken
  | clear => exact effect_clear taken

/-! ## Runs -/

theorem exec_cache {ops : List ChunkOp} {s t : Ledger}
    (run : Runs.exec (step least) s ops = some t) :
    t.cache = ops.foldl (ChunkKvCache.apply least) s.cache := by
  induction ops generalizing s with
  | nil =>
    cases run
    rfl
  | cons op ops ih => exact ih run

/-- Along any calls the law holds throughout exactly if no call evicts a chunk. -/
theorem usedBytesLaw_iff (least : LeastImportant) (maxChunks budgetBytes perTokenCompressed : ℕ)
    (sentenceEnds speakerBounds : List UInt32) (ops : List ChunkOp) :
    let initial := start maxChunks budgetBytes perTokenCompressed sentenceEnds speakerBounds
    ∃ t, Runs.exec (step least) initial ops = some t ∧
      t.cache = ops.foldl (ChunkKvCache.apply least) initial.cache ∧
      (Runs.Always (step least) UsedBytesLaw initial ops ↔
        Runs.Guarded (step least) WithinLimits initial ops) := by
  intro initial
  obtain ⟨t, run⟩ := Runs.exec_total (step least) (fun s op => ⟨_, rfl⟩) initial ops
  refine ⟨t, run, exec_cache run, ?_⟩
  refine Runs.always_iff_guarded (step least) (I := fun s => s.Booked ∧ s.UsedBytesLaw)
    (fun s inv => inv.2) ?_ ?_ ?_ run
  · rintro s op t ⟨booked, law⟩ within taken
    have effect := effect_step booked taken
    exact ⟨effect.booked, law_iff.mpr (effect.settled within (law_iff.mp law))⟩
  · rintro s op t ⟨booked, law⟩ taken after
    by_contra beyond
    -- An eviction leaves bytes behind that the law has no room for.
    have left := (effect_step booked taken).evicted beyond
    have settled := law_iff.mp law
    have settled' := law_iff.mp after
    omega
  · refine ⟨⟨?_, ?_⟩, law_iff.mpr rfl⟩
    · rintro chunk ⟨⟩
    · rintro chunk ⟨⟩

/-- After the one chunk is evicted, 16 bytes stay in use. -/
theorem evicted_chunk_leaves_bytes :
    ∃ t, Runs.exec (step Session.oldest) (start 10 (2 ^ 20) 256 [9] [])
        [.ingestTokens [1, 9] .sentence, .evictOne] = some t ∧
      t.cache.chunks = [] ∧ t.cache.currentBytes = 16 ∧ ¬ t.UsedBytesLaw := by
  refine ⟨_, rfl, rfl, rfl, fun law => ?_⟩
  exact absurd (law.emptied rfl) (by decide)

end Ledger

end TribunusCompute.Cache
