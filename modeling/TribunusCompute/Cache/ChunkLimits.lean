import TribunusCompute.Cache.ChunkLedger

/-!
# The limits of the chunk cache

A direct insertion evicts until the cache is within its limits. A commit from the
buffer evicts at most one chunk, whatever it added, so one large chunk can leave the
cache beyond its byte budget while others stay resident.
-/
namespace TribunusCompute.Cache

/-- The public calls that change the cache. Importance scores are no part of it, so a
recomputation of them changes nothing. -/
inductive CacheCall
  | setCompressionRatio (perTokenCompressed : ℕ)
  | setBoundaryTokens (sentenceEnds speakerBounds : List UInt32)
  | chunk (op : ChunkOp)
  | recomputeImportance
  | flushPending
  deriving DecidableEq, Repr

def CacheCall.inserts : CacheCall → Bool
  | .chunk (.ingestTokens _ _) | .chunk (.insertChunk _ _ _ _) => true
  | _ => false

namespace ChunkKvCache

def setCompressionRatio (c : ChunkKvCache) (perTokenCompressed : ℕ) : ChunkKvCache :=
  { c with perTokenCompressed := perTokenCompressed }

def flushPending (c : ChunkKvCache) : ChunkKvCache :=
  { c with pending := { tokens := [], startToken := 0 } }

def call (least : LeastImportant) (c : ChunkKvCache) : CacheCall → Option ChunkKvCache
  | .setCompressionRatio perTokenCompressed => some (c.setCompressionRatio perTokenCompressed)
  | .setBoundaryTokens sentenceEnds speakerBounds =>
    some (c.setBoundaryTokens sentenceEnds speakerBounds)
  | .chunk op => some (c.apply least op)
  | .recomputeImportance => some c
  | .flushPending => some c.flushPending

/-- No chunk is resident, or both limits hold. -/
def InLimits (c : ChunkKvCache) : Prop :=
  c.chunks = [] ∨ (c.chunks.length ≤ c.maxChunks ∧ c.currentBytes ≤ c.totalBudgetBytes)

instance (c : ChunkKvCache) : Decidable c.InLimits :=
  inferInstanceAs (Decidable (_ ∨ _))

/-- A call that adds chunks returns within the limits. -/
def ReturnsInLimits (_ : ChunkKvCache) (call : CacheCall) (after : ChunkKvCache) : Prop :=
  call.inserts → after.InLimits

/-! ## What the evictions of a call refund -/

variable (least : LeastImportant) (hint : ChunkType)

/-- The lengths of the pieces between a cut and the boundaries behind it. -/
def pieceLengths : (cut : ℕ) → List ℕ → List ℕ
  | _, [] => []
  | cut, b :: boundaries => (b - cut) :: pieceLengths b boundaries

def completed (c : ChunkKvCache) (tokens : List UInt32) : List ℕ :=
  if tokens.isEmpty then [] else pieceLengths 0 (c.detectChunks (c.pending.tokens ++ tokens))

/-- What is charged for a chunk of this length. -/
def pieceBytes (c : ChunkKvCache) (length : ℕ) : ℕ :=
  length * c.perTokenCompressed + (semanticChunkSize + 4 * 4)

/-- The refund for the shortest of the resident chunks and the pieces, which count their tokens
in 32 bits. -/
def leastRefund (c : ChunkKvCache) (pieces : List ℕ) : ℕ :=
  let counts := c.chunks.map (·.tokenCount.toNat) ++ pieces.map (· % 2 ^ 32)
  counts.min?.getD 0 * c.perTokenCompressed + semanticChunkSize

/-- The pieces fit into the budget together with the least refunds of as many evictions as the
number of chunks forces, or of one. Without room for a chunk, and where the one piece is the only
chunk, none stays resident. -/
def RefundsPay (c : ChunkKvCache) : CacheCall → Prop
  | .chunk (.ingestTokens tokens _) =>
    let pieces := c.completed tokens
    let evictions := max 1 (c.chunks.length + pieces.length - c.maxChunks)
    c.maxChunks = 0 ∨ c.chunks.length + pieces.length ≤ 1 ∨
      c.currentBytes + (pieces.map c.pieceBytes).sum ≤
        c.totalBudgetBytes + evictions * c.leastRefund pieces
  | _ => True

instance (c : ChunkKvCache) : (call : CacheCall) → Decidable (c.RefundsPay call)
  | .chunk (.ingestTokens _ _) => inferInstanceAs (Decidable (_ ∨ _ ∨ _))
  | .chunk (.insertChunk _ _ _ _) | .chunk .evictOne | .chunk .clear
  | .setCompressionRatio _ | .setBoundaryTokens _ _ | .recomputeImportance | .flushPending =>
    inferInstanceAs (Decidable True)

variable {least hint}

/-! ## Evictions -/

theorem evictLowest_frame (c : ChunkKvCache) :
    (c.evictLowest least).maxChunks = c.maxChunks ∧
      (c.evictLowest least).totalBudgetBytes = c.totalBudgetBytes ∧
      (c.evictLowest least).pending = c.pending ∧
      (c.evictLowest least).currentBytes ≤ c.currentBytes := by
  unfold evictLowest
  split
  next => exact ⟨rfl, rfl, rfl, Nat.sub_le _ _⟩
  next => exact ⟨rfl, rfl, rfl, le_rfl⟩

theorem inLimits_evictLowest {c : ChunkKvCache} (within : c.InLimits) :
    (c.evictLowest least).InLimits := by
  obtain ⟨chunks, budget, -, bytes⟩ := @evictLowest_frame least c
  rcases within with none_ | ⟨count, fits⟩
  -- with no chunk resident none is after an eviction
  · left
    rw [← List.length_eq_zero_iff, length_evictLowest, none_]
    rfl
  · right
    rw [length_evictLowest, chunks, budget]
    exact ⟨(Nat.sub_le _ _).trans count, bytes.trans fits⟩

theorem inLimits_evictOverLimits (c : ChunkKvCache) : (c.evictOverLimits least).InLimits := by
  induction c using evictOverLimits.induct least with
  | case1 c beyond ih =>
    rw [evictOverLimits, if_pos beyond]
    exact ih
  | case2 c within =>
    -- the loop stops with no chunk left or within both limits
    rw [evictOverLimits, if_neg within]
    by_cases some_ : c.chunks = []
    · exact .inl some_
    · have inside := not_and.mp within some_
      exact .inr (by omega)

/-! ## The commit loop -/

/-- What one commit does, where no eviction refunds less than `r`: it evicts nothing and stays
within the budget, or evicts a chunk that refunds as much. -/
structure Paid (r : ℕ) (c d : ChunkKvCache) (length : ℕ) : Prop where
  pending : d.pending = c.pending
  maxChunks : d.maxChunks = c.maxChunks
  budget : d.totalBudgetBytes = c.totalBudgetBytes
  perToken : d.perTokenCompressed = c.perTokenCompressed
  room : d.chunks.length ≤ c.maxChunks
  refunds : ∀ chunk ∈ d.chunks, r ≤ d.estimateEvictionBytes chunk
  bytes : d.chunks.length = c.chunks.length + 1 ∧ d.currentBytes ≤ c.totalBudgetBytes ∧
      d.currentBytes = c.currentBytes + c.pieceBytes length ∨
    d.chunks.length = c.chunks.length ∧ d.currentBytes + r ≤ c.currentBytes + c.pieceBytes length

theorem refund_le_pieceBytes (c : ChunkKvCache) (length : ℕ) :
    length % 2 ^ 32 * c.perTokenCompressed + semanticChunkSize ≤ c.pieceBytes length := by
  have fewer : length % 2 ^ 32 * c.perTokenCompressed ≤ length * c.perTokenCompressed :=
    Nat.mul_le_mul_right _ (Nat.mod_le _ _)
  unfold pieceBytes
  omega

theorem paid_commitChunk {r : ℕ} {c : ChunkKvCache} (room : c.chunks.length ≤ c.maxChunks)
    (resident : ∀ chunk ∈ c.chunks, r ≤ c.estimateEvictionBytes chunk) {cut b : ℕ}
    (committed : ℕ) (within : b ≤ c.pending.tokens.length)
    (piece : r ≤ (b - cut) % 2 ^ 32 * c.perTokenCompressed + semanticChunkSize) :
    Paid r c (c.commitChunk least hint cut b committed) (b - cut) := by
  have charged : c.estimateChunkBytes (c.bufferedTokens cut b) = c.pieceBytes (b - cut) := by
    rw [estimateChunkBytes, length_bufferedTokens cut within, pieceBytes]
  have refunds : ∀ chunk ∈ c.chunks ++ [c.nextChunk hint cut b committed],
      r ≤ c.estimateEvictionBytes chunk := by
    intro chunk member
    rcases List.mem_append.mp member with old | new
    · exact resident chunk old
    · rw [List.mem_singleton.mp new, estimateEvictionBytes, nextChunk, UInt32.toNat_ofNat',
        length_bufferedTokens cut within]
      exact piece
  have refunded := piece.trans (refund_le_pieceBytes c (b - cut))
  unfold commitChunk
  dsimp only
  rw [charged, List.length_append, List.length_singleton]
  split
  next =>
    have some_ : c.chunks ++ [c.nextChunk hint cut b committed] ≠ [] := by simp
    rw [evictLowest, dif_pos some_]
    have left := Removal.set_dropLast_perm some_ (least _ some_).isLt
    have count : ((c.chunks ++ [c.nextChunk hint cut b committed]).set (least _ some_)
        ((c.chunks ++ [c.nextChunk hint cut b committed]).getLast some_)).dropLast.length =
        c.chunks.length := by simp
    refine ⟨rfl, rfl, rfl, rfl, count.le.trans room, fun chunk member => ?_, .inr ⟨count, ?_⟩⟩
    · exact refunds chunk (left.subset (List.mem_cons_of_mem _ member))
    · -- where the refund is more than the bytes in use, the new chunk alone was charged `r`
      have := refunds _ (List.getElem_mem (least _ some_).isLt)
      change c.currentBytes + c.pieceBytes (b - cut) - c.estimateEvictionBytes _ + r ≤ _
      simp only [Fin.getElem_fin]
      omega
  next within =>
    rw [not_or, not_lt, not_lt] at within
    exact ⟨rfl, rfl, rfl, rfl, by simpa using within.1, refunds,
      .inl ⟨by simp, within.2, rfl⟩⟩

/-- The loop over the boundaries ends with room for its chunks. It ends within the budget, or with
all the refunds that the number of chunks forces, and with one at least. -/
theorem commitChunks_paid {r : ℕ} (boundaries : List ℕ) {c : ChunkKvCache} {cut : ℕ}
    (committed : ℕ) (some_ : boundaries ≠ []) (ascend : (cut :: boundaries).Pairwise (· < ·))
    (inside : ∀ b ∈ boundaries, b ≤ c.pending.tokens.length)
    (room : c.chunks.length ≤ c.maxChunks)
    (resident : ∀ chunk ∈ c.chunks, r ≤ c.estimateEvictionBytes chunk)
    (pieces : ∀ n ∈ pieceLengths cut boundaries,
      r ≤ n % 2 ^ 32 * c.perTokenCompressed + semanticChunkSize) :
    let d := (commitChunks least hint c cut committed boundaries).1
    let evictions := max 1 (c.chunks.length + boundaries.length - c.maxChunks)
    d.maxChunks = c.maxChunks ∧ d.totalBudgetBytes = c.totalBudgetBytes ∧
      d.chunks.length ≤ c.maxChunks ∧ (d.currentBytes ≤ c.totalBudgetBytes ∨
        d.currentBytes + evictions * r ≤
          c.currentBytes + ((pieceLengths cut boundaries).map c.pieceBytes).sum) := by
  induction boundaries generalizing c cut committed with
  | nil => exact absurd rfl some_
  | cons b boundaries ih =>
    obtain ⟨above, ascend'⟩ := List.pairwise_cons.mp ascend
    have within : b ≤ c.pending.tokens.length := inside b List.mem_cons_self
    have first := pieces (b - cut) List.mem_cons_self
    have paid : Paid r c (c.commitChunk least hint cut b committed) (b - cut) :=
      paid_commitChunk room resident committed within first
    have refunded := first.trans (refund_le_pieceBytes c (b - cut))
    rw [commitChunks_cons boundaries (above b List.mem_cons_self) within]
    generalize c.commitChunk least hint cut b committed = next at paid ⊢
    have bytes := paid.bytes
    simp only [pieceLengths, List.map_cons, List.sum_cons, List.length_cons]
    by_cases last : boundaries = []
    · subst last
      have evictions : max 1 (c.chunks.length + 1 - c.maxChunks) = 1 := by omega
      refine ⟨paid.maxChunks, paid.budget, paid.room, ?_⟩
      simp only [commitChunks, pieceLengths, List.map_nil, List.sum_nil, List.length_nil,
        Nat.zero_add, evictions]
      omega
    · have charges : next.pieceBytes = c.pieceBytes :=
        funext fun n => by rw [pieceBytes, pieceBytes, paid.perToken]
      obtain ⟨chunks, budget, count, rest⟩ := @ih next b (committed + 1) last ascend'
        (fun b' member => paid.pending ▸ inside b' (List.mem_cons_of_mem _ member))
        (paid.maxChunks ▸ paid.room) paid.refunds
        (fun n member => paid.perToken ▸ pieces n (List.mem_cons_of_mem _ member))
      rw [paid.maxChunks, paid.budget, charges] at rest
      refine ⟨chunks.trans paid.maxChunks, budget.trans paid.budget, count.trans_eq paid.maxChunks,
        rest.imp_right fun rest => ?_⟩
      generalize ((pieceLengths b boundaries).map c.pieceBytes).sum = others at rest ⊢
      rcases bytes with ⟨kept, -, charged⟩ | ⟨evicted, charged⟩
      · rw [kept, charged] at rest
        rw [← Nat.add_assoc, ← Nat.add_right_comm]
        omega
      · -- the eviction of this turn comes on top of those of the rest
        rw [evicted] at rest
        have more : max 1 (c.chunks.length + (boundaries.length + 1) - c.maxChunks) * r ≤
            max 1 (c.chunks.length + boundaries.length - c.maxChunks) * r + r := by
          rw [← Nat.succ_mul]
          exact Nat.mul_le_mul_right r (by omega)
        omega

/-! ## One call -/

theorem InLimits.room {c : ChunkKvCache} (within : c.InLimits) :
    c.chunks.length ≤ c.maxChunks := by
  rcases within with none_ | ⟨count, -⟩
  · rw [none_]
    exact Nat.zero_le _
  · exact count

theorem leastRefund_le {c : ChunkKvCache} {pieces : List ℕ} {count : ℕ}
    (member : count ∈ c.chunks.map (·.tokenCount.toNat) ++ pieces.map (· % 2 ^ 32)) :
    c.leastRefund pieces ≤ count * c.perTokenCompressed + semanticChunkSize := by
  obtain ⟨shortest, found⟩ := Option.isSome_iff_exists.mp (List.isSome_min?_of_mem member)
  have least_ : shortest ≤ count := (List.min?_eq_some_iff.mp found).2 count member
  rw [leastRefund, found, Option.getD_some]
  exact Nat.add_le_add_right (Nat.mul_le_mul_right _ least_) _

theorem length_pieceLengths (cut : ℕ) (boundaries : List ℕ) :
    (pieceLengths cut boundaries).length = boundaries.length := by
  induction boundaries generalizing cut with
  | nil => rfl
  | cons b boundaries ih => exact congrArg (· + 1) (ih b)

/-- A call from the buffer returns within the limits where the refunds pay for its chunks. -/
theorem inLimits_ingestTokens {c : ChunkKvCache} (within : c.InLimits) (tokens : List UInt32)
    (pays : c.RefundsPay (.chunk (.ingestTokens tokens hint))) :
    (c.ingestTokens least tokens hint).1.InLimits := by
  rcases eq_or_ne tokens [] with rfl | some_
  · exact within
  obtain ⟨ascend, inside⟩ := c.detectChunks_spec (c.pending.tokens ++ tokens)
  rw [RefundsPay, completed, if_neg (by simp [some_])] at pays
  rw [Session.ingestTokens_eq some_]
  generalize c.detectChunks (c.pending.tokens ++ tokens) = boundaries at ascend inside pays ⊢
  -- Draining the buffer touches neither the chunks nor the bytes in use.
  suffices looped : (commitChunks least hint (c.buffer tokens) 0 0 boundaries).1.InLimits by
    dsimp only
    split <;> exact looped
  by_cases cuts : boundaries = []
  · subst cuts
    exact within
  have resident : ∀ chunk ∈ (c.buffer tokens).chunks,
      c.leastRefund (pieceLengths 0 boundaries) ≤ (c.buffer tokens).estimateEvictionBytes chunk :=
    fun chunk member => leastRefund_le (List.mem_append_left _ (List.mem_map_of_mem member))
  have pieces : ∀ n ∈ pieceLengths 0 boundaries, c.leastRefund (pieceLengths 0 boundaries) ≤
      n % 2 ^ 32 * (c.buffer tokens).perTokenCompressed + semanticChunkSize :=
    fun n member => leastRefund_le (List.mem_append_right _ (List.mem_map_of_mem member))
  have buffered : ∀ b ∈ boundaries, b ≤ (c.buffer tokens).pending.tokens.length :=
    fun b member => (inside b member).2
  obtain ⟨chunks, budget, count, bytes⟩ := @commitChunks_paid least hint _ boundaries
    (c.buffer tokens) 0 0 cuts
    (List.pairwise_cons.mpr ⟨fun b member => (inside b member).1, ascend⟩) buffered within.room
    resident pieces
  rw [length_pieceLengths] at pays
  rcases pays with none_ | only | pays
  · left
    rw [← List.length_eq_zero_iff]
    exact Nat.le_zero.mp (count.trans_eq none_)
  · -- the first chunk of an empty cache: nothing is left where it is evicted
    obtain ⟨b, rfl⟩ : ∃ b, boundaries = [b] := by
      rw [← List.length_eq_one_iff]
      have := List.length_pos_iff.mpr cuts
      omega
    have forward : 0 < b := (inside b List.mem_cons_self).1
    have within' : b ≤ (c.buffer tokens).pending.tokens.length := buffered b List.mem_cons_self
    have paid := @paid_commitChunk least hint _ (c.buffer tokens) within.room resident 0 b 0 within'
      (pieces _ List.mem_cons_self)
    rw [commitChunks_cons [] forward within', commitChunks] at chunks budget count ⊢
    rcases paid.bytes with ⟨-, fits, -⟩ | ⟨left_, -⟩
    · exact .inr ⟨count.trans_eq chunks.symm, fits.trans_eq budget.symm⟩
    · left
      rw [← List.length_eq_zero_iff, left_]
      rw [List.length_singleton] at only
      exact Nat.le_zero.mp (Nat.le_of_succ_le_succ only)
  · right
    refine ⟨count.trans_eq chunks.symm, le_of_le_of_eq ?_ budget.symm⟩
    rcases bytes with fits | refunded
    · exact fits
    · exact Nat.le_of_add_le_add_right (refunded.trans pays)

theorem inLimits_insertChunk {c : ChunkKvCache} (within : c.InLimits) (start stop : UInt32)
    (tokens pages : List UInt32) :
    (c.apply least (.insertChunk start stop tokens pages)).InLimits := by
  simp only [apply, insertChunk]
  -- a refused insertion changes nothing
  by_cases order : stop ≤ start
  · rw [if_pos order]
    exact within
  by_cases count : (stop - start).toNat ≠ tokens.length
  · rw [if_neg order, if_pos count]
    exact within
  · rw [if_neg order, if_neg count]
    exact inLimits_evictOverLimits _

theorem inLimits_call {c d : ChunkKvCache} (within : c.InLimits) {call : CacheCall}
    (pays : c.RefundsPay call) (taken : c.call least call = some d) : d.InLimits := by
  cases call with
  | chunk op =>
    cases taken
    cases op with
    | ingestTokens tokens hint => exact inLimits_ingestTokens within tokens pays
    | insertChunk start stop tokens pages => exact inLimits_insertChunk within start stop tokens pages
    | evictOne => exact inLimits_evictLowest within
    | clear => exact .inl rfl
  | setCompressionRatio | setBoundaryTokens | recomputeImportance | flushPending =>
    cases taken
    exact within

/-! ## Runs -/

/-- Along any public calls whose chunks the refunds pay for, those that add chunks return within
the limits, whichever chunks are evicted. -/
theorem returnsInLimits_of_refundsPay (least : LeastImportant) (maxChunks budgetBytes : ℕ)
    (calls : List CacheCall)
    (pays : Runs.Guarded (call least) RefundsPay (new maxChunks budgetBytes) calls) :
    (∃ c, Runs.exec (call least) (new maxChunks budgetBytes) calls = some c) ∧
      Runs.Throughout (call least) ReturnsInLimits (new maxChunks budgetBytes) calls := by
  have total (c : ChunkKvCache) (call_ : CacheCall) : ∃ d, c.call least call_ = some d := by
    cases call_ <;> exact ⟨_, rfl⟩
  have keeps (c : ChunkKvCache) (call_ : CacheCall) (d : ChunkKvCache) (within : c.InLimits)
      (pays : c.RefundsPay call_) (taken : c.call least call_ = some d) :
      d.InLimits ∧ c.ReturnsInLimits call_ d :=
    have after := inLimits_call within pays taken
    ⟨after, fun _ => after⟩
  exact ⟨Runs.exec_total (call least) total _ calls,
    (Runs.throughout_of_guarded (call least) keeps (.inl rfl) pays).2⟩

/-- A full cache takes two sentences in one call, and evicts one chunk for each. -/
theorem two_sentences_evict_two :
    let calls : List CacheCall := [.setBoundaryTokens [9] [],
      .chunk (.ingestTokens [4, 5, 9] .sentence), .chunk (.ingestTokens [1, 2, 9] .sentence),
      .chunk (.ingestTokens [6, 7, 9, 8, 5, 9] .sentence)]
    ∃ c, Runs.exec (call Session.oldest) (new 2 2000) calls = some c ∧
      c.chunks.map (·.chunkId) = [4, 2] ∧ c.currentBytes = 1712 ∧
      Runs.Throughout (call Session.oldest) ReturnsInLimits (new 2 2000) calls := by
  refine ⟨_, rfl, rfl, rfl, ?_⟩
  exact (returnsInLimits_of_refundsPay Session.oldest 2 2000 _ (by decide)).2

/-- A short sentence makes room for a long one that exceeds the budget without it as well. -/
theorem long_sentence_exceeds_budget :
    ∃ c, Runs.exec (call Session.oldest) (new 10 1000)
        [.setBoundaryTokens [9] [],
          .chunk (.ingestTokens [1, 9, 2, 3, 4, 5, 6, 7, 8, 9] .sentence)] = some c ∧
      c.chunks.length = 1 ∧ c.currentBytes = 2136 ∧
      ¬ Runs.Throughout (call Session.oldest) ReturnsInLimits (new 10 1000)
        [.setBoundaryTokens [9] [],
          .chunk (.ingestTokens [1, 9, 2, 3, 4, 5, 6, 7, 8, 9] .sentence)] := by
  refine ⟨_, rfl, rfl, rfl, fun throughout => ?_⟩
  -- the second of the two calls
  have returns := ((throughout _ rfl).2 _ rfl).1 rfl
  exact absurd returns (by decide)

end ChunkKvCache

end TribunusCompute.Cache
