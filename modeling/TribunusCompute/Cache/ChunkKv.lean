import Mathlib.Algebra.Group.Nat.Defs
import Mathlib.Data.List.Sort

/-!
# Chunks of the KV cache at sentence boundaries

`cache/chunk_kv.rs`: tokens are buffered until a boundary shows up, and the buffer is
then cut into chunks. Importance scores are floating-point numbers, so the choice of
the chunk to evict is a parameter, and a byte estimate per token stands for the
compression ratio.
-/
namespace TribunusCompute.Cache

inductive ChunkType
  | sentence
  | system
  | userInput
  | assistantReply
  deriving DecidableEq, Repr

structure SemanticChunk where
  chunkId : ℕ
  startToken : UInt32
  endToken : UInt32
  tokenCount : UInt32
  kvPages : List UInt32
  chunkType : ChunkType
  deriving DecidableEq, Repr

structure PendingChunk where
  tokens : List UInt32
  startToken : UInt32
  deriving DecidableEq, Repr

structure ChunkKvCache where
  chunks : List SemanticChunk
  maxChunks : ℕ
  totalBudgetBytes : ℕ
  currentBytes : ℕ
  /-- `256.0` over the compression ratio, as an integer. -/
  perTokenCompressed : ℕ
  nextChunkId : ℕ
  pending : PendingChunk
  sentenceEndTokens : List UInt32
  speakerBoundaryTokens : List UInt32
  deriving DecidableEq, Repr

abbrev LeastImportant := (chunks : List SemanticChunk) → chunks ≠ [] → Fin chunks.length

def maxFallbackTokens : ℕ := 128

/-- `size_of::<SemanticChunk>()` on 64-bit targets. -/
def semanticChunkSize : ℕ := 56

namespace ChunkKvCache

def new (maxChunks budgetBytes : ℕ) : ChunkKvCache where
  chunks := []
  maxChunks := maxChunks
  totalBudgetBytes := budgetBytes
  currentBytes := 0
  perTokenCompressed := 256
  nextChunkId := 1
  pending := { tokens := [], startToken := 0 }
  sentenceEndTokens := []
  speakerBoundaryTokens := []

def setBoundaryTokens (c : ChunkKvCache) (sentenceEnds speakerBounds : List UInt32) :
    ChunkKvCache :=
  { c with sentenceEndTokens := sentenceEnds, speakerBoundaryTokens := speakerBounds }

/-! ## Boundaries -/

/-- The boundaries from position `i` on, and the last boundary. -/
def detectFrom (c : ChunkKvCache) : (i lastBoundary : ℕ) → List UInt32 → List ℕ × ℕ
  | _, lastBoundary, [] => ([], lastBoundary)
  | i, lastBoundary, token :: tokens =>
    let gap := i - lastBoundary
    if token ∈ c.speakerBoundaryTokens ∧ 2 ≤ gap ∨ token ∈ c.sentenceEndTokens ∧ 1 ≤ gap then
      let (boundaries, last) := detectFrom c (i + 1) (i + 1) tokens
      ((i + 1) :: boundaries, last)
    else detectFrom c (i + 1) lastBoundary tokens

def detectChunks (c : ChunkKvCache) (tokens : List UInt32) : List ℕ :=
  if tokens.isEmpty then []
  else
    let (boundaries, lastBoundary) := c.detectFrom 0 0 tokens
    let remaining := tokens.length - lastBoundary
    let boundaries :=
      if maxFallbackTokens < remaining then boundaries ++ [lastBoundary + maxFallbackTokens]
      else boundaries
    if boundaries.isEmpty ∧ maxFallbackTokens < tokens.length then [maxFallbackTokens]
    else boundaries

/-! ## Commits -/

def inferChunkType (c : ChunkKvCache) (tokens : List UInt32) (hint : ChunkType) : ChunkType :=
  if hint ≠ .sentence then hint
  else if tokens.isEmpty then .sentence
  else if tokens.any (· ∈ c.speakerBoundaryTokens) then .userInput
  else .sentence

def estimateChunkBytes (c : ChunkKvCache) (tokens : List UInt32) : ℕ :=
  tokens.length * c.perTokenCompressed + (semanticChunkSize + 4 * 4)

def estimateEvictionBytes (c : ChunkKvCache) (chunk : SemanticChunk) : ℕ :=
  chunk.tokenCount.toNat * c.perTokenCompressed + semanticChunkSize

/-- Remove the least important chunk; the last chunk takes its place. -/
def evictLowest (least : LeastImportant) (c : ChunkKvCache) : ChunkKvCache :=
  if some_ : c.chunks ≠ [] then
    let idx := least c.chunks some_
    let evicted := c.chunks[idx]
    { c with
      chunks := (c.chunks.set idx (c.chunks.getLast some_)).dropLast
      currentBytes := c.currentBytes - c.estimateEvictionBytes evicted }
  else c

def bufferedTokens (c : ChunkKvCache) (cut b : ℕ) : List UInt32 :=
  (c.pending.tokens.take b).drop cut

/-- The chunk that the buffer holds from `cut` to `b`. -/
def nextChunk (hint : ChunkType) (c : ChunkKvCache) (cut b committed : ℕ) : SemanticChunk where
  chunkId := c.nextChunkId
  startToken := c.pending.startToken + UInt32.ofNat cut
  endToken := c.pending.startToken + UInt32.ofNat b
  tokenCount := UInt32.ofNat (c.bufferedTokens cut b).length
  kvPages := [UInt32.ofNat committed]
  chunkType := if cut = 0 then hint else c.inferChunkType (c.bufferedTokens cut b) hint

/-- Add the next chunk, and evict one beyond the limits. -/
def commitChunk (least : LeastImportant) (hint : ChunkType) (c : ChunkKvCache)
    (cut b committed : ℕ) : ChunkKvCache :=
  let c : ChunkKvCache :=
    { c with
      nextChunkId := c.nextChunkId + 1
      currentBytes := c.currentBytes + c.estimateChunkBytes (c.bufferedTokens cut b)
      chunks := c.chunks ++ [c.nextChunk hint cut b committed] }
  if c.maxChunks < c.chunks.length ∨ c.totalBudgetBytes < c.currentBytes then c.evictLowest least
  else c

/-- The loop over the boundaries: the cache, the last cut and the number of commits. -/
def commitChunks (least : LeastImportant) (hint : ChunkType) :
    ChunkKvCache → (cut committed : ℕ) → List ℕ → ChunkKvCache × ℕ × ℕ
  | c, cut, committed, [] => (c, cut, committed)
  | c, cut, committed, b :: boundaries =>
    if c.pending.tokens.length < b then (c, cut, committed)
    else if b ≤ cut then commitChunks least hint c cut committed boundaries
    else if (c.bufferedTokens cut b).isEmpty then commitChunks least hint c b committed boundaries
    else
      commitChunks least hint (c.commitChunk least hint cut b committed) b (committed + 1)
        boundaries

def bufferStart (c : ChunkKvCache) : UInt32 :=
  if c.pending.tokens.isEmpty then 0 else c.pending.startToken

def buffer (c : ChunkKvCache) (tokens : List UInt32) : ChunkKvCache :=
  { c with pending := { tokens := c.pending.tokens ++ tokens, startToken := c.bufferStart } }

def drain (c : ChunkKvCache) (cut : ℕ) : ChunkKvCache :=
  { c with
    pending :=
      { tokens := c.pending.tokens.drop cut
        startToken := c.pending.startToken + UInt32.ofNat cut } }

/-- The cache after the call, and the number of chunks it committed. -/
def ingestTokens (least : LeastImportant) (c : ChunkKvCache) (tokens : List UInt32)
    (hint : ChunkType) : ChunkKvCache × ℕ :=
  if tokens.isEmpty then (c, 0)
  else
    let c := c.buffer tokens
    let (c, cut, committed) :=
      commitChunks least hint c 0 0 (c.detectChunks c.pending.tokens)
    if 0 < cut then (c.drain cut, committed) else (c, committed)

/-! ## Direct calls -/

def addChunk (c : ChunkKvCache) (chunk : SemanticChunk) (tokens : List UInt32) : ChunkKvCache :=
  { c with
    nextChunkId := c.nextChunkId + 1
    currentBytes := c.currentBytes + c.estimateChunkBytes tokens
    chunks := c.chunks ++ [chunk] }

theorem length_evictLowest (least : LeastImportant) (c : ChunkKvCache) :
    (c.evictLowest least).chunks.length = c.chunks.length - 1 := by
  unfold evictLowest
  split
  next => simp
  next none_ => simp [not_not.mp none_]

/-- Evict until the cache is empty or within its limits. -/
def evictOverLimits (least : LeastImportant) (c : ChunkKvCache) : ChunkKvCache :=
  if c.chunks ≠ [] ∧ (c.maxChunks < c.chunks.length ∨ c.totalBudgetBytes < c.currentBytes) then
    evictOverLimits least (c.evictLowest least)
  else c
termination_by c.chunks.length
decreasing_by
  rename_i beyond
  have := List.length_pos_iff.mpr beyond.1
  rw [length_evictLowest]
  omega

def insertedChunk (c : ChunkKvCache) (start stop : UInt32) (tokens pages : List UInt32) :
    SemanticChunk where
  chunkId := c.nextChunkId
  startToken := start
  endToken := stop
  tokenCount := UInt32.ofNat tokens.length
  kvPages := pages
  chunkType := c.inferChunkType tokens .sentence

def insertChunk (least : LeastImportant) (c : ChunkKvCache) (start stop : UInt32)
    (tokens pages : List UInt32) : Except String ChunkKvCache :=
  if stop ≤ start then .error "chunk start must be < end"
  else if (stop - start).toNat ≠ tokens.length then
    .error s!"chunk token count mismatch: start={start}, end={stop}, tokens.len={tokens.length}"
  else
    .ok ((c.addChunk (c.insertedChunk start stop tokens pages) tokens).evictOverLimits least)

def evictOne (least : LeastImportant) (c : ChunkKvCache) : ChunkKvCache :=
  c.evictLowest least

/-- The counter of chunk ids goes on. -/
def clear (c : ChunkKvCache) : ChunkKvCache :=
  { c with
    chunks := []
    currentBytes := 0
    pending := { tokens := [], startToken := 0 } }

/-! ## Where boundaries can be -/

theorem detectFrom_spec (c : ChunkKvCache) (tokens : List UInt32) {i lastBoundary : ℕ}
    (behind : lastBoundary ≤ i) :
    (c.detectFrom i lastBoundary tokens).1.Pairwise (· < ·) ∧
      (∀ b ∈ (c.detectFrom i lastBoundary tokens).1,
        i < b ∧ b ≤ (c.detectFrom i lastBoundary tokens).2) ∧
      lastBoundary ≤ (c.detectFrom i lastBoundary tokens).2 ∧
      (c.detectFrom i lastBoundary tokens).2 ≤ i + tokens.length := by
  induction tokens generalizing i lastBoundary with
  | nil => exact ⟨.nil, by simp [detectFrom], le_rfl, behind⟩
  | cons token tokens ih =>
    rw [detectFrom, List.length_cons]
    dsimp only
    split
    · obtain ⟨ascend, inside, first, last⟩ := @ih (i + 1) (i + 1) le_rfl
      refine ⟨List.pairwise_cons.mpr ⟨fun b member => (inside b member).1, ascend⟩, ?_,
        behind.trans ((Nat.le_succ i).trans first), by omega⟩
      intro b member
      rcases List.mem_cons.mp member with rfl | later
      · exact ⟨Nat.lt_succ_self i, first⟩
      · exact ⟨(Nat.lt_succ_self i).trans (inside b later).1, (inside b later).2⟩
    · obtain ⟨ascend, inside, first, last⟩ :=
        @ih (i + 1) lastBoundary (behind.trans (Nat.le_succ i))
      exact ⟨ascend, fun b member => ⟨(Nat.lt_succ_self i).trans (inside b member).1,
        (inside b member).2⟩, first, by omega⟩

theorem detectChunks_spec (c : ChunkKvCache) (tokens : List UInt32) :
    (c.detectChunks tokens).Pairwise (· < ·) ∧
      ∀ b ∈ c.detectChunks tokens, 0 < b ∧ b ≤ tokens.length := by
  obtain ⟨ascend, inside, -, last⟩ := @detectFrom_spec c tokens 0 0 le_rfl
  generalize found : c.detectFrom 0 0 tokens = result at ascend inside last
  obtain ⟨boundaries, lastBoundary⟩ := result
  rw [Nat.zero_add] at last
  have within : ∀ b ∈ boundaries, 0 < b ∧ b ≤ tokens.length :=
    fun b member => ⟨(inside b member).1, (inside b member).2.trans last⟩
  -- a cut is forced where the rest is longer than the fallback allows
  have forced (long : maxFallbackTokens < tokens.length - lastBoundary) :
      (boundaries ++ [lastBoundary + maxFallbackTokens]).Pairwise (· < ·) ∧
        ∀ b ∈ boundaries ++ [lastBoundary + maxFallbackTokens], 0 < b ∧ b ≤ tokens.length := by
    unfold maxFallbackTokens at *
    refine ⟨List.pairwise_append.mpr ⟨ascend, List.pairwise_singleton _ _, ?_⟩, ?_⟩
    · intro a before b member
      rw [List.mem_singleton.mp member]
      have := (inside a before).2
      omega
    · intro b member
      rcases List.mem_append.mp member with before | here
      · exact within b before
      · rw [List.mem_singleton.mp here]
        omega
  unfold detectChunks
  rw [found]
  dsimp only
  split
  · exact ⟨.nil, by simp⟩
  · split
    next long =>
      rw [if_neg (by simp)]
      exact forced long
    next =>
      split
      next long =>
        refine ⟨List.pairwise_singleton _ _, fun b member => ?_⟩
        rw [List.mem_singleton.mp member]
        unfold maxFallbackTokens at *
        omega
      next => exact ⟨ascend, within⟩

end ChunkKvCache

end TribunusCompute.Cache
