import Mathlib.Algebra.GroupWithZero.Nat
import TribunusCompute.Cache.ChunkKv
import TribunusCompute.Library.Runs

/-!
# Chunks over a stream of calls

The chunks tile the ingested stream as long as every commit starts where the last
one ended. A call that finds the buffer drained starts over at position 0 instead.
-/
namespace TribunusCompute.Cache

/-- The chunks cover the positions from `lo` to `hi` one after the other. -/
def Tiles : ℕ → List SemanticChunk → ℕ → Prop
  | lo, [], hi => lo = hi
  | lo, chunk :: chunks, hi =>
    chunk.startToken.toNat = lo ∧ lo < chunk.endToken.toNat ∧
      chunk.tokenCount.toNat = chunk.endToken.toNat - lo ∧ Tiles chunk.endToken.toNat chunks hi

theorem tiles_append {lo hi : ℕ} {front back : List SemanticChunk} :
    Tiles lo (front ++ back) hi ↔ ∃ mid, Tiles lo front mid ∧ Tiles mid back hi := by
  induction front generalizing lo with
  | nil => simp [Tiles]
  | cons chunk front ih =>
    simp only [List.cons_append, Tiles, ih]
    constructor
    · rintro ⟨start, forward, count, mid, left, right⟩
      exact ⟨mid, ⟨start, forward, count, left⟩, right⟩
    · rintro ⟨mid, ⟨start, forward, count, left⟩, right⟩
      exact ⟨start, forward, count, mid, left, right⟩

theorem tiles_unique {lo hi hi' : ℕ} {chunks : List SemanticChunk} (tiles : Tiles lo chunks hi)
    (tiles' : Tiles lo chunks hi') : hi = hi' := by
  induction chunks generalizing lo with
  | nil => exact tiles.symm.trans tiles'
  | cons chunk chunks ih => exact ih tiles.2.2.2 tiles'.2.2.2

theorem tiles_le {lo hi : ℕ} {chunks : List SemanticChunk} (tiles : Tiles lo chunks hi) :
    lo ≤ hi := by
  induction chunks generalizing lo with
  | nil => exact tiles.le
  | cons chunk chunks ih => exact tiles.2.1.le.trans (ih tiles.2.2.2)

theorem tiles_lt {lo hi : ℕ} {chunks : List SemanticChunk} (some_ : chunks ≠ [])
    (tiles : Tiles lo chunks hi) : hi < 2 ^ 32 := by
  induction chunks generalizing lo with
  | nil => exact absurd rfl some_
  | cons chunk chunks ih =>
    rcases eq_or_ne chunks [] with rfl | more
    · rw [← tiles.2.2.2]
      exact chunk.endToken.toNat_lt
    · exact ih more tiles.2.2.2

theorem sum_tokenCount {lo hi : ℕ} {chunks : List SemanticChunk} (tiles : Tiles lo chunks hi) :
    (chunks.map (·.tokenCount.toNat)).sum = hi - lo := by
  induction chunks generalizing lo with
  | nil =>
    rw [show lo = hi from tiles, Nat.sub_self]
    rfl
  | cons chunk chunks ih =>
    have := tiles_le tiles.2.2.2
    have := tiles.2.1
    rw [List.map_cons, List.sum_cons, ih tiles.2.2.2, tiles.2.2.1]
    omega

/-! ## The commit loop -/

namespace ChunkKvCache

variable {least : LeastImportant} {hint : ChunkType}

theorem commitChunk_cases (c : ChunkKvCache) (cut b committed : ℕ) :
    (c.commitChunk least hint cut b committed).pending = c.pending ∧
      (c.commitChunk least hint cut b committed).nextChunkId = c.nextChunkId + 1 ∧
      ((c.commitChunk least hint cut b committed).chunks =
          c.chunks ++ [c.nextChunk hint cut b committed] ∨
        (c.commitChunk least hint cut b committed).chunks.length = c.chunks.length) := by
  unfold commitChunk
  dsimp only
  split
  next =>
    have some_ : c.chunks ++ [c.nextChunk hint cut b committed] ≠ [] := by simp
    refine ⟨?_, ?_, .inr ?_⟩
    · rw [evictLowest, dif_pos some_]
    · rw [evictLowest, dif_pos some_]
    · rw [length_evictLowest, List.length_append, List.length_singleton, Nat.add_sub_cancel]
  next => exact ⟨rfl, rfl, .inl rfl⟩

theorem toNat_add_ofNat (x : UInt32) (n : ℕ) :
    (x + UInt32.ofNat n).toNat = (x.toNat + n) % 2 ^ 32 := by
  rw [UInt32.toNat_add, UInt32.toNat_ofNat']
  omega

theorem length_bufferedTokens {c : ChunkKvCache} {b : ℕ} (cut : ℕ)
    (within : b ≤ c.pending.tokens.length) : (c.bufferedTokens cut b).length = b - cut := by
  rw [bufferedTokens, List.length_drop, List.length_take, Nat.min_eq_left within]

theorem isEmpty_bufferedTokens {c : ChunkKvCache} {cut b : ℕ} (forward : cut < b)
    (within : b ≤ c.pending.tokens.length) : ¬ (c.bufferedTokens cut b).isEmpty := by
  rw [List.isEmpty_iff_length_eq_zero, length_bufferedTokens cut within]
  omega

theorem commitChunks_cons {c : ChunkKvCache} {cut b committed : ℕ} (boundaries : List ℕ)
    (forward : cut < b) (within : b ≤ c.pending.tokens.length) :
    commitChunks least hint c cut committed (b :: boundaries) =
      commitChunks least hint (c.commitChunk least hint cut b committed) b (committed + 1)
        boundaries := by
  rw [commitChunks, if_neg (by omega), if_neg (by omega),
    if_neg (isEmpty_bufferedTokens forward within)]

/-- Where no chunk has been evicted by the end, the loop has added one chunk for each boundary.
They tile the buffer exactly if the first starts in place and the last ends below `2^32`. -/
theorem commitChunks_spec (boundaries : List ℕ) {c : ChunkKvCache} {cut committed : ℕ}
    (ascend : (cut :: boundaries).Pairwise (· < ·))
    (inside : ∀ b ∈ boundaries, b ≤ c.pending.tokens.length)
    (room : c.chunks.length + 1 ≤ c.nextChunkId)
    (kept : (commitChunks least hint c cut committed boundaries).1.nextChunkId =
      (commitChunks least hint c cut committed boundaries).1.chunks.length + 1) :
    (commitChunks least hint c cut committed boundaries).1.pending = c.pending ∧
      (commitChunks least hint c cut committed boundaries).2.1 = boundaries.getLast?.getD cut ∧
      c.nextChunkId = c.chunks.length + 1 ∧
      ∃ new, (commitChunks least hint c cut committed boundaries).1.chunks = c.chunks ++ new ∧
        ∀ lo, Tiles lo new (lo + (boundaries.getLast?.getD cut - cut)) ↔
          (boundaries ≠ [] → (c.pending.startToken + UInt32.ofNat cut).toNat = lo ∧
            lo + (boundaries.getLast?.getD cut - cut) < 2 ^ 32) := by
  induction boundaries generalizing c cut committed with
  | nil =>
    refine ⟨rfl, rfl, kept, [], (List.append_nil _).symm, fun lo => ?_⟩
    simp [Tiles]
  | cons b boundaries ih =>
    obtain ⟨above, ascend'⟩ := List.pairwise_cons.mp ascend
    have forward : cut < b := above b List.mem_cons_self
    have within : b ≤ c.pending.tokens.length := inside b List.mem_cons_self
    have tokens : (c.bufferedTokens cut b).length = b - cut := length_bufferedTokens cut within
    obtain ⟨pending, id, chunks⟩ := @commitChunk_cases least hint c cut b committed
    rw [commitChunks_cons boundaries forward within] at kept ⊢
    obtain ⟨pending', last, id', new, chunks', tiles⟩ := ih ascend'
      (fun b' member => pending ▸ inside b' (List.mem_cons_of_mem _ member)) (by
        rcases chunks with added | evicted
        · rw [added, id, List.length_append, List.length_singleton]
          omega
        · omega) kept
    -- An eviction here would still show in the number of chunks at the end.
    have added : (c.commitChunk least hint cut b committed).chunks =
        c.chunks ++ [c.nextChunk hint cut b committed] := by
      rcases chunks with added | evicted
      · exact added
      · omega
    have lastEq : (b :: boundaries).getLast?.getD cut = boundaries.getLast?.getD b := by
      rw [List.getLast?_cons, Option.getD_some]
    have above : b ≤ boundaries.getLast?.getD b := by
      cases found : boundaries.getLast? with
      | none => rfl
      | some last =>
        exact ((List.pairwise_cons.mp ascend').1 last (List.mem_of_getLast? found)).le
    rw [pending] at pending' tiles
    rw [lastEq]
    refine ⟨pending', last, ?_, c.nextChunk hint cut b committed :: new, ?_, fun lo => ?_⟩
    · rw [added, List.length_append, List.length_singleton] at id'
      omega
    · rw [chunks', added, List.append_assoc, List.singleton_append]
    generalize boundaries.getLast?.getD b = last at *
    have position := toNat_add_ofNat c.pending.startToken
    constructor
    · intro covers _
      exact ⟨covers.1, tiles_lt (List.cons_ne_nil _ _) covers⟩
    · intro inPlace
      -- Below `2^32` the positions of the chunk are the ones that `u32` gives.
      obtain ⟨start, below⟩ := inPlace (List.cons_ne_nil _ _)
      have stop : (c.pending.startToken + UInt32.ofNat b).toNat = lo + (b - cut) := by
        rw [position] at start ⊢
        omega
      have count : (UInt32.ofNat (c.bufferedTokens cut b).length).toNat = b - cut := by
        rw [tokens, UInt32.toNat_ofNat', Nat.mod_eq_of_lt]
        omega
      have rest := (tiles (lo + (b - cut))).mpr fun _ => ⟨stop, by omega⟩
      refine ⟨start, ?_, ?_, ?_⟩
      · exact stop ▸ Nat.lt_add_of_pos_right (by omega)
      · exact count.trans (by rw [nextChunk, stop, Nat.add_sub_cancel_left])
      · rw [nextChunk, stop]
        convert rest using 1
        omega

end ChunkKvCache

structure Session where
  cache : ChunkKvCache
  stream : List UInt32

namespace Session

def start (maxChunks budgetBytes : ℕ) (sentenceEnds speakerBounds : List UInt32) : Session where
  cache := (ChunkKvCache.new maxChunks budgetBytes).setBoundaryTokens sentenceEnds speakerBounds
  stream := []

/-- One call, within limits large enough that every chunk committed so far is still there. -/
def step (least : LeastImportant) (s : Session) (call : List UInt32 × ChunkType) :
    Option Session :=
  let cache := (s.cache.ingestTokens least call.1 call.2).1
  if cache.nextChunkId = cache.chunks.length + 1 then
    some { cache := cache, stream := s.stream ++ call.1 }
  else none

/-- The chunks tile the stream from its start, the buffer holds the rest, and all lengths
add up. -/
structure TilingLaw (s : Session) : Prop where
  tiles : ∃ hi, Tiles 0 s.cache.chunks hi ∧ s.cache.pending.tokens = s.stream.drop hi
  total : (s.cache.chunks.map (·.tokenCount.toNat)).sum + s.cache.pending.tokens.length =
    s.stream.length

/-- How many tokens have left the buffer. -/
def drained (s : Session) : ℕ := s.stream.length - s.cache.pending.tokens.length

/-- If the call cuts the buffer, the buffer starts at the position after the drained tokens, and
the last cut is at a position below `2^32`. -/
def CutsInPlace (s : Session) (call : List UInt32 × ChunkType) : Prop :=
  call.1 ≠ [] →
    ∀ b ∈ (s.cache.detectChunks (s.cache.pending.tokens ++ call.1)).getLast?,
      s.cache.bufferStart.toNat = s.drained ∧ s.drained + b < 2 ^ 32

instance (s : Session) (call : List UInt32 × ChunkType) : Decidable (s.CutsInPlace call) :=
  inferInstanceAs <| Decidable <| call.1 ≠ [] →
    ∀ b ∈ (s.cache.detectChunks (s.cache.pending.tokens ++ call.1)).getLast?,
      s.cache.bufferStart.toNat = s.drained ∧ s.drained + b < 2 ^ 32

/-! ## One call -/

section
variable {least : LeastImportant} {s t : Session} {tokens : List UInt32} {hint : ChunkType}

theorem detectFrom_buffer (c : ChunkKvCache) (more tokens : List UInt32) (i lastBoundary : ℕ) :
    (c.buffer more).detectFrom i lastBoundary tokens = c.detectFrom i lastBoundary tokens := by
  induction tokens generalizing i lastBoundary with
  | nil => rfl
  | cons token tokens ih =>
    simp only [ChunkKvCache.detectFrom, ih]
    rfl

theorem detectChunks_buffer (c : ChunkKvCache) (more tokens : List UInt32) :
    (c.buffer more).detectChunks tokens = c.detectChunks tokens := by
  simp only [ChunkKvCache.detectChunks, detectFrom_buffer]

theorem ingestTokens_eq {c : ChunkKvCache} (some_ : tokens ≠ []) :
    (c.ingestTokens least tokens hint).1 =
      let committed := ChunkKvCache.commitChunks least hint (c.buffer tokens) 0 0
        (c.detectChunks (c.pending.tokens ++ tokens))
      if 0 < committed.2.1 then committed.1.drain committed.2.1 else committed.1 := by
  have notEmpty : ¬ tokens.isEmpty := fun empty => some_ (List.isEmpty_iff.mp empty)
  rw [← detectChunks_buffer c tokens, ChunkKvCache.ingestTokens, if_neg notEmpty]
  dsimp only [ChunkKvCache.buffer]
  split <;> rfl

theorem step_cases (taken : s.step least (tokens, hint) = some t) :
    t.cache = (s.cache.ingestTokens least tokens hint).1 ∧ t.stream = s.stream ++ tokens ∧
      t.cache.nextChunkId = t.cache.chunks.length + 1 := by
  unfold step at taken
  dsimp only at taken
  split at taken
  next resident =>
    cases taken
    exact ⟨rfl, rfl, resident⟩
  next => cases taken

/-- What a call with tokens does: the buffer loses its first tokens up to the last boundary, to
chunks that are added. -/
theorem step_spec (resident : s.cache.nextChunkId = s.cache.chunks.length + 1)
    (some_ : tokens ≠ []) (taken : s.step least (tokens, hint) = some t) :
    let boundaries := s.cache.detectChunks (s.cache.pending.tokens ++ tokens)
    let cut := boundaries.getLast?.getD 0
    t.stream = s.stream ++ tokens ∧
      t.cache.pending.tokens = (s.cache.pending.tokens ++ tokens).drop cut ∧
      cut ≤ (s.cache.pending.tokens ++ tokens).length ∧
      ∃ new, t.cache.chunks = s.cache.chunks ++ new ∧
        ∀ lo, Tiles lo new (lo + cut) ↔
          (boundaries ≠ [] → s.cache.bufferStart.toNat = lo ∧ lo + cut < 2 ^ 32) := by
  intro boundaries cut
  obtain ⟨cache, stream, resident'⟩ := step_cases taken
  rw [ingestTokens_eq some_] at cache
  obtain ⟨ascend, inside⟩ := s.cache.detectChunks_spec (s.cache.pending.tokens ++ tokens)
  have cutInside : cut ≤ (s.cache.pending.tokens ++ tokens).length := by
    cases last : boundaries.getLast? with
    | none => simp [cut, last]
    | some b =>
      simp only [cut, last, Option.getD_some]
      exact (inside b (List.mem_of_getLast? last)).2
  -- Draining changes neither the chunks nor the counter.
  have chunks : t.cache.chunks = (ChunkKvCache.commitChunks least hint (s.cache.buffer tokens) 0 0
      boundaries).1.chunks := by
    rw [cache]
    dsimp only
    split <;> rfl
  have counter : t.cache.nextChunkId = (ChunkKvCache.commitChunks least hint
      (s.cache.buffer tokens) 0 0 boundaries).1.nextChunkId := by
    rw [cache]
    dsimp only
    split <;> rfl
  have kept : (ChunkKvCache.commitChunks least hint (s.cache.buffer tokens) 0 0
      boundaries).1.nextChunkId = (ChunkKvCache.commitChunks least hint (s.cache.buffer tokens) 0 0
        boundaries).1.chunks.length + 1 := by
    rw [← chunks, ← counter, resident']
  have inside' : ∀ b ∈ boundaries, b ≤ (s.cache.buffer tokens).pending.tokens.length :=
    fun b member => (inside b member).2
  obtain ⟨pending, last, -, new, added, tiles⟩ :=
    ChunkKvCache.commitChunks_spec boundaries
      (List.pairwise_cons.mpr ⟨fun b member => (inside b member).1, ascend⟩) inside' resident.ge kept
  refine ⟨stream, ?_, cutInside, new, chunks.trans added, fun lo => ?_⟩
  · rw [cache]
    dsimp only
    rw [last]
    split
    next =>
      rw [ChunkKvCache.drain, pending]
      rfl
    next none_ =>
      rw [pending, show cut = 0 from Nat.eq_zero_of_not_pos none_, List.drop_zero]
      rfl
  · have tiles := tiles lo
    rw [Nat.sub_zero, ChunkKvCache.toNat_add_ofNat, Nat.add_zero,
      Nat.mod_eq_of_lt (UInt32.toNat_lt _)] at tiles
    exact tiles

/-- The law, and nothing evicted so far. -/
structure Kept (s : Session) : Prop where
  law : s.TilingLaw
  resident : s.cache.nextChunkId = s.cache.chunks.length + 1

theorem TilingLaw.covers (law : s.TilingLaw) :
    Tiles 0 s.cache.chunks s.drained ∧ s.cache.pending.tokens = s.stream.drop s.drained ∧
      s.drained + s.cache.pending.tokens.length = s.stream.length := by
  obtain ⟨hi, tiles, pending⟩ := law.tiles
  have total := law.total
  rw [sum_tokenCount tiles, Nat.sub_zero] at total
  have same : s.drained = hi := by
    unfold drained
    omega
  rw [same]
  exact ⟨tiles, pending, total⟩

theorem tilingLaw_of_covers {hi : ℕ} (tiles : Tiles 0 s.cache.chunks hi)
    (pending : s.cache.pending.tokens = s.stream.drop hi) (inside : hi ≤ s.stream.length) :
    s.TilingLaw := by
  refine ⟨⟨hi, tiles, pending⟩, ?_⟩
  rw [sum_tokenCount tiles, pending, List.length_drop]
  omega

theorem step_nil (taken : s.step least ([], hint) = some t) : t = s := by
  obtain ⟨cache, stream, -⟩ := step_cases taken
  obtain ⟨_, _⟩ := t
  cases cache
  rw [List.append_nil] at stream
  cases stream
  rfl

/-- The chunks of a call that cuts in place are those that tile what it takes from the buffer. -/
theorem cutsInPlace_iff_tiles (some_ : tokens ≠ []) {new : List SemanticChunk}
    (tilesNew : ∀ lo, Tiles lo new (lo + (s.cache.detectChunks
        (s.cache.pending.tokens ++ tokens)).getLast?.getD 0) ↔
      (s.cache.detectChunks (s.cache.pending.tokens ++ tokens) ≠ [] →
        s.cache.bufferStart.toNat = lo ∧ lo + (s.cache.detectChunks
          (s.cache.pending.tokens ++ tokens)).getLast?.getD 0 < 2 ^ 32)) :
    s.CutsInPlace (tokens, hint) ↔
      Tiles s.drained new (s.drained + (s.cache.detectChunks
        (s.cache.pending.tokens ++ tokens)).getLast?.getD 0) := by
  rw [tilesNew]
  unfold CutsInPlace
  cases last : (s.cache.detectChunks (s.cache.pending.tokens ++ tokens)).getLast? with
  | none => simp [List.getLast?_eq_none_iff.mp last]
  | some b =>
    have nonempty : s.cache.detectChunks (s.cache.pending.tokens ++ tokens) ≠ [] := by
      rintro empty
      simp [empty] at last
    simp [some_, nonempty]

theorem tilingLaw_step_iff (kept : s.Kept) {call : List UInt32 × ChunkType}
    (taken : s.step least call = some t) : t.TilingLaw ↔ s.CutsInPlace call := by
  obtain ⟨tokens, hint⟩ := call
  obtain ⟨tiles, pending, total⟩ := kept.law.covers
  rcases eq_or_ne tokens [] with rfl | some_
  · exact iff_of_true (step_nil taken ▸ kept.law) fun absurd_ => absurd rfl absurd_
  · obtain ⟨stream, pending', inside, new, chunks, tilesNew⟩ := step_spec kept.resident some_ taken
    rw [cutsInPlace_iff_tiles some_ tilesNew]
    generalize (s.cache.detectChunks (s.cache.pending.tokens ++ tokens)).getLast?.getD 0 = cut at *
    rw [List.length_append] at inside
    have drained' : t.drained = s.drained + cut := by
      unfold drained at total ⊢
      rw [stream, pending', List.length_append, List.length_drop, List.length_append]
      omega
    constructor
    · intro law
      -- The old chunks end where the tokens drained so far do, and the new ones go on from there.
      obtain ⟨tiles', -, -⟩ := law.covers
      rw [chunks, drained'] at tiles'
      obtain ⟨mid, left, right⟩ := tiles_append.mp tiles'
      obtain rfl := tiles_unique tiles left
      exact right
    · intro right
      have tiles' : Tiles 0 t.cache.chunks (s.drained + cut) := by
        rw [chunks]
        exact tiles_append.mpr ⟨s.drained, tiles, right⟩
      refine tilingLaw_of_covers tiles' ?_ ?_
      · have rest : (s.stream ++ tokens).drop s.drained = s.stream.drop s.drained ++ tokens :=
          List.drop_append_of_le_length (by omega)
        rw [pending', pending, stream, ← List.drop_drop, rest]
      · rw [stream, List.length_append]
        omega

end

/-- Along any calls that evict nothing, the chunks tile the stream throughout exactly if every
call cuts in place. -/
theorem tilingLaw_iff_cutsInPlace (least : LeastImportant) (maxChunks budgetBytes : ℕ)
    (sentenceEnds speakerBounds : List UInt32) (calls : List (List UInt32 × ChunkType)) (t : Session)
    (run : Runs.exec (step least) (start maxChunks budgetBytes sentenceEnds speakerBounds) calls =
      some t) :
    Runs.Always (step least) TilingLaw (start maxChunks budgetBytes sentenceEnds speakerBounds)
        calls ↔
      Runs.Guarded (step least) CutsInPlace
        (start maxChunks budgetBytes sentenceEnds speakerBounds) calls := by
  refine Runs.always_iff_guarded (step least) (fun s (kept : s.Kept) => kept.law) ?_ ?_ ?_ run
  · intro s call t kept inPlace taken
    exact ⟨(tilingLaw_step_iff kept taken).mpr inPlace, (step_cases taken).2.2⟩
  · intro s call t kept taken law
    exact (tilingLaw_step_iff kept taken).mp law
  · exact ⟨tilingLaw_of_covers rfl rfl (Nat.zero_le _), rfl⟩

/-- The first chunk is always the one to go. -/
def oldest : LeastImportant := fun _ some_ => ⟨0, List.length_pos_iff.mpr some_⟩

/-- Calls that leave something in the buffer. -/
theorem tilingLaw_undrained :
    Runs.Always (step oldest) TilingLaw (start 100 (2 ^ 29) [9] [13])
      [([1, 2, 9, 3], .sentence), ([4, 9, 5], .userInput)] :=
  (tilingLaw_iff_cutsInPlace oldest 100 (2 ^ 29) [9] [13] _ _ rfl).mpr (by decide)

/-- The second sentence starts over at position 0. -/
theorem drained_buffer_starts_over :
    ∃ t, Runs.exec (step oldest) (start 100 (2 ^ 29) [9] [])
        [([1, 2, 9], .sentence), ([4, 5, 9], .sentence)] = some t ∧ ¬ t.TilingLaw := by
  refine ⟨_, rfl, fun law => ?_⟩
  obtain ⟨hi, first, -⟩ := law.tiles
  have second := first.2.2.2
  exact absurd second.1 (by decide)

end Session

end TribunusCompute.Cache
