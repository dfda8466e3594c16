import TribunusCompute.Cache.ChunkTiling

/-!
# Which chunks match a query

The walk goes through the chunks by position and compares each with the query at a
position of its own, which it moves on by the chunk's tokens. It never compares the two
positions, so a hit stands for a prefix of the token buffer only as far as the chunks
it takes start where the walk is.
-/
namespace TribunusCompute.Cache

/-! ## The walk -/

/-- `sort_by_key(|c| c.start_token)`; the sort is stable. -/
def sortByStart (chunks : List SemanticChunk) : List SemanticChunk :=
  chunks.insertionSort fun a b => a.startToken ≤ b.startToken

theorem sortByStart_perm (chunks : List SemanticChunk) : (sortByStart chunks).Perm chunks :=
  List.perm_insertionSort _ chunks

/-- The pages and the number of tokens of the chunks that match from `queryPos` on. -/
def matchFrom (query buffer : List UInt32) :
    (queryPos : ℕ) → (pages : List UInt32) → (tokens : UInt32) → List SemanticChunk →
      List UInt32 × UInt32
  | _, pages, tokens, [] => (pages, tokens)
  | queryPos, pages, tokens, chunk :: chunks =>
    let ct := chunk.tokenCount.toNat
    -- Whatever does not match ends the walk; no later chunk is tried.
    if query.length < queryPos + ct then (pages, tokens)
    else
      -- the buffer is read at the positions of the chunk, the query where the walk is
      let chunkStart := chunk.startToken.toNat
      let chunkEnd := chunk.endToken.toNat
      if buffer.length < chunkEnd then (pages, tokens)
      else
        let storedTokens := (buffer.take chunkEnd).drop chunkStart
        let querySpan := (query.take (queryPos + ct)).drop queryPos
        if storedTokens ≠ querySpan then (pages, tokens)
        else
          matchFrom query buffer (queryPos + ct) (pages ++ chunk.kvPages) (tokens + UInt32.ofNat ct)
            chunks

def findMatchingPrefixVerified (query buffer : List UInt32) (chunksToCheck : List SemanticChunk) :
    Option (List UInt32 × UInt32) :=
  if query.isEmpty || chunksToCheck.isEmpty || buffer.isEmpty then none
  else
    let (pages, tokens) := matchFrom query buffer 0 [] 0 (sortByStart chunksToCheck)
    if tokens = 0 then none else some (pages, tokens)

def SemanticChunk.Inserted (chunk : SemanticChunk) : Prop :=
  ∃ least, ∃ c : ChunkKvCache, ∃ start stop tokens pages after,
    c.insertChunk least start stop tokens pages = .ok after ∧
      chunk = c.insertedChunk start stop tokens pages

/-! ## What a hit stands for -/

/-- The tokens of the chunk are those of the query at the offset. -/
def SemanticChunk.Matches (query buffer : List UInt32) (offset : ℕ) (chunk : SemanticChunk) :
    Prop :=
  offset + chunk.tokenCount.toNat ≤ query.length ∧ chunk.endToken.toNat ≤ buffer.length ∧
    (buffer.take chunk.endToken.toNat).drop chunk.startToken.toNat =
      (query.take (offset + chunk.tokenCount.toNat)).drop offset

instance (query buffer : List UInt32) (offset : ℕ) (chunk : SemanticChunk) :
    Decidable (chunk.Matches query buffer offset) :=
  inferInstanceAs (Decidable (_ ∧ _ ∧ _))

def matchedChunks (query buffer : List UInt32) : (offset : ℕ) → List SemanticChunk →
    List SemanticChunk
  | _, [] => []
  | offset, chunk :: chunks =>
    if chunk.Matches query buffer offset then
      chunk :: matchedChunks query buffer (offset + chunk.tokenCount.toNat) chunks
    else []

/-- Each chunk of the first that match starts at its offset in the query. -/
def StartInPlace (query buffer : List UInt32) : (offset : ℕ) → List SemanticChunk → Prop
  | _, [] => True
  | offset, chunk :: chunks =>
    chunk.Matches query buffer offset →
      chunk.startToken.toNat = offset ∧
        StartInPlace query buffer (offset + chunk.tokenCount.toNat) chunks

/-- The pages can be reused for the first `n` tokens of the query: these are the first of the
buffer, and the pages are those of chunks that tile them. -/
structure SoundHit (query buffer : List UInt32) (chunks taken : List SemanticChunk)
    (pages : List UInt32) (n : UInt32) : Prop where
  given : ∀ chunk ∈ taken, chunk ∈ chunks
  within : n.toNat ≤ query.length
  same : query.take n.toNat = buffer.take n.toNat
  tiles : Tiles 0 taken n.toNat
  pages : pages = taken.flatMap (·.kvPages)

variable {query buffer : List UInt32}

theorem SemanticChunk.Inserted.counts {chunk : SemanticChunk} (inserted : chunk.Inserted) :
    chunk.startToken.toNat < chunk.endToken.toNat ∧
      chunk.startToken.toNat + chunk.tokenCount.toNat = chunk.endToken.toNat := by
  obtain ⟨least, c, start, stop, tokens, pages, after, ok, rfl⟩ := inserted
  unfold ChunkKvCache.insertChunk at ok
  split at ok
  next => cases ok
  next order =>
    split at ok
    next => cases ok
    next count =>
      have forward : start < stop := UInt32.not_le.mp order
      have length : (stop - start).toNat = tokens.length := not_not.mp count
      rw [UInt32.toNat_sub_of_le _ _ (UInt32.le_of_lt forward)] at length
      -- the tokens are as many as the positions, so 32 bits count them
      have before := UInt32.lt_iff_toNat_lt.mp forward
      have below := stop.toNat_lt
      refine ⟨before, ?_⟩
      simp only [ChunkKvCache.insertedChunk, UInt32.toNat_ofNat']
      rw [← length, Nat.mod_eq_of_lt (by omega)]
      omega

theorem matchedChunks_front (offset : ℕ) (chunks : List SemanticChunk) :
    matchedChunks query buffer offset chunks <+: chunks := by
  induction chunks generalizing offset with
  | nil => exact List.prefix_rfl
  | cons chunk chunks ih =>
    rw [matchedChunks]
    split
    · exact List.cons_prefix_cons.mpr ⟨rfl, ih _⟩
    · exact List.nil_prefix

theorem sum_counts_le (offset : ℕ) (chunks : List SemanticChunk) :
    offset ≤ query.length →
      offset + ((matchedChunks query buffer offset chunks).map (·.tokenCount.toNat)).sum ≤
        query.length := by
  induction chunks generalizing offset with
  | nil => simp [matchedChunks]
  | cons chunk chunks ih =>
    intro inside
    rw [matchedChunks]
    split
    next fits =>
      have rest := ih (offset + chunk.tokenCount.toNat) fits.1
      rw [List.map_cons, List.sum_cons]
      omega
    next => simpa using inside

/-- The walk gives the pages of the chunks that match, and counts their tokens in 32 bits. -/
theorem matchFrom_eq (queryPos : ℕ) (pages : List UInt32) (tokens : UInt32)
    (chunks : List SemanticChunk) :
    matchFrom query buffer queryPos pages tokens chunks =
      (pages ++ (matchedChunks query buffer queryPos chunks).flatMap (·.kvPages),
        tokens + UInt32.ofNat
          ((matchedChunks query buffer queryPos chunks).map (·.tokenCount.toNat)).sum) := by
  induction chunks generalizing queryPos pages tokens with
  | nil => simp [matchFrom, matchedChunks]
  | cons chunk chunks ih =>
    rw [matchFrom, matchedChunks]
    by_cases fits : chunk.Matches query buffer queryPos
    -- the three checks of the walk pass where the chunk matches, and one fails elsewhere
    · rw [if_pos fits, if_neg (Nat.not_lt.mpr fits.1), if_neg (Nat.not_lt.mpr fits.2.1),
        if_neg (not_not.mpr fits.2.2), ih]
      simp [List.append_assoc, UInt32.ofNat_add, UInt32.add_assoc]
    · rw [if_neg fits]
      have stops : query.length < queryPos + chunk.tokenCount.toNat ∨
          buffer.length < chunk.endToken.toNat ∨
          (buffer.take chunk.endToken.toNat).drop chunk.startToken.toNat ≠
            (query.take (queryPos + chunk.tokenCount.toNat)).drop queryPos := by
        by_contra none_
        push Not at none_
        exact fits none_
      have unchanged : tokens + UInt32.ofNat 0 = tokens := UInt32.add_zero tokens
      simp only [List.flatMap_nil, List.append_nil, List.map_nil, List.sum_nil, unchanged]
      split
      · rfl
      split
      · rfl
      · rw [if_pos (by tauto)]

/-! ## Chunks in place -/

/-- What the walk takes in place tiles a stretch that the query and the buffer share. -/
theorem covers_of_startInPlace {offset : ℕ} {chunks : List SemanticChunk}
    (inserted : ∀ chunk ∈ chunks, chunk.Inserted)
    (inPlace : StartInPlace query buffer offset chunks) :
    let stop := offset +
      ((matchedChunks query buffer offset chunks).map (·.tokenCount.toNat)).sum
    Tiles offset (matchedChunks query buffer offset chunks) stop ∧
      (query.take stop).drop offset = (buffer.take stop).drop offset := by
  induction chunks generalizing offset with
  | nil => simp [matchedChunks, Tiles]
  | cons chunk chunks ih =>
    rw [matchedChunks]
    by_cases fits : chunk.Matches query buffer offset
    · rw [if_pos fits]
      obtain ⟨start, rest⟩ := inPlace fits
      obtain ⟨forward, counts⟩ := (inserted chunk List.mem_cons_self).counts
      obtain ⟨tiles, same⟩ := ih (fun chunk member => inserted chunk (.tail _ member)) rest
      simp only [List.map_cons, List.sum_cons, ← Nat.add_assoc]
      generalize offset + chunk.tokenCount.toNat + ((matchedChunks query buffer
        (offset + chunk.tokenCount.toNat) chunks).map (·.tokenCount.toNat)).sum = stop at tiles same
      -- in place, the walk goes on where the chunk ends
      have mid : offset + chunk.tokenCount.toNat = chunk.endToken.toNat := by omega
      have content := fits.2.2
      rw [mid] at same content
      have below := tiles_le tiles
      refine ⟨⟨start, by omega, by omega, mid ▸ tiles⟩, ?_⟩
      -- Up to the end of the chunk its own tokens agree, from there on those of the others.
      have halves (l : List UInt32) : (l.take stop).drop offset =
          (l.take chunk.endToken.toNat).drop offset ++
            (l.take stop).drop chunk.endToken.toNat := by
        rw [List.drop_take, List.drop_take, List.drop_take, ← mid, ← List.drop_drop]
        rw [show stop - offset = (offset + chunk.tokenCount.toNat - offset) +
          (stop - (offset + chunk.tokenCount.toNat)) by omega, List.take_add]
        congr 2
        simp
      rw [halves query, halves buffer, same, ← content, start]
    · rw [if_neg fits]
      simp [Tiles]

theorem startInPlace_of_tiles {offset hi : ℕ} {chunks : List SemanticChunk}
    (inserted : ∀ chunk ∈ chunks, chunk.Inserted)
    (tiles : Tiles offset (matchedChunks query buffer offset chunks) hi) :
    StartInPlace query buffer offset chunks := by
  induction chunks generalizing offset with
  | nil => trivial
  | cons chunk chunks ih =>
    intro fits
    rw [matchedChunks, if_pos fits] at tiles
    obtain ⟨start, -, -, rest⟩ := tiles
    obtain ⟨forward, counts⟩ := (inserted chunk List.mem_cons_self).counts
    refine ⟨start, ih (fun chunk member => inserted chunk (.tail _ member)) ?_⟩
    have mid : offset + chunk.tokenCount.toNat = chunk.endToken.toNat := by omega
    rwa [← mid] at rest

/-! ## Hits -/

theorem matchedChunks_of_isEmpty {chunks : List SemanticChunk}
    (inserted : ∀ chunk ∈ chunks, chunk.Inserted)
    (empty : query.isEmpty || chunks.isEmpty || buffer.isEmpty) (offset : ℕ) :
    matchedChunks query buffer offset chunks = [] := by
  cases chunks with
  | nil => rfl
  | cons chunk chunks =>
    obtain ⟨forward, counts⟩ := (inserted chunk List.mem_cons_self).counts
    rw [matchedChunks, if_neg]
    -- a chunk with tokens does not fit into an empty query or an empty buffer
    rintro ⟨inQuery, inBuffer, -⟩
    simp only [List.isEmpty_cons, Bool.or_false, Bool.or_eq_true, List.isEmpty_iff] at empty
    rcases empty with rfl | rfl
    · rw [List.length_nil] at inQuery
      omega
    · rw [List.length_nil] at inBuffer
      omega

theorem findMatchingPrefixVerified_eq_some {chunks : List SemanticChunk}
    (inserted : ∀ chunk ∈ chunks, chunk.Inserted) (pages : List UInt32) (n : UInt32) :
    let taken := matchedChunks query buffer 0 (sortByStart chunks)
    findMatchingPrefixVerified query buffer chunks = some (pages, n) ↔
      n ≠ 0 ∧ n = UInt32.ofNat (taken.map (·.tokenCount.toNat)).sum ∧
        pages = taken.flatMap (·.kvPages) := by
  intro taken
  unfold findMatchingPrefixVerified
  split
  -- the early return agrees with the walk, which would count no tokens
  next empty =>
    rw [← (sortByStart_perm chunks).isEmpty_eq] at empty
    have none_ : taken = [] := matchedChunks_of_isEmpty (fun chunk member =>
      inserted chunk ((sortByStart_perm chunks).subset member)) empty 0
    rw [none_]
    refine iff_of_false nofun ?_
    rintro ⟨some_, rfl, -⟩
    exact some_ rfl
  next =>
    rw [matchFrom_eq, List.nil_append]
    simp only [UInt32.zero_add]
    split
    next none_ =>
      refine iff_of_false nofun ?_
      rintro ⟨some_, rfl, -⟩
      exact some_ none_
    next some_ =>
      simp only [Option.some.injEq, Prod.mk.injEq]
      constructor
      · rintro ⟨rfl, rfl⟩
        exact ⟨some_, rfl, rfl⟩
      · rintro ⟨-, rfl, rfl⟩
        exact ⟨rfl, rfl⟩

theorem eq_nil_of_sum_counts {chunks : List SemanticChunk}
    (inserted : ∀ chunk ∈ chunks, chunk.Inserted)
    (none_ : (chunks.map (·.tokenCount.toNat)).sum = 0) : chunks = [] := by
  cases chunks with
  | nil => rfl
  | cons chunk chunks =>
    obtain ⟨forward, counts⟩ := (inserted chunk List.mem_cons_self).counts
    rw [List.map_cons, List.sum_cons] at none_
    omega

/-- A hit whose chunks start in place is sound: its end is the end of a chunk, which 32 bits can
count. -/
theorem soundHit_of_startInPlace {chunks : List SemanticChunk}
    (inserted : ∀ chunk ∈ chunks, chunk.Inserted)
    (inPlace : StartInPlace query buffer 0 (sortByStart chunks)) {pages : List UInt32} {n : UInt32}
    (hit : findMatchingPrefixVerified query buffer chunks = some (pages, n)) :
    SoundHit query buffer chunks (matchedChunks query buffer 0 (sortByStart chunks)) pages n := by
  have member {chunk : SemanticChunk} (sorted : chunk ∈ sortByStart chunks) : chunk ∈ chunks :=
    (sortByStart_perm chunks).subset sorted
  obtain ⟨tiles, same⟩ :=
    covers_of_startInPlace (fun chunk sorted => inserted chunk (member sorted)) inPlace
  have bounded := @sum_counts_le query buffer 0 (sortByStart chunks) (Nat.zero_le _)
  have taken_ := @matchedChunks_front query buffer 0 (sortByStart chunks)
  obtain ⟨some_, rfl, rfl⟩ := (findMatchingPrefixVerified_eq_some inserted pages n).mp hit
  rw [Nat.zero_add] at tiles same bounded
  generalize matchedChunks query buffer 0 (sortByStart chunks) = taken at *
  -- the tokens end where the last chunk taken does, which is a 32-bit position
  have counted : (UInt32.ofNat (taken.map (·.tokenCount.toNat)).sum).toNat =
      (taken.map (·.tokenCount.toNat)).sum := by
    rw [UInt32.toNat_ofNat', Nat.mod_eq_of_lt]
    refine tiles_lt ?_ tiles
    rintro rfl
    exact some_ rfl
  rw [List.drop_zero, List.drop_zero] at same
  exact ⟨fun chunk here => member (taken_.subset here), counted.symm ▸ bounded,
    counted.symm ▸ same, counted.symm ▸ tiles, rfl⟩

/-- Where 32 bits count the query's tokens, every hit is sound only if the chunks start in
place. -/
theorem startInPlace_of_soundHits {chunks : List SemanticChunk}
    (inserted : ∀ chunk ∈ chunks, chunk.Inserted) (short : query.length < 2 ^ 32)
    (sound : ∀ pages n, findMatchingPrefixVerified query buffer chunks = some (pages, n) →
      SoundHit query buffer chunks (matchedChunks query buffer 0 (sortByStart chunks)) pages n) :
    StartInPlace query buffer 0 (sortByStart chunks) := by
  have inserted' : ∀ chunk ∈ sortByStart chunks, chunk.Inserted := fun chunk member =>
    inserted chunk ((sortByStart_perm chunks).subset member)
  have inPlace := fun hi => @startInPlace_of_tiles query buffer 0 hi _ inserted'
  have bounded := @sum_counts_le query buffer 0 (sortByStart chunks) (Nat.zero_le _)
  have taken_ := @matchedChunks_front query buffer 0 (sortByStart chunks)
  have hit := @findMatchingPrefixVerified_eq_some query buffer chunks inserted
  dsimp only at hit
  rw [Nat.zero_add] at bounded
  generalize matchedChunks query buffer 0 (sortByStart chunks) = taken at *
  generalize total_ : (taken.map (·.tokenCount.toNat)).sum = total at *
  have counted : (UInt32.ofNat total).toNat = total := by
    rw [UInt32.toNat_ofNat', Nat.mod_eq_of_lt (bounded.trans_lt short)]
  by_cases none_ : UInt32.ofNat total = 0
  · -- Nothing is reported, and every chunk has tokens, so nothing was taken.
    have zero : total = 0 := by
      rw [← counted, none_]
      rfl
    have empty := eq_nil_of_sum_counts
      (fun chunk member => inserted' chunk (taken_.subset member)) (total_.trans zero)
    exact inPlace 0 (empty ▸ rfl)
  · exact inPlace _ (sound _ _ ((hit _ _).mpr ⟨none_, rfl, rfl⟩)).tiles

/-- For chunks that went in through direct insertions, a hit is sound where the chunks it takes
start in place, and only there as long as 32 bits count the query's tokens. -/
theorem soundHit_iff_startInPlace (query buffer : List UInt32) (chunks : List SemanticChunk)
    (inserted : ∀ chunk ∈ chunks, chunk.Inserted) :
    let sorted := sortByStart chunks
    let Sound := ∀ pages n, findMatchingPrefixVerified query buffer chunks = some (pages, n) →
      SoundHit query buffer chunks (matchedChunks query buffer 0 sorted) pages n
    (StartInPlace query buffer 0 sorted → Sound) ∧
      (query.length < 2 ^ 32 → Sound → StartInPlace query buffer 0 sorted) :=
  ⟨fun inPlace _ _ hit => soundHit_of_startInPlace inserted inPlace hit,
    fun short sound => startInPlace_of_soundHits inserted short sound⟩

def insertedChunkAt (start stop : UInt32) (tokens : List UInt32) : SemanticChunk :=
  (ChunkKvCache.new 10 (2 ^ 20)).insertedChunk start stop tokens [7]

/-- The chunk at the start of the buffer is a sound hit. -/
theorem soundHit_first_chunk :
    SoundHit [1, 2, 3, 4] [1, 2, 3] [insertedChunkAt 0 3 [1, 2, 3]]
      [insertedChunkAt 0 3 [1, 2, 3]] [7] 3 := by
  have inserted : ∀ chunk ∈ [insertedChunkAt 0 3 [1, 2, 3]], chunk.Inserted := by
    intro chunk member
    rw [List.mem_singleton.mp member]
    exact ⟨Session.oldest, .new 10 (2 ^ 20), 0, 3, [1, 2, 3], [7], _, rfl, rfl⟩
  exact (soundHit_iff_startInPlace [1, 2, 3, 4] [1, 2, 3] _ inserted).1
    (fun _ => ⟨rfl, trivial⟩) [7] 3 rfl

/-- The tokens at position 3 of the buffer are taken for those at its start. -/
theorem later_chunk_taken_for_the_first :
    (insertedChunkAt 3 6 [1, 2, 3]).Inserted ∧
      findMatchingPrefixVerified [1, 2, 3] [9, 9, 9, 1, 2, 3] [insertedChunkAt 3 6 [1, 2, 3]] =
        some ([7], 3) ∧
      ([1, 2, 3] : List UInt32).take 3 ≠ [9, 9, 9, 1, 2, 3].take 3 ∧
      ∀ taken,
        ¬ SoundHit [1, 2, 3] [9, 9, 9, 1, 2, 3] [insertedChunkAt 3 6 [1, 2, 3]] taken [7] 3 := by
  refine ⟨⟨Session.oldest, .new 10 (2 ^ 20), 3, 6, [1, 2, 3], [7], _, rfl, rfl⟩, rfl, by decide, ?_⟩
  intro taken sound
  exact absurd sound.same (by decide)

end TribunusCompute.Cache
