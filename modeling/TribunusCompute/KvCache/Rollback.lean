import TribunusCompute.KvCache.SlidingWindow

/-!
# Rolling back to a commit

A rollback recomputes the counters from `committed_len` and restores at most one
snapshot. It undoes the appends since the commit where a sliding layer has not
overwritten a visible row, and a global layer has not appended twice.
-/
namespace TribunusCompute.Layer

structure Observation (Row : Type) where
  window : Option (List Row × List Row)
  seqLen : ℕ
  totalAppended : ℕ
  logicalStart : ℕ
  physicalWritePos : ℕ
  deriving DecidableEq

namespace KvCache

variable {A Row : Type} (ops : ArrayOps A) (rows : A → List Row)

def observe (c : KvCache A) : Observation Row where
  window := (c.readWindow ops).map fun (k, v) => (rows k, rows v)
  seqLen := c.seqLen
  totalAppended := c.totalAppended
  logicalStart := c.logicalStart
  physicalWritePos := c.physicalWritePos

def Commits (c : KvCache A) : CacheOp ops → Prop
  | .append _ => c.isFresh = true
  | .commitStep => True
  | .rollback => False

/-- The append can be undone: it does not reach a row of a sliding window, and it is the first
one since the commit for a global layer. -/
def Reversible (c : KvCache A) : CacheOp ops → Prop
  | .append chunk =>
      if c.isSliding then c.totalAppended + ops.shape0 chunk.keys ≤ c.capacity
      else c.totalAppended = c.committedLen
  | _ => True

instance (c : KvCache A) (op : CacheOp ops) : Decidable (c.Reversible ops op) :=
  match op with
  | .append chunk => inferInstanceAs <| Decidable <|
      if c.isSliding then c.totalAppended + ops.shape0 chunk.keys ≤ c.capacity
      else c.totalAppended = c.committedLen
  | .commitStep | .rollback => isTrue trivial

inductive Sound (layer : ℤ × ℤ) (c : KvCache A) : Prop
  | fresh (fresh : c.isFresh = true)
      (sameLayer : layer = (toI32 c.nKvHeads, toI32 c.headDim)) (total : c.totalAppended = 0)
      (visible : c.seqLen = 0) (committed : c.committedLen = 0)
  | sliding (preK preV : A) (buffers : c.Buffers rows preK preV) (positive : 0 < c.capacity)
      (writePos : c.physicalWritePos = c.totalAppended % c.capacity)
      (visible : c.seqLen = min c.totalAppended c.capacity)
      (logical : c.logicalStart = c.totalAppended - c.capacity)
      (some_committed : 0 < c.committedLen) (grows : c.committedLen ≤ c.totalAppended)
  | global (k v : A) (growing : c.isSliding = false) (keys : c.kCache = some k)
      (values : c.vCache = some v) (visible : c.seqLen = c.totalAppended)
      (writePos : c.physicalWritePos = c.totalAppended) (logical : c.logicalStart = 0)
      (snapshot : c.totalAppended = c.committedLen ∨
        ∃ k v, c.rollbackK = some k ∧ c.rollbackV = some v)

variable {ops rows} {heads dim : ℤ}

/-- The first append of a sliding layer without capacity fails. -/
theorem positive_of_append_first {c c' : KvCache A} {keys values : A} (fresh : c.isFresh = true)
    (sliding : c.isSliding = true) (appended : c.append ops keys values = some c') :
    0 < c.capacity := by
  simp only [append, fresh, if_true, firstAppend, sliding, Option.bind_eq_bind,
    Option.bind_eq_some_iff] at appended
  obtain ⟨_, _, appended⟩ := appended
  split at appended
  next => cases appended
  next =>
    simp only [Option.bind_eq_some_iff] at appended
    obtain ⟨_, _, _, _, _, _, _, _, appended⟩ := appended
    split at appended
    next => cases appended
    next positive => exact Nat.pos_of_ne_zero positive

section Lawful

variable (lawful : ops.Lawful heads dim rows)
include lawful

theorem append_global {c : KvCache A} {k v : A} (growing : c.isSliding = false)
    (cachedK : c.kCache = some k) (cachedV : c.vCache = some v) {chunk : TokenChunk ops}
    (room : c.GlobalFits ops (ops.shape0 chunk.keys)) :
    ∃ k' v', rows k' = rows k ++ rows chunk.keys ∧ rows v' = rows v ++ rows chunk.values ∧
      c.append ops chunk.keys chunk.values = some
        { c with
          kCache := some k'
          vCache := some v'
          copyBytes := (c.copyBytes + (ops.size k * 4 + ops.size v * 4)) % 2 ^ 64
          totalAppended := u32 (c.totalAppended + ops.shape0 chunk.keys)
          seqLen := u32 (c.seqLen + ops.shape0 chunk.keys)
          physicalWritePos := u32 (c.physicalWritePos + ops.shape0 chunk.keys)
          rollbackK := some k
          rollbackV := some v } := by
  obtain ⟨-, roomK, roomV⟩ := room
  have same := chunk.sameLength
  simp only [lawful.shape0] at roomK roomV same
  obtain ⟨k', kEq, kRows⟩ := lawful.concatenate k chunk.keys (roomK k cachedK)
  obtain ⟨v', vEq, vRows⟩ := lawful.concatenate v chunk.values (by
    rw [same]
    exact roomV v cachedV)
  refine ⟨k', v', kRows, vRows, ?_⟩
  have fresh : c.isFresh = false := by simp [isFresh, cachedK]
  simp only [append, fresh, Bool.false_eq_true, if_false, growing, appendGlobal,
    Option.bind_eq_bind, Option.bind_eq_some_iff]
  exact ⟨k, cachedK, v, cachedV, k', kEq, v', vEq, by rw [cachedK, cachedV]⟩

theorem sound_append {c c' : KvCache A} (sound : Sound rows (heads, dim) c)
    {chunk : TokenChunk ops} (admissible : c.Admissible ops (.append chunk))
    (room : c.NoOverflow ops (.append chunk))
    (appended : c.append ops chunk.keys chunk.values = some c') :
    Sound rows (heads, dim) c' := by
  have same := chunk.sameLength
  rw [lawful.shape0, lawful.shape0] at same
  cases sound with
  | fresh fresh sameLayer total visible committed =>
    -- The first append makes the buffers, in the form of the layer.
    cases layer : c.isSliding with
    | true =>
      obtain ⟨sameHeads, sameDim⟩ := Prod.mk.inj sameLayer
      have lawful' := lawful
      rw [sameHeads, sameDim] at lawful'
      have positive := positive_of_append_first fresh layer appended
      have some_rows := lawful.shape0 chunk.keys ▸ (admissible layer).1
      obtain ⟨preK, preV, keyRows, valueRows, -, -, result⟩ := append_first_sliding lawful' fresh
        layer positive (room.1 layer).1 some_rows same
      obtain rfl := Option.some.inj (appended.symm.trans result)
      refine .sliding preK preV ⟨layer, rfl, rfl, keyRows, valueRows⟩ positive rfl
        (Nat.min_eq_left (Nat.min_le_right ..)).symm ?_ (Nat.lt_min.mpr ⟨some_rows, positive⟩) le_rfl
      simp [initialized]
    | false =>
      simp only [append, fresh, if_true, firstAppend, layer, Bool.false_eq_true, if_false,
        Option.some.injEq] at appended
      subst appended
      exact .global chunk.keys chunk.values rfl rfl rfl rfl rfl rfl (.inl rfl)
  | sliding preK preV buffers positive writePos visible logical some_committed grows =>
    obtain ⟨some_rows, fits⟩ := admissible buffers.sliding
    obtain ⟨total, position, -⟩ := (room.1 buffers.sliding).2 buffers.not_fresh
    have fits := fits buffers.not_fresh
    rw [lawful.shape0] at some_rows fits total position
    have inside : c.physicalWritePos < c.capacity := writePos ▸ Nat.mod_lt _ positive
    obtain ⟨preK', preV', kRows, vRows, result⟩ := append_sliding lawful _ _ buffers inside some_rows
      fits same position
    obtain rfl := Option.some.inj (appended.symm.trans result)
    have total' := u32_of_lt total
    have position' : u32 (c.physicalWritePos + (rows chunk.keys).length) =
        c.physicalWritePos + (rows chunk.keys).length := u32_of_lt (by omega)
    -- A write around the end of the ring leaves its length, and the position wraps around with it.
    refine .sliding preK' preV' ⟨buffers.sliding, rfl, rfl, ?_, ?_⟩ positive ?_ rfl ?_
      some_committed ?_
    · rw [kRows, Ring.length_write (buffers.keyRows ▸ inside) (buffers.keyRows ▸ fits)]
      exact buffers.keyRows
    · rw [vRows, Ring.length_write (buffers.valueRows ▸ inside)
        (by rw [buffers.valueRows, same]; exact fits)]
      exact buffers.valueRows
    · simp only [advanced, total', position']
      rw [writePos, Nat.mod_add_mod]
    · simp only [advanced, total', logical]
      split <;> omega
    · simp only [advanced, total']
      omega
  | global k v growing keys values visible writePos logical snapshot =>
    have fits := room.2 growing
    obtain ⟨k', v', -, -, result⟩ := append_global lawful growing keys values fits
    obtain rfl := Option.some.inj (appended.symm.trans result)
    exact .global k' v' growing rfl rfl (by simp only [visible]) (by simp only [writePos]) logical
      (.inr ⟨k, v, rfl, rfl⟩)

omit lawful in
theorem sound_rollback {c c' : KvCache A} {layer : ℤ × ℤ} (sound : Sound rows layer c)
    (rolled : c.rollback = some c') : Sound rows layer c' := by
  unfold rollback at rolled
  split at rolled
  next =>
    cases rolled
    exact sound
  next behind =>
    cases sound with
    | fresh fresh sameLayer total visible committed =>
      exact absurd ⟨total.trans committed.symm, visible.trans committed.symm⟩ behind
    | sliding preK preV buffers positive writePos visible logical some_committed grows =>
      simp only [buffers.sliding, if_true, some_committed.ne', if_false, positive.ne',
        Option.some.injEq] at rolled
      subst rolled
      refine .sliding preK preV ⟨rfl, buffers.keys, buffers.values, buffers.keyRows,
        buffers.valueRows⟩ positive rfl rfl ?_ some_committed le_rfl
      dsimp only
      split <;> omega
    | global k v growing keys values visible writePos logical snapshot =>
      simp only [growing, Bool.false_eq_true, if_false, Option.some.injEq] at rolled
      subst rolled
      rcases snapshot with same | ⟨k', v', snapK, snapV⟩
      · exact absurd ⟨same, visible.trans same⟩ behind
      · exact .global k' v' rfl snapK snapV rfl rfl logical (.inl rfl)

theorem sound_step {c c' : KvCache A} {op : CacheOp ops} (sound : Sound rows (heads, dim) c)
    (admissible : c.Admissible ops op) (room : c.NoOverflow ops op)
    (taken : c.step ops op = some c') : Sound rows (heads, dim) c' := by
  cases op with
  | append chunk => exact sound_append lawful sound admissible room taken
  | rollback => exact sound_rollback sound taken
  | commitStep =>
    cases taken
    cases sound with
    | fresh fresh sameLayer total visible committed =>
      exact .fresh fresh sameLayer total visible total
    | sliding preK preV buffers positive writePos visible logical some_committed grows =>
      exact .sliding preK preV ⟨buffers.sliding, buffers.keys, buffers.values, buffers.keyRows,
        buffers.valueRows⟩ positive writePos visible logical (some_committed.trans_le grows) le_rfl
    | global k v growing keys values visible writePos logical snapshot =>
      exact .global k v growing keys values visible writePos logical (.inl rfl)

theorem committed_of_commits {b c : KvCache A} {op : CacheOp ops} (sound : Sound rows (heads, dim) b)
    (admissible : b.Admissible ops op) (room : b.NoOverflow ops op) (commits : b.Commits ops op)
    (taken : b.step ops op = some c) : c.committedLen = c.totalAppended := by
  cases op with
  | rollback => exact commits.elim
  | commitStep =>
    cases taken
    rfl
  | append chunk =>
    have appended : b.append ops chunk.keys chunk.values = some c := taken
    cases sound with
    | sliding preK preV buffers =>
      have fresh : b.isFresh = true := commits
      simp [buffers.not_fresh] at fresh
    | global k v growing keys =>
      have fresh : b.isFresh = true := commits
      simp [isFresh, keys] at fresh
    | fresh fresh sameLayer =>
      cases layer : b.isSliding with
      | true =>
        obtain ⟨sameHeads, sameDim⟩ := Prod.mk.inj sameLayer
        rw [sameHeads, sameDim] at lawful
        have same := chunk.sameLength
        rw [lawful.shape0, lawful.shape0] at same
        have positive := positive_of_append_first fresh layer appended
        obtain ⟨preK, preV, -, -, -, -, result⟩ := append_first_sliding lawful fresh layer positive
          (room.1 layer).1 (lawful.shape0 chunk.keys ▸ (admissible layer).1) same
        obtain rfl := Option.some.inj (appended.symm.trans result)
        rfl
      | false =>
        simp only [append, fresh, if_true, firstAppend, layer, Bool.false_eq_true, if_false,
          Option.some.injEq] at appended
        subst appended
        rfl

/-! ## Since the commit -/

/-- `c'` comes from the commit `c` by reversible appends: the rows of the commit are still in the
rings, or in the snapshot. -/
inductive Since (rows : A → List Row) (c c' : KvCache A) : Prop
  | sliding (preK preV preK' preV' : A) (before : c.Buffers rows preK preV)
      (after : c'.Buffers rows preK' preV') (capacity : c'.capacity = c.capacity)
      (committed : c'.committedLen = c.totalAppended) (grows : c.totalAppended ≤ c'.totalAppended)
      (fits : c'.totalAppended ≤ c.capacity)
      (writePos : c'.physicalWritePos = c'.totalAppended % c.capacity)
      (visible : c'.seqLen = c'.totalAppended) (logical : c'.logicalStart = 0)
      (keptK : (rows preK').take c.totalAppended = (rows preK).take c.totalAppended)
      (keptV : (rows preV').take c.totalAppended = (rows preV).take c.totalAppended)
  | global (k v k' v' : A) (grew : c.isSliding = false) (keys : c.kCache = some k)
      (values : c.vCache = some v) (growing : c'.isSliding = false) (keys' : c'.kCache = some k')
      (values' : c'.vCache = some v') (committed : c'.committedLen = c.totalAppended)
      (visible : c'.seqLen = c'.totalAppended)
      (writePos : c'.physicalWritePos = c'.totalAppended)
      (logical : c'.logicalStart = c.logicalStart)
      (kept : c'.totalAppended = c.totalAppended → rows k' = rows k ∧ rows v' = rows v)
      (snapshot : c'.totalAppended = c.totalAppended ∨ ∃ k'' v'', c'.rollbackK = some k'' ∧
        c'.rollbackV = some v'' ∧ rows k'' = rows k ∧ rows v'' = rows v)

omit lawful in
theorem since_refl {c : KvCache A} {layer : ℤ × ℤ} (sound : Sound rows layer c)
    (initialized : c.isFresh = false) (committed : c.committedLen = c.totalAppended)
    (fits : c.isSliding = true → c.totalAppended ≤ c.capacity) : Since rows c c := by
  cases sound with
  | fresh fresh => simp [fresh] at initialized
  | sliding preK preV buffers positive writePos visible logical =>
    have fits := fits buffers.sliding
    exact .sliding preK preV preK preV buffers buffers rfl committed le_rfl fits writePos
      (visible.trans (Nat.min_eq_left fits)) (by omega) rfl rfl
  | global k v growing keys values visible writePos logical =>
    exact .global k v k v growing keys values growing keys values committed visible writePos rfl
      (fun _ => ⟨rfl, rfl⟩) (.inl rfl)

/-- A reversible append keeps the rows of the commit. -/
theorem since_append {c c' : KvCache A} (since : Since rows c c') {chunk : TokenChunk ops}
    (admissible : c'.Admissible ops (.append chunk)) (room : c'.NoOverflow ops (.append chunk))
    (reversible : c'.Reversible ops (.append chunk)) :
    ∃ c'', c'.append ops chunk.keys chunk.values = some c'' ∧ Since rows c c'' := by
  have same := chunk.sameLength
  rw [lawful.shape0, lawful.shape0] at same
  cases since with
  | sliding preK preV preK' preV' before after capacity committed grows fits writePos visible
      logical keptK keptV =>
    obtain ⟨some_rows, -⟩ := admissible after.sliding
    obtain ⟨total, position, -⟩ := (room.1 after.sliding).2 after.not_fresh
    simp only [Reversible, after.sliding, if_true, capacity] at reversible
    rw [lawful.shape0] at some_rows total position reversible
    -- There is room before the end of the ring, so the write does not wrap.
    have writePos : c'.physicalWritePos = c'.totalAppended := by
      rw [writePos, Nat.mod_eq_of_lt (by omega)]
    obtain ⟨preK'', preV'', kRows, vRows, result⟩ := append_sliding lawful _ _ after
      (by omega) some_rows (by omega) same position
    have total' := u32_of_lt total
    have kept {pre : A} {x : List Row} (length : (rows pre).length = c'.capacity)
        (short : x.length = (rows chunk.keys).length) :
        (Ring.write (rows pre) c'.physicalWritePos x).take c.totalAppended =
          (rows pre).take c.totalAppended := by
      rw [Ring.write, if_pos (by omega), Ring.overwrite, List.append_assoc,
        List.take_append_of_le_length (by rw [List.length_take]; omega), List.take_take,
        Nat.min_eq_left (by omega)]
    refine ⟨_, result, .sliding preK preV preK'' preV'' before
      ⟨after.sliding, rfl, rfl, ?_, ?_⟩ capacity committed ?_ ?_ ?_ ?_ ?_ ?_ ?_⟩
    · rw [kRows, Ring.length_write] <;> rw [after.keyRows]
      · rfl
      · omega
      · omega
    · rw [vRows, Ring.length_write] <;> rw [after.valueRows]
      · rfl
      · omega
      · omega
    · simp only [advanced, total']
      omega
    · simpa only [advanced, total'] using reversible
    · simp only [advanced, total', writePos, capacity]
    · simp only [advanced, total', capacity]
      omega
    · simp only [advanced, total', capacity, logical]
      split <;> omega
    · rw [kRows, kept after.keyRows rfl, keptK]
    · rw [vRows, kept after.valueRows same, keptV]
  | global k v k' v' grew keys values growing keys' values' committed visible writePos logical kept
      snapshot =>
    have fits := room.2 growing
    obtain ⟨k'', v'', kRows, vRows, result⟩ := append_global lawful growing keys' values' fits
    simp only [Reversible, growing, Bool.false_eq_true, if_false] at reversible
    obtain ⟨sameK, sameV⟩ := kept (reversible.trans committed)
    have total' := u32_of_lt fits.1
    refine ⟨_, result, .global k v k'' v'' grew keys values growing rfl rfl committed ?_ ?_ logical ?_
      (.inr ⟨k', v', rfl, rfl, sameK, sameV⟩)⟩
    · simp only [visible]
    · simp only [writePos]
    · -- The counter only stays where it is when the chunk is empty.
      intro unmoved
      simp only [total'] at unmoved
      rw [lawful.shape0] at unmoved
      have none_ : (rows chunk.keys).length = 0 := by omega
      rw [kRows, vRows, List.eq_nil_of_length_eq_zero none_,
        List.eq_nil_of_length_eq_zero (same.trans none_), sameK, sameV]
      simp

/-- A sliding layer that has not wrapped shows the front of its rings. -/
theorem observe_sliding {c : KvCache A} {preK preV : A} (buffers : c.Buffers rows preK preV)
    (some_tokens : 0 < c.totalAppended) (fits : c.totalAppended ≤ c.capacity)
    (writePos : c.physicalWritePos = c.totalAppended % c.capacity)
    (visible : c.seqLen = c.totalAppended) (logical : c.logicalStart = 0) :
    c.observe ops rows =
      ⟨some ((rows preK).take c.totalAppended, (rows preV).take c.totalAppended),
        c.totalAppended, c.totalAppended, 0, c.totalAppended % c.capacity⟩ := by
  have bounded := lawful.bounded preK
  rw [buffers.keyRows] at bounded
  have start : c.readStart = 0 := by
    unfold readStart
    split
    next full => rw [writePos, Nat.le_antisymm fits full, Nat.mod_self]
    next => rfl
  have front {pre : A} (length : (rows pre).length = c.capacity) :
      Ring.read (rows pre) c.readStart c.seqLen = (rows pre).take c.totalAppended := by
    rw [start, visible, Ring.read, if_pos (by omega), List.drop_zero]
  obtain ⟨k, v, read, kRows, vRows⟩ := readWindow_sliding lawful buffers
    (writePos ▸ Nat.mod_lt _ (some_tokens.trans_le fits)) (by omega) (by omega) (fun full => by
      rw [writePos, Nat.le_antisymm fits full, Nat.mod_self]
      omega)
  simp only [observe, read, Option.map_some]
  rw [kRows, vRows, front buffers.keyRows, front buffers.valueRows, visible, logical, writePos]

theorem since_rollback {c c' : KvCache A} (sound : Sound rows (heads, dim) c)
    (committed : c.committedLen = c.totalAppended) (since : Since rows c c') :
    ∃ t, c'.rollback = some t ∧ t.observe ops rows = c.observe ops rows := by
  cases since with
  | sliding preK preV preK' preV' before after capacity committed' grows fits writePos visible
      logical keptK keptV =>
    cases sound with
    | fresh fresh => simp [before.not_fresh] at fresh
    | global k v growing => simp [before.sliding] at growing
    | sliding preK₀ preV₀ buffers positive writePos₀ visible₀ logical₀ some_committed =>
      -- What is observed is the ring read from the logical start, at the commit as after it.
      have observed := observe_sliding lawful before (committed ▸ some_committed) (by omega)
        writePos₀ (by omega) (by omega)
      rw [observed]
      unfold rollback
      split
      next unmoved =>
        have sameTotal : c'.totalAppended = c.totalAppended := unmoved.1.trans committed'
        refine ⟨c', rfl, ?_⟩
        rw [observe_sliding lawful after (by omega) (by omega) (capacity ▸ writePos) visible logical,
          sameTotal, keptK, keptV, capacity]
      next =>
        refine ⟨_, by rw [if_pos after.sliding, if_neg (by omega), if_neg (by omega)], ?_⟩
        refine Eq.trans (observe_sliding lawful (show Buffers rows _ preK' preV' from
          ⟨after.sliding, after.keys, after.values, after.keyRows, after.valueRows⟩)
          ?_ ?_ rfl ?_ ?_) ?_
        · simp only
          omega
        · simp only
          omega
        · simp only
          omega
        · simp only
          split <;> omega
        · simp only [committed', capacity, keptK, keptV]
  | global k v k' v' grew keys values growing keys' values' committed' visible writePos logical kept
      snapshot =>
    cases sound with
    | fresh fresh => simp [isFresh, keys] at fresh
    | sliding preK₀ preV₀ buffers => simp [buffers.sliding] at grew
    | global k₀ v₀ growing₀ keys₀ values₀ visible₀ writePos₀ logical₀ =>
      unfold rollback
      split
      next unmoved =>
        have sameTotal : c'.totalAppended = c.totalAppended := unmoved.1.trans committed'
        obtain ⟨sameK, sameV⟩ := kept sameTotal
        refine ⟨c', rfl, ?_⟩
        simp [observe, readWindow, growing, growing₀, keys, values, keys', values', sameK, sameV,
          visible, visible₀, writePos, writePos₀, logical, sameTotal]
      next moved =>
        -- A cache that has grown since has a snapshot to go back to.
        rcases snapshot with unmoved | ⟨k'', v'', snapK, snapV, sameK, sameV⟩
        · exact absurd ⟨unmoved.trans committed'.symm,
            visible.trans (unmoved.trans committed'.symm)⟩ moved
        · refine ⟨_, by rw [if_neg (by simp [growing])], ?_⟩
          simp [observe, readWindow, growing, growing₀, keys, values, snapK, snapV, sameK, sameV,
            visible₀, writePos₀, logical, committed']

theorem since_run {c c' : KvCache A} (sound : Sound rows (heads, dim) c)
    (committed : c.committedLen = c.totalAppended) (since : Since rows c c')
    (chunks : List (TokenChunk ops))
    (ok : Runs.Guarded (step ops) (fun c op => c.Admissible ops op ∧ c.NoOverflow ops op) c'
      (chunks.map .append))
    (reversible : Runs.Guarded (step ops) (Reversible ops) c' (chunks.map .append)) :
    ∃ t, Runs.exec (step ops) c' (chunks.map .append ++ [.rollback]) = some t ∧
      t.observe ops rows = c.observe ops rows := by
  induction chunks generalizing c' with
  | nil =>
    obtain ⟨t, rolled, same⟩ := since_rollback lawful sound committed since
    exact ⟨t, (Runs.exec_cons_iff _ _ _ _ _).mpr ⟨t, rolled, rfl⟩, same⟩
  | cons chunk chunks ih =>
    obtain ⟨c'', appended, since'⟩ :=
      since_append lawful since ok.1.1 ok.1.2 reversible.1
    obtain ⟨t, run, same⟩ := ih since' (ok.2 c'' appended) (reversible.2 c'' appended)
    exact ⟨t, (Runs.exec_cons_iff _ _ _ _ _).mpr ⟨c'', appended, run⟩, same⟩

theorem sound_of_run {before : List (CacheOp ops)} {b c : KvCache A}
    (sound : Sound rows (heads, dim) b) (run : Runs.exec (step ops) b before = some c)
    (ok : Runs.Guarded (step ops) (fun c op => c.Admissible ops op ∧ c.NoOverflow ops op) b
      before) : Sound rows (heads, dim) c :=
  Runs.always_last (step ops) (Runs.always_of_guarded (step ops)
    (fun _ _ _ sound ok taken => sound_step lawful sound ok.1 ok.2 taken) sound ok) run

end Lawful

/-- From every commit of an initialized cache that a run reaches: reversible appends and a
rollback bring its observable state back. -/
theorem rollback_restores_commit (capacity nKvHeads headDim : UInt32) (isSliding : Bool)
    (lawful : ops.Lawful (toI32 nKvHeads.toNat) (toI32 headDim.toNat) rows)
    (before : List (CacheOp ops)) (op : CacheOp ops) (b c : KvCache A)
    (run : Runs.exec (step ops) (new capacity nKvHeads headDim isSliding) before = some b)
    (commits : b.Commits ops op) (taken : b.step ops op = some c)
    (ok : Runs.Guarded (step ops) (fun c op => c.Admissible ops op ∧ c.NoOverflow ops op)
      (new capacity nKvHeads headDim isSliding) before)
    (ok_op : b.Admissible ops op ∧ b.NoOverflow ops op) (initialized : c.isFresh = false)
    (chunks : List (TokenChunk ops)) (some_chunks : chunks ≠ [])
    (ok_chunks : Runs.Guarded (step ops) (fun c op => c.Admissible ops op ∧ c.NoOverflow ops op) c
      (chunks.map .append))
    (reversible : Runs.Guarded (step ops) (Reversible ops) c (chunks.map .append)) :
    ∃ t, Runs.exec (step ops) c (chunks.map .append ++ [.rollback]) = some t ∧
      t.observe ops rows = c.observe ops rows := by
  have soundB : Sound rows (toI32 nKvHeads.toNat, toI32 headDim.toNat) b :=
    sound_of_run lawful (.fresh rfl (by simp only [new]) rfl rfl rfl) run ok
  have sound := sound_step lawful soundB ok_op.1 ok_op.2 taken
  have committed := committed_of_commits lawful soundB ok_op.1 ok_op.2 commits taken
  refine since_run lawful sound committed (since_refl sound initialized committed ?_) chunks
    ok_chunks reversible
  -- The first append already has to fit behind the committed tokens.
  intro sliding
  obtain ⟨chunk, rest, rfl⟩ := List.exists_cons_of_ne_nil some_chunks
  have first := reversible.1
  simp only [Reversible, sliding, if_true] at first
  omega

/-- Three committed tokens in a window of eight, then two appends rolled back. -/
theorem rollback_restores_threeTokens :
    ∃ c, (new 8 1 1 true).step TokenArray.ops
        (.append (TokenArray.chunk [1, 2, 3] (by decide))) = some c ∧
      ∃ t, Runs.exec (step TokenArray.ops) c
          ([TokenArray.chunk [4, 5] (by decide), TokenArray.chunk [6] (by decide)].map .append ++
            [.rollback]) = some t ∧
        t.observe TokenArray.ops Subtype.val = c.observe TokenArray.ops Subtype.val := by
  have taken : (new 8 1 1 true).step TokenArray.ops
    (.append (TokenArray.chunk [1, 2, 3] (by decide))) = some _ := rfl
  exact ⟨_, taken, rollback_restores_commit 8 1 1 true (TokenArray.lawful _ _) []
    (.append (TokenArray.chunk [1, 2, 3] (by decide))) _ _ rfl rfl taken trivial (by decide) rfl _
    (by simp) (by decide) (by decide)⟩

/-- A full window: the append overwrites the oldest row, and the rollback cannot bring it back. -/
theorem rollback_keeps_overwritten :
    ∃ c t, Runs.exec (step TokenArray.ops) (new 2 1 1 true)
        [.append (TokenArray.chunk [1, 2] (by decide))] = some c ∧
      Runs.exec (step TokenArray.ops) c
        [.append (TokenArray.chunk [3] (by decide)), .rollback] = some t ∧
      c.observe TokenArray.ops Subtype.val = ⟨some ([1, 2], [1, 2]), 2, 2, 0, 0⟩ ∧
      t.observe TokenArray.ops Subtype.val = ⟨some ([3, 2], [3, 2]), 2, 2, 0, 0⟩ :=
  ⟨_, _, rfl, rfl, by decide, by decide⟩

end KvCache

end TribunusCompute.Layer
