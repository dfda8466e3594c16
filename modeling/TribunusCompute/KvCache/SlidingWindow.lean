import TribunusCompute.Library.Runs
import TribunusCompute.KvCache.Layer

/-!
# The window of a sliding layer

Whatever the chunks the tokens come in, a sliding layer shows the last
`capacity` tokens supplied, in order, as long as its 32-bit counters and
positions do not overflow.
-/
namespace TribunusCompute.Layer

structure TokenChunk {A : Type} (ops : ArrayOps A) where
  keys : A
  values : A
  sameLength : ops.shape0 values = ops.shape0 keys

inductive CacheOp {A : Type} (ops : ArrayOps A)
  | append (chunk : TokenChunk ops)
  | commitStep
  | rollback

namespace KvCache

variable {A : Type} (ops : ArrayOps A)

/-- One call; `none` when it fails. -/
def step (c : KvCache A) : CacheOp ops → Option (KvCache A)
  | .append chunk => c.append ops chunk.keys chunk.values
  | .commitStep => some c.commitStep
  | .rollback => c.rollback

/-- What a caller owes a sliding layer: at least one token at a time, and at most `capacity` of
them once the ring buffer is there. -/
def Admissible (c : KvCache A) : CacheOp ops → Prop
  | .append chunk => c.isSliding = true → 0 < ops.shape0 chunk.keys ∧
      (c.isFresh = false → ops.shape0 chunk.keys ≤ c.capacity)
  | _ => True

/-- No counter or position of an append of `n` tokens to a sliding layer, and of the read after
it, overflows. -/
def SlidingFits (c : KvCache A) (n : ℕ) : Prop :=
  c.capacity < 2 ^ 31 ∧ (c.isFresh = false →
    c.totalAppended + n < 2 ^ 32 ∧ c.physicalWritePos + n < 2 ^ 31 ∧
      (c.capacity ≤ c.totalAppended + n →
        (c.physicalWritePos + n) % c.capacity + c.capacity < 2 ^ 31))

/-- No counter of an append of `n` tokens to a global layer overflows, nor does the length of
its arrays. -/
def GlobalFits (c : KvCache A) (n : ℕ) : Prop :=
  c.totalAppended + n < 2 ^ 32 ∧ (∀ k ∈ c.kCache, ops.shape0 k + n < 2 ^ 31) ∧
    ∀ v ∈ c.vCache, ops.shape0 v + n < 2 ^ 31

def NoOverflow (c : KvCache A) : CacheOp ops → Prop
  | .append chunk => (c.isSliding = true → c.SlidingFits (ops.shape0 chunk.keys)) ∧
      (c.isSliding = false → c.GlobalFits ops (ops.shape0 chunk.keys))
  | _ => True

instance (c : KvCache A) (op : CacheOp ops) : Decidable (c.Admissible ops op) :=
  match op with
  | .append chunk => inferInstanceAs <| Decidable <| c.isSliding = true →
      0 < ops.shape0 chunk.keys ∧ (c.isFresh = false → ops.shape0 chunk.keys ≤ c.capacity)
  | .commitStep | .rollback => isTrue trivial

instance (c : KvCache A) (n : ℕ) : Decidable (c.SlidingFits n) :=
  inferInstanceAs (Decidable (_ ∧ (_ → _ ∧ _ ∧ (_ → _))))

instance (c : KvCache A) (n : ℕ) : Decidable (c.GlobalFits ops n) :=
  inferInstanceAs (Decidable (_ ∧ _ ∧ _))

instance (c : KvCache A) (op : CacheOp ops) : Decidable (c.NoOverflow ops op) :=
  match op with
  | .append chunk => inferInstanceAs <| Decidable <|
      (c.isSliding = true → c.SlidingFits (ops.shape0 chunk.keys)) ∧
        (c.isSliding = false → c.GlobalFits ops (ops.shape0 chunk.keys))
  | .commitStep | .rollback => isTrue trivial

end KvCache

structure Stream (A Row : Type) where
  cache : KvCache A
  keys : List Row
  values : List Row

namespace Stream

variable {A Row : Type} (ops : ArrayOps A) (rows : A → List Row)

def start (capacity nKvHeads headDim : UInt32) : Stream A Row where
  cache := .new capacity nKvHeads headDim true
  keys := []
  values := []

/-- Appends and commits; rolling tokens back is not part of a stream. -/
def step (s : Stream A Row) : CacheOp ops → Option (Stream A Row)
  | .append chunk => (s.cache.append ops chunk.keys chunk.values).map fun cache =>
      { cache := cache, keys := s.keys ++ rows chunk.keys, values := s.values ++ rows chunk.values }
  | .commitStep => some { s with cache := s.cache.commitStep }
  | .rollback => none

def Admissible (s : Stream A Row) : CacheOp ops → Prop
  | .rollback => False
  | op => s.cache.Admissible ops op

def NoOverflow (s : Stream A Row) (op : CacheOp ops) : Prop := s.cache.NoOverflow ops op

instance (s : Stream A Row) (op : CacheOp ops) : Decidable (s.Admissible ops op) :=
  match op with
  | .append chunk => inferInstanceAs (Decidable (s.cache.Admissible ops (.append chunk)))
  | .commitStep => isTrue trivial
  | .rollback => isFalse id

instance (s : Stream A Row) (op : CacheOp ops) : Decidable (s.NoOverflow ops op) :=
  inferInstanceAs (Decidable (s.cache.NoOverflow ops op))

/-- The window is the last `capacity` tokens supplied. -/
structure WindowLaw (s : Stream A Row) : Prop where
  writePos : s.cache.physicalWritePos < s.cache.capacity
  visible : s.cache.seqLen = min s.keys.length s.cache.capacity
  empty : s.keys = [] → s.cache.readWindow ops = none
  window : s.keys ≠ [] → ∃ k v, s.cache.readWindow ops = some (k, v) ∧
    rows k = s.keys.drop (s.keys.length - s.cache.capacity) ∧
    rows v = s.values.drop (s.values.length - s.cache.capacity)

/-- The cache has the counters of `total` tokens and its rings hold the ends of two streams of
that length. -/
structure Filled (c : KvCache A) (keys values : List Row) : Prop where
  buffers : ∃ preK preV, c.Buffers rows preK preV ∧ Ring.Holds (rows preK) keys ∧
    Ring.Holds (rows preV) values
  keysLength : keys.length = c.totalAppended
  valuesLength : values.length = c.totalAppended
  some_tokens : 0 < c.totalAppended
  writePos : c.physicalWritePos = c.totalAppended % c.capacity
  visible : c.seqLen = min c.totalAppended c.capacity
  readable : c.capacity ≤ c.totalAppended → c.physicalWritePos + c.capacity < 2 ^ 31

/-- Before the first append nothing is there; after it the rings hold all tokens but those that
were trimmed, which a full window does not show. -/
inductive Inv (layer : ℤ × ℤ) (s : Stream A Row) : Prop
  | fresh (fresh : s.cache.isFresh = true) (sliding : s.cache.isSliding = true)
      (sameLayer : layer = (toI32 s.cache.nKvHeads, toI32 s.cache.headDim))
      (positive : 0 < s.cache.capacity) (seqLen : s.cache.seqLen = 0)
      (writePos : s.cache.physicalWritePos = 0) (keys : s.keys = []) (values : s.values = [])
  | filled (trimmed : ℕ) (positive : 0 < s.cache.capacity)
      (filled : Filled rows s.cache (s.keys.drop trimmed) (s.values.drop trimmed))
      (short : trimmed ≤ s.keys.length) (sameLength : s.values.length = s.keys.length)
      (full : trimmed = 0 ∨ s.cache.capacity ≤ s.cache.totalAppended)

theorem inv_start (capacity nKvHeads headDim : UInt32) (positive : 0 < capacity.toNat) :
    Inv rows (toI32 nKvHeads.toNat, toI32 headDim.toNat)
      (start capacity nKvHeads headDim : Stream A Row) :=
  .fresh rfl rfl rfl positive rfl rfl rfl rfl

section Lawful

variable {ops rows} {heads dim : ℤ} (lawful : ops.Lawful heads dim rows)
include lawful

theorem inv_first {s : Stream A Row} {chunk : TokenChunk ops} (fresh : s.cache.isFresh = true)
    (sliding : s.cache.isSliding = true)
    (sameLayer : (heads, dim) = (toI32 s.cache.nKvHeads, toI32 s.cache.headDim))
    (positive : 0 < s.cache.capacity) (small : s.cache.capacity < 2 ^ 31) (keys : s.keys = [])
    (values : s.values = []) (some_tokens : 0 < ops.shape0 chunk.keys) :
    ∃ t, s.step ops rows (.append chunk) = some t ∧ Inv rows (heads, dim) t := by
  obtain ⟨sameHeads, sameDim⟩ := Prod.mk.inj sameLayer
  rw [sameHeads, sameDim] at lawful
  have same := chunk.sameLength
  rw [lawful.shape0] at some_tokens same
  rw [lawful.shape0] at same
  obtain ⟨preK, preV, keyRows, valueRows, holdsK, holdsV, appended⟩ :=
    KvCache.append_first_sliding lawful fresh sliding positive small some_tokens same
  refine ⟨_, by rw [step, appended, Option.map_some], ?_⟩
  have length : (rows chunk.keys).length - ((rows chunk.keys).length - s.cache.capacity) =
      min (rows chunk.keys).length s.cache.capacity := by omega
  refine .filled ((rows chunk.keys).length - s.cache.capacity) positive ?_ ?_ ?_ ?_
  · refine ⟨⟨preK, preV, ⟨sliding, rfl, rfl, keyRows, valueRows⟩, ?_, ?_⟩, ?_, ?_, ?_, rfl, ?_, ?_⟩
    · simpa [keys] using holdsK
    · simpa [values, same] using holdsV
    · simp only [keys, List.nil_append, List.length_drop, length]
      rfl
    · simp only [values, List.nil_append, List.length_drop, same, length]
      rfl
    · exact Nat.lt_min.mpr ⟨some_tokens, positive⟩
    · exact (Nat.min_eq_left (Nat.min_le_right ..)).symm
    · -- A full first append starts over at position 0.
      intro full
      have exact_ : min (rows chunk.keys).length s.cache.capacity = s.cache.capacity :=
        le_antisymm (Nat.min_le_right ..) full
      simpa [KvCache.initialized, exact_] using small
  · simp [keys]
  · simp [keys, values, same]
  · rcases Nat.le_total (rows chunk.keys).length s.cache.capacity with fits | trims
    · exact .inl (Nat.sub_eq_zero_of_le fits)
    · exact .inr (Nat.min_eq_right trims).ge

theorem filled_append {c : KvCache A} {keys values : List Row} (filled : Filled rows c keys values)
    (positive : 0 < c.capacity) {chunk : TokenChunk ops} (fresh : c.isFresh = false)
    (admissible : c.Admissible ops (.append chunk))
    (room : c.SlidingFits (ops.shape0 chunk.keys)) :
    ∃ c', c.append ops chunk.keys chunk.values = some c' ∧
      Filled rows c' (keys ++ rows chunk.keys) (values ++ rows chunk.values) ∧
      c'.capacity = c.capacity ∧ c.totalAppended ≤ c'.totalAppended := by
  obtain ⟨⟨preK, preV, buffers, holdsK, holdsV⟩, keysLength, valuesLength, -, writePos, -, -⟩ :=
    filled
  obtain ⟨some_tokens, fits⟩ := admissible buffers.sliding
  obtain ⟨total, position, readable⟩ := room.2 fresh
  have same := chunk.sameLength
  simp only [lawful.shape0] at same some_tokens fits total position readable
  have inside : c.physicalWritePos < c.capacity := writePos ▸ Nat.mod_lt _ positive
  obtain ⟨preK', preV', kRows, vRows, appended⟩ := KvCache.append_sliding lawful _ _ buffers inside
    some_tokens (fits fresh) same position
  have total' : u32 (c.totalAppended + (rows chunk.keys).length) =
      c.totalAppended + (rows chunk.keys).length := u32_of_lt total
  have position' : u32 (c.physicalWritePos + (rows chunk.keys).length) =
      c.physicalWritePos + (rows chunk.keys).length := u32_of_lt (by omega)
  -- the two rings as written, and then the counters, which `room` keeps from wrapping
  refine ⟨_, appended, ⟨⟨preK', preV', ⟨buffers.sliding, rfl, rfl, ?_, ?_⟩, ?_, ?_⟩, ?_, ?_, ?_, ?_,
    rfl, ?_⟩, rfl, ?_⟩
  · rw [kRows, Ring.length_write (buffers.keyRows ▸ inside) (buffers.keyRows ▸ fits fresh)]
    exact buffers.keyRows
  · rw [vRows, Ring.length_write (buffers.valueRows ▸ inside)
      (by rw [buffers.valueRows, same]; exact fits fresh)]
    exact buffers.valueRows
  · have written := holdsK.write (buffers.keyRows ▸ positive) (buffers.keyRows ▸ fits fresh)
    rwa [keysLength, buffers.keyRows, ← writePos, ← kRows] at written
  · have fitsV : (rows chunk.values).length ≤ (rows preV).length := by
      rw [buffers.valueRows, same]
      exact fits fresh
    have written := holdsV.write (buffers.valueRows ▸ positive) fitsV
    rwa [valuesLength, buffers.valueRows, ← writePos, ← vRows] at written
  · rw [List.length_append, keysLength]
    exact total'.symm
  · rw [List.length_append, valuesLength, same]
    exact total'.symm
  · simp only [KvCache.advanced, total']
    omega
  · simp only [KvCache.advanced, total', position']
    rw [writePos, Nat.mod_add_mod]
  · simp only [KvCache.advanced, total', position']
    exact readable
  · simp only [KvCache.advanced, total']
    omega

theorem inv_step {s : Stream A Row} {op : CacheOp ops} (inv : Inv rows (heads, dim) s)
    (admissible : s.Admissible ops op) (room : s.NoOverflow ops op) :
    ∃ t, s.step ops rows op = some t ∧ Inv rows (heads, dim) t := by
  cases op with
  | rollback => exact admissible.elim
  | commitStep =>
    refine ⟨_, rfl, ?_⟩
    cases inv with
    | fresh fresh sliding sameLayer positive seqLen writePos keys values =>
      exact .fresh fresh sliding sameLayer positive seqLen writePos keys values
    | filled trimmed positive filled short sameLength full =>
      obtain ⟨⟨preK, preV, buffers, holdsK, holdsV⟩, rest⟩ := filled
      obtain ⟨sliding, k, v, keyRows, valueRows⟩ := buffers
      exact .filled trimmed positive
        ⟨⟨preK, preV, ⟨sliding, k, v, keyRows, valueRows⟩, holdsK, holdsV⟩, rest, by assumption,
          by assumption, by assumption, by assumption, by assumption⟩ short sameLength full
  | append chunk =>
    cases inv with
    | fresh fresh sliding sameLayer positive seqLen writePos keys values =>
      exact inv_first lawful fresh sliding sameLayer positive (room.1 sliding).1 keys values
        (admissible sliding).1
    | filled trimmed positive filled short sameLength full =>
      obtain ⟨preK, preV, buffers, -⟩ := filled.buffers
      obtain ⟨c', appended, filled', capacity, grows⟩ := filled_append lawful filled positive
        buffers.not_fresh admissible (room.1 buffers.sliding)
      refine ⟨_, by rw [step, appended, Option.map_some], ?_⟩
      have same := chunk.sameLength
      simp only [lawful.shape0] at same
      refine .filled trimmed (capacity ▸ positive) ?_ ?_ ?_ ?_
      · simpa only [List.drop_append_of_le_length short,
          List.drop_append_of_le_length (sameLength ▸ short)] using filled'
      · simp only [List.length_append]
        omega
      · simp only [List.length_append, sameLength, same]
      · exact full.imp id fun covered => by
          simp only [capacity]
          omega

theorem windowLaw_of_inv {s : Stream A Row} (inv : Inv rows (heads, dim) s) :
    s.WindowLaw ops rows := by
  cases inv with
  | fresh fresh sliding sameLayer positive seqLen writePos keys values =>
    refine ⟨writePos ▸ positive, by simp [seqLen, keys], fun _ => ?_, fun some_ => absurd keys some_⟩
    simp only [KvCache.isFresh, Bool.and_eq_true, Option.isNone_iff_eq_none] at fresh
    simp [KvCache.readWindow, sliding, KvCache.readWindowSliding, fresh.1.2]
  | filled trimmed positive filled short sameLength full =>
    obtain ⟨⟨preK, preV, buffers, holdsK, holdsV⟩, keysLength, valuesLength, some_tokens,
      writePos, visible, readable⟩ := filled
    rw [List.length_drop] at keysLength valuesLength
    have inside : s.cache.physicalWritePos < s.cache.capacity := writePos ▸ Nat.mod_lt _ positive
    have nonempty : s.keys ≠ [] := by
      rintro none_
      simp [none_] at keysLength
      omega
    -- Trimmed tokens are older than a full window.
    have hidden (n : ℕ) (length : n - trimmed = s.cache.totalAppended) (short : trimmed ≤ n) :
        trimmed + (s.cache.totalAppended - s.cache.capacity) = n - s.cache.capacity := by
      rcases full with rfl | covered <;> omega
    refine ⟨inside, ?_, fun none_ => absurd none_ nonempty, fun _ => ?_⟩
    · rw [visible]
      rcases full with rfl | covered <;> omega
    · obtain ⟨k, v, read, kRows, vRows⟩ := KvCache.readWindow_sliding lawful buffers inside
        (by rw [visible]; exact Nat.lt_min.mpr ⟨some_tokens, positive⟩)
        (by rw [visible]; exact Nat.min_le_right ..)
        (fun covered => by
          have := readable covered
          rw [visible]
          omega)
      refine ⟨k, v, read, ?_, ?_⟩
      · have held := holdsK.read (buffers.keyRows ▸ positive)
        rw [buffers.keyRows, List.length_drop, keysLength, ← writePos, ← visible,
          List.drop_drop, hidden _ keysLength short] at held
        rw [kRows, ← held, KvCache.readStart]
      · have held := holdsV.read (buffers.valueRows ▸ positive)
        rw [buffers.valueRows, List.length_drop, valuesLength, ← writePos, ← visible,
          List.drop_drop, hidden _ valuesLength (sameLength ▸ short)] at held
        rw [vRows, ← held, KvCache.readStart]

end Lawful

/-- Without overflow every append succeeds and the window is the last tokens supplied. -/
theorem windowLaw_of_noOverflow (capacity nKvHeads headDim : UInt32)
    (lawful : ops.Lawful (toI32 nKvHeads.toNat) (toI32 headDim.toNat) rows)
    (positive : 0 < capacity.toNat) (run : List (CacheOp ops))
    (admissible : Runs.Guarded (step ops rows) (Admissible ops)
      (start capacity nKvHeads headDim) run)
    (room : Runs.Guarded (step ops rows) (NoOverflow ops)
      (start capacity nKvHeads headDim) run) :
    (∃ t, Runs.exec (step ops rows) (start capacity nKvHeads headDim) run = some t) ∧
      Runs.Always (step ops rows) (WindowLaw ops rows) (start capacity nKvHeads headDim) run := by
  obtain ⟨finishes, always⟩ := Runs.exec_of_guarded (step ops rows)
    (fun s op inv ok => inv_step lawful inv ok.1 ok.2)
    (inv_start rows capacity nKvHeads headDim positive)
    (Runs.guarded_and (step ops rows) admissible room)
  exact ⟨finishes, Runs.always_mono (step ops rows) (fun s inv => windowLaw_of_inv lawful inv)
    always⟩

end Stream

/-! ## Arrays as lists of tokens -/

/-- Arrays whose rows are numbers, as long as a shape can say. -/
def TokenArray : Type := { tokens : List ℕ // tokens.length < 2 ^ 31 }

namespace TokenArray

def ofList (tokens : List ℕ) : Option TokenArray :=
  if small : tokens.length < 2 ^ 31 then some ⟨tokens, small⟩ else none

def ops : ArrayOps TokenArray where
  shape0 x := x.val.length
  size x := x.val.length
  zeros n _ _ := ofList (List.replicate n.toNat 0)
  index x a b := ofList ((x.val.drop a.toNat).take (b - a).toNat)
  indexFrom x a := ofList (x.val.drop a.toNat)
  indexMut x a b y :=
    if (y.val.length : ℤ) = b - a then ofList (Ring.overwrite x.val a.toNat y.val) else none
  concatenate x y := ofList (x.val ++ y.val)

theorem ofList_of_lt (tokens : List ℕ) (small : tokens.length < 2 ^ 31) :
    ∃ x, ofList tokens = some x ∧ x.val = tokens :=
  ⟨⟨tokens, small⟩, dif_pos small, rfl⟩

theorem lawful (heads dim : ℤ) : ops.Lawful heads dim Subtype.val where
  shape0 _ := rfl
  bounded x := x.property
  zeros n _ small := by
    obtain ⟨z, zEq, zRows⟩ := ofList_of_lt (List.replicate n 0) (by simpa using small)
    exact ⟨z, zEq, by simp [zRows]⟩
  index x a b within inside := by
    have := x.property
    obtain ⟨y, yEq, yRows⟩ := ofList_of_lt ((x.val.drop a).take (b - a)) (by
      simp only [List.length_take, List.length_drop]
      omega)
    refine ⟨y, ?_, yRows⟩
    rw [← yEq]
    simp [ops]
  indexFrom x a inside := by
    have := x.property
    exact ofList_of_lt (x.val.drop a) (by
      rw [List.length_drop]
      omega)
  indexMut x a b y within inside fits := by
    have := x.property
    obtain ⟨z, zEq, zRows⟩ := ofList_of_lt (Ring.overwrite x.val a y.val) (by
      rw [Ring.length_overwrite (by omega)]
      omega)
    exact ⟨z, (if_pos (by omega)).trans zEq, zRows⟩
  concatenate x y small := ofList_of_lt (x.val ++ y.val) (by
    rw [List.length_append]
    omega)

def chunk (tokens : List ℕ) (small : tokens.length < 2 ^ 31) : TokenChunk ops where
  keys := ⟨tokens, small⟩
  values := ⟨tokens, small⟩
  sameLength := rfl

end TokenArray

namespace Stream

open TokenArray

/-- A window of three tokens over a trimmed first chunk, a wrapping one and a full one. -/
theorem windowLaw_threeTokens :
    let run : List (CacheOp ops) :=
      [.append (chunk [1, 2, 3, 4] (by decide)), .append (chunk [5, 6] (by decide)), .commitStep,
        .append (chunk [7, 8, 9] (by decide))]
    (∃ t, Runs.exec (step ops Subtype.val) (start 3 1 1) run = some t) ∧
      Runs.Always (step ops Subtype.val) (WindowLaw ops Subtype.val) (start 3 1 1) run :=
  windowLaw_of_noOverflow ops Subtype.val 3 1 1 (lawful _ _) (by decide) _
    (by decide) (by decide)

/-- One token after another into a window of one token: the counter is the number of tokens
modulo `2^32`. -/
private theorem singleTokens (n : ℕ) :
    ∃ t, Runs.exec (step ops Subtype.val) (start 1 1 1)
        (List.replicate (n + 1) (.append (chunk [7] (by decide)))) = some t ∧
      (∃ preK preV, t.cache.Buffers Subtype.val preK preV) ∧ t.cache.capacity = 1 ∧
      t.cache.physicalWritePos = 0 ∧ t.cache.totalAppended = (n + 1) % 2 ^ 32 ∧
      t.cache.seqLen = min t.cache.totalAppended 1 ∧ t.keys.length = n + 1 := by
  induction n with
  | zero => exact ⟨_, rfl, ⟨_, _, rfl, rfl, rfl, rfl, rfl⟩, rfl, rfl, rfl, rfl, rfl⟩
  | succ n ih =>
    obtain ⟨t, run, ⟨preK, preV, buffers⟩, capacity, writePos, total, -, length⟩ := ih
    obtain ⟨preK', preV', kRows, vRows, appended⟩ :=
      KvCache.append_sliding (lawful 1 1) (chunk [7] (by decide)).keys
        (chunk [7] (by decide)).values buffers (by omega) (by decide)
        (by rw [capacity]; decide) rfl (by rw [writePos]; decide)
    refine ⟨⟨t.cache.advanced preK' preV' 1, t.keys ++ [7], t.values ++ [7]⟩, ?_,
      ⟨preK', preV', buffers.sliding, rfl, rfl, ?_, ?_⟩, capacity, ?_, ?_, ?_, by simp [length]⟩
    · rw [List.replicate_succ', Runs.exec_append, run, Option.bind_some, Runs.exec_cons_iff]
      refine ⟨_, ?_, rfl⟩
      simp only [step, appended, Option.map_some]
      rfl
    · rw [kRows, Ring.length_write] <;> simp [buffers.keyRows, capacity, writePos, chunk]
      exact capacity.symm
    · rw [vRows, Ring.length_write] <;> simp [buffers.valueRows, capacity, writePos, chunk]
      exact capacity.symm
    · simp [KvCache.advanced, capacity, Nat.mod_one]
    · simp only [KvCache.advanced, u32, total]
      omega
    · simp only [KvCache.advanced, capacity]

/-- After `2^32` tokens the counter is back at 0 and the window has vanished. -/
theorem wrappedCounter_hides_window :
    ∃ t, Runs.exec (step ops Subtype.val) (start 1 1 1)
        (List.replicate (2 ^ 32) (.append (chunk [7] (by decide)))) = some t ∧
      ¬t.WindowLaw ops Subtype.val := by
  obtain ⟨t, run, -, capacity, -, total, seqLen, length⟩ := singleTokens (2 ^ 32 - 1)
  refine ⟨t, run, fun law => ?_⟩
  have visible := law.visible
  rw [seqLen, total, length, capacity] at visible
  omega

end Stream

end TribunusCompute.Layer
