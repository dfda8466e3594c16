import TribunusCompute.Library.Ring

/-!
# The per-layer KV cache

A sliding layer writes into a preallocated ring buffer; a global layer
concatenates. The array library is a parameter: what it does along the token
axis is a list of rows, on nonempty ranges inside the array.
-/
namespace TribunusCompute.Layer

/-- What the cache calls of the array library; `none` where a call fails. The ranges are along
axis 0 and the rest of the array is taken whole. -/
structure ArrayOps (A : Type) where
  shape0 : A → ℕ
  size : A → ℕ
  zeros : ℤ → ℤ → ℤ → Option A
  index : A → ℤ → ℤ → Option A
  indexFrom : A → ℤ → Option A
  indexMut : A → ℤ → ℤ → A → Option A
  concatenate : A → A → Option A

/-- The documented behaviour on arrays of shape `[_, heads, dim]`, seen as lists of token rows. -/
structure ArrayOps.Lawful {A Row : Type} (ops : ArrayOps A) (heads dim : ℤ)
    (rows : A → List Row) : Prop where
  shape0 : ∀ x, ops.shape0 x = (rows x).length
  bounded : ∀ x, (rows x).length < 2 ^ 31
  zeros : ∀ n : ℕ, 0 < n → n < 2 ^ 31 →
    ∃ z, ops.zeros n heads dim = some z ∧ (rows z).length = n
  index : ∀ x (a b : ℕ), a < b → b ≤ (rows x).length →
    ∃ y, ops.index x a b = some y ∧ rows y = ((rows x).drop a).take (b - a)
  indexFrom : ∀ x (a : ℕ), a < (rows x).length →
    ∃ y, ops.indexFrom x a = some y ∧ rows y = (rows x).drop a
  indexMut : ∀ x (a b : ℕ) y, a < b → b ≤ (rows x).length → (rows y).length = b - a →
    ∃ z, ops.indexMut x a b y = some z ∧ rows z = Ring.overwrite (rows x) a (rows y)
  concatenate : ∀ x y, (rows x).length + (rows y).length < 2 ^ 31 →
    ∃ z, ops.concatenate x y = some z ∧ rows z = rows x ++ rows y

/-- Arithmetic on `i32` wraps around. -/
def i32 (x : ℤ) : ℤ := x.bmod (2 ^ 32)

/-- `n as i32` -/
def toI32 (n : ℕ) : ℤ := i32 n

/-- Arithmetic on `u32` wraps around. -/
def u32 (n : ℕ) : ℕ := n % 2 ^ 32

theorem i32_of_bounds {x : ℤ} (low : -2 ^ 31 ≤ x) (high : x < 2 ^ 31) : i32 x = x := by
  rw [i32, Int.bmod_def]
  split <;> omega

theorem toI32_of_lt {n : ℕ} (small : n < 2 ^ 31) : toI32 n = n :=
  i32_of_bounds (by omega) (by exact_mod_cast small)

theorem u32_of_lt {n : ℕ} (small : n < 2 ^ 32) : u32 n = n := Nat.mod_eq_of_lt small

/-- A layer's cache. The counters are `u32`; `capacity` is below `2^32` by its type. -/
structure KvCache (A : Type) where
  nKvHeads : ℕ
  headDim : ℕ
  capacity : ℕ
  isSliding : Bool
  kCache : Option A
  vCache : Option A
  seqLen : ℕ
  preallocatedK : Option A
  preallocatedV : Option A
  totalAppended : ℕ
  logicalStart : ℕ
  physicalWritePos : ℕ
  committedLen : ℕ
  rollbackK : Option A
  rollbackV : Option A
  evictionsCount : ℕ
  copyBytes : ℕ

namespace KvCache

variable {A : Type}

def new (capacity nKvHeads headDim : UInt32) (isSliding : Bool) : KvCache A where
  nKvHeads := nKvHeads.toNat
  headDim := headDim.toNat
  capacity := capacity.toNat
  isSliding := isSliding
  kCache := none
  vCache := none
  seqLen := 0
  preallocatedK := none
  preallocatedV := none
  totalAppended := 0
  logicalStart := 0
  physicalWritePos := 0
  committedLen := 0
  rollbackK := none
  rollbackV := none
  evictionsCount := 0
  copyBytes := 0

variable (ops : ArrayOps A)

/-- The ring write of `append_sliding`, on the keys or on the values. -/
def writeRing (pre : A) (cap writePos nTok : ℤ) (rows : A) : Option A :=
  let endWrap := i32 (writePos + nTok)
  if endWrap ≤ cap then ops.indexMut pre writePos endWrap rows
  else do
    let firstSeg := i32 (cap - writePos)
    let secondSeg := i32 (nTok - firstSeg)
    let first ← ops.index rows 0 firstSeg
    let pre ← ops.indexMut pre writePos cap first
    let second ← ops.indexFrom rows firstSeg
    ops.indexMut pre 0 secondSeg second

/-- The ring read of `read_window_sliding`, on the keys or on the values. -/
def readRing (pre : A) (cap readStart nToRead : ℤ) : Option A :=
  let endWrap := i32 (readStart + nToRead)
  if endWrap ≤ cap then ops.index pre readStart endWrap
  else do
    let firstSeg := i32 (cap - readStart)
    let secondSeg := i32 (nToRead - firstSeg)
    let first ← ops.index pre readStart cap
    let second ← ops.index pre 0 secondSeg
    ops.concatenate first second

/-- The ring buffers and the counters after the first append of a sliding layer. -/
def initialized (c : KvCache A) (preK preV : A) (actualN evictionsCount : ℕ) : KvCache A :=
  { c with
    preallocatedK := some preK
    preallocatedV := some preV
    totalAppended := actualN
    seqLen := actualN
    logicalStart := 0
    physicalWritePos := actualN % c.capacity
    committedLen := actualN
    evictionsCount := evictionsCount }

/-- The trimming of `first_append`: the arrays, their length and the evictions count. -/
def trimFirst (c : KvCache A) (keys values : A) (incomingLen : ℕ) : Option (A × A × ℕ × ℕ) :=
  if c.capacity < incomingLen then do
    let excess := incomingLen - c.capacity
    let k ← ops.indexFrom keys (toI32 excess)
    let v ← ops.indexFrom values (toI32 excess)
    some (k, v, c.capacity, excess)
  else some (keys, values, incomingLen, c.evictionsCount)

/-- `none` is an error of the array library, the trimming check, or the remainder by zero. -/
def firstAppend (c : KvCache A) (keys values : A) (incomingLen : ℕ) : Option (KvCache A) :=
  if c.isSliding then do
    let (kTrimmed, vTrimmed, actualN, evictionsCount) ← c.trimFirst ops keys values incomingLen
    if c.capacity < actualN then none
    else do
      let zeros := ops.zeros (toI32 c.capacity) (toI32 c.nKvHeads) (toI32 c.headDim)
      let preK ← ops.indexMut (← zeros) 0 (toI32 actualN) kTrimmed
      let preV ← ops.indexMut (← zeros) 0 (toI32 actualN) vTrimmed
      if c.capacity = 0 then none
      else some (c.initialized preK preV actualN evictionsCount)
  else some
    { c with
      kCache := some keys
      vCache := some values
      totalAppended := incomingLen
      seqLen := incomingLen
      logicalStart := 0
      physicalWritePos := incomingLen
      committedLen := incomingLen }

/-- The ring buffers and the counters after a ring write of `incomingLen` tokens. -/
def advanced (c : KvCache A) (preK preV : A) (incomingLen : ℕ) : KvCache A :=
  let totalAppended := u32 (c.totalAppended + incomingLen)
  let evicted := totalAppended - c.capacity
  { c with
    preallocatedK := some preK
    preallocatedV := some preV
    physicalWritePos := u32 (c.physicalWritePos + incomingLen) % c.capacity
    totalAppended := totalAppended
    seqLen := min totalAppended c.capacity
    logicalStart := if c.capacity < totalAppended then evicted else c.logicalStart
    evictionsCount := if c.capacity < totalAppended then evicted else c.evictionsCount
    rollbackK := none
    rollbackV := none }

def appendSliding (c : KvCache A) (keys values : A) (incomingLen : ℕ) : Option (KvCache A) := do
  let cap := toI32 c.capacity
  let writePos := toI32 c.physicalWritePos
  let nTok := toI32 incomingLen
  let preK ← writeRing ops (← c.preallocatedK) cap writePos nTok keys
  let preV ← writeRing ops (← c.preallocatedV) cap writePos nTok values
  if c.capacity = 0 then none else some (c.advanced preK preV incomingLen)

def appendGlobal (c : KvCache A) (keys values : A) (incomingLen : ℕ) : Option (KvCache A) := do
  let cachedK ← c.kCache
  let cachedV ← c.vCache
  let newK ← ops.concatenate cachedK keys
  let newV ← ops.concatenate cachedV values
  some
    { c with
      kCache := some newK
      vCache := some newV
      copyBytes := (c.copyBytes + (ops.size cachedK * 4 + ops.size cachedV * 4)) % 2 ^ 64
      totalAppended := u32 (c.totalAppended + incomingLen)
      seqLen := u32 (c.seqLen + incomingLen)
      physicalWritePos := u32 (c.physicalWritePos + incomingLen)
      rollbackK := c.kCache
      rollbackV := c.vCache }

/-- Nothing has been appended yet, so the next append is the first. -/
def isFresh (c : KvCache A) : Bool :=
  c.kCache.isNone && c.vCache.isNone && c.preallocatedK.isNone && c.preallocatedV.isNone

def append (c : KvCache A) (keys values : A) : Option (KvCache A) :=
  let incomingLen := ops.shape0 keys
  if c.isFresh then c.firstAppend ops keys values incomingLen
  else if c.isSliding then c.appendSliding ops keys values incomingLen
  else c.appendGlobal ops keys values incomingLen

/-- The source's name for what it commits: all that has been appended. -/
def uncommittedLen (c : KvCache A) : ℕ := c.totalAppended

def commitStep (c : KvCache A) : KvCache A :=
  { c with committedLen := c.uncommittedLen, rollbackK := none, rollbackV := none }

/-- `none` is the remainder by zero. -/
def rollback (c : KvCache A) : Option (KvCache A) :=
  if c.totalAppended = c.committedLen ∧ c.seqLen = c.committedLen then some c
  else if c.isSliding then
    if c.committedLen = 0 then some
      { c with
        preallocatedK := none
        preallocatedV := none
        totalAppended := 0
        seqLen := 0
        logicalStart := 0
        physicalWritePos := 0
        rollbackK := none
        rollbackV := none }
    else if c.capacity = 0 then none
    else some
      { c with
        totalAppended := c.committedLen
        seqLen := min c.committedLen c.capacity
        logicalStart := if c.capacity < c.committedLen then c.committedLen - c.capacity else 0
        physicalWritePos := c.committedLen % c.capacity
        rollbackK := none
        rollbackV := none }
  else some
    { c with
      kCache := c.rollbackK
      vCache := c.rollbackV
      totalAppended := c.committedLen
      seqLen := c.committedLen
      physicalWritePos := c.committedLen
      rollbackK := none
      rollbackV := none }

def readWindowSliding (c : KvCache A) : Option (A × A) := do
  let preK ← c.preallocatedK
  let preV ← c.preallocatedV
  if c.seqLen = 0 then none
  else
    let cap := toI32 c.capacity
    let nToRead := toI32 c.seqLen
    let readStart := if c.capacity ≤ c.totalAppended then toI32 c.physicalWritePos else 0
    let k ← readRing ops preK cap readStart nToRead
    let v ← readRing ops preV cap readStart nToRead
    some (k, v)

def readWindow (c : KvCache A) : Option (A × A) :=
  if c.isSliding then c.readWindowSliding ops
  else
    match c.kCache, c.vCache with
    | some k, some v => some (k, v)
    | _, _ => none

/-! ## The ring operations on rows -/

section Rows

variable {Row : Type} {heads dim : ℤ} {rows : A → List Row} {ops}
variable (lawful : ops.Lawful heads dim rows)
include lawful

theorem writeRing_rows (pre x : A) {pos : ℕ} (inside : pos < (rows pre).length)
    (some_rows : 0 < (rows x).length) (fits : (rows x).length ≤ (rows pre).length)
    (room : pos + (rows x).length < 2 ^ 31) :
    ∃ y, writeRing ops pre (rows pre).length pos (rows x).length x = some y ∧
      rows y = Ring.write (rows pre) pos (rows x) := by
  have small := lawful.bounded pre
  have ends : i32 ((pos : ℤ) + (rows x).length) = ((pos + (rows x).length : ℕ) : ℤ) := by
    rw [i32_of_bounds (by omega) (by omega)]
    simp
  unfold writeRing Ring.write
  simp only [ends, Int.ofNat_le]
  split
  next contiguous => exact lawful.indexMut pre pos _ x (by omega) contiguous (by omega)
  next wraps =>
    have first : i32 ((rows pre).length - (pos : ℤ)) = (((rows pre).length - pos : ℕ) : ℤ) := by
      rw [i32_of_bounds (by omega) (by omega)]
      omega
    have second : i32 ((rows x).length - (((rows pre).length - pos : ℕ) : ℤ)) =
        (((rows x).length - ((rows pre).length - pos) : ℕ) : ℤ) := by
      rw [i32_of_bounds (by omega) (by omega)]
      omega
    obtain ⟨head, headEq, headRows⟩ :=
      lawful.index x 0 ((rows pre).length - pos) (by omega) (by omega)
    simp only [List.drop_zero, Nat.sub_zero] at headRows
    obtain ⟨mid, midEq, midRows⟩ := lawful.indexMut pre pos (rows pre).length head inside le_rfl
      (by rw [headRows, List.length_take]; omega)
    obtain ⟨tail, tailEq, tailRows⟩ :=
      lawful.indexFrom x ((rows pre).length - pos) (by omega)
    have midLength : (rows mid).length = (rows pre).length := by
      rw [midRows, Ring.length_overwrite]
      rw [headRows, List.length_take]
      omega
    obtain ⟨last, lastEq, lastRows⟩ := lawful.indexMut mid 0
      ((rows x).length - ((rows pre).length - pos)) tail (by omega) (by omega)
      (by rw [tailRows, List.length_drop]; omega)
    refine ⟨last, ?_, by rw [lastRows, midRows, headRows, tailRows]⟩
    simp only [Int.natCast_zero] at headEq lastEq
    simp only [first, second, headEq, midEq, tailEq, lastEq, Option.bind_eq_bind, Option.bind_some]

theorem readRing_rows (pre : A) {start count : ℕ} (inside : start < (rows pre).length)
    (some_rows : 0 < count) (fits : count ≤ (rows pre).length)
    (room : start + count < 2 ^ 31) :
    ∃ y, readRing ops pre (rows pre).length start count = some y ∧
      rows y = Ring.read (rows pre) start count := by
  have small := lawful.bounded pre
  have ends : i32 ((start : ℤ) + count) = ((start + count : ℕ) : ℤ) := by
    rw [i32_of_bounds (by omega) (by omega)]
    simp
  unfold readRing Ring.read
  simp only [ends, Int.ofNat_le]
  split
  next contiguous =>
    obtain ⟨y, read, same⟩ := lawful.index pre start (start + count) (by omega) contiguous
    exact ⟨y, read, by rw [same, Nat.add_sub_cancel_left]⟩
  next wraps =>
    have first : i32 ((rows pre).length - (start : ℤ)) = (((rows pre).length - start : ℕ) : ℤ) := by
      rw [i32_of_bounds (by omega) (by omega)]
      omega
    have second : i32 ((count : ℤ) - (((rows pre).length - start : ℕ) : ℤ)) =
        ((count - ((rows pre).length - start) : ℕ) : ℤ) := by
      rw [i32_of_bounds (by omega) (by omega)]
      omega
    obtain ⟨head, headEq, headRows⟩ := lawful.index pre start (rows pre).length inside le_rfl
    obtain ⟨tail, tailEq, tailRows⟩ :=
      lawful.index pre 0 (count - ((rows pre).length - start)) (by omega) (by omega)
    have headAll : rows head = (rows pre).drop start := by
      rw [headRows, List.take_of_length_le (by rw [List.length_drop])]
    obtain ⟨whole, wholeEq, wholeRows⟩ := lawful.concatenate head tail (by
      rw [headAll, tailRows, List.length_drop, List.length_take, List.length_drop]
      omega)
    refine ⟨whole, ?_, by rw [wholeRows, headAll, tailRows, List.drop_zero, Nat.sub_zero]⟩
    simp only [Int.natCast_zero] at tailEq
    simp only [first, second, headEq, tailEq, wholeEq, Option.bind_eq_bind, Option.bind_some]

/-- The ring buffers of a sliding layer are in place, one row for each position. -/
structure Buffers (rows : A → List Row) (c : KvCache A) (preK preV : A) : Prop where
  sliding : c.isSliding = true
  keys : c.preallocatedK = some preK
  values : c.preallocatedV = some preV
  keyRows : (rows preK).length = c.capacity
  valueRows : (rows preV).length = c.capacity

omit lawful in
theorem Buffers.not_fresh {c : KvCache A} {preK preV : A} (buffers : Buffers rows c preK preV) :
    c.isFresh = false := by
  simp [isFresh, buffers.keys]

omit lawful in
theorem append_first_sliding {c : KvCache A} {keys values : A}
    (lawful : ops.Lawful (toI32 c.nKvHeads) (toI32 c.headDim) rows)
    (fresh : c.isFresh = true) (sliding : c.isSliding = true)
    (positive : 0 < c.capacity) (small : c.capacity < 2 ^ 31)
    (some_rows : 0 < (rows keys).length) (same : (rows values).length = (rows keys).length) :
    ∃ preK preV, (rows preK).length = c.capacity ∧ (rows preV).length = c.capacity ∧
      Ring.Holds (rows preK) ((rows keys).drop ((rows keys).length - c.capacity)) ∧
      Ring.Holds (rows preV) ((rows values).drop ((rows values).length - c.capacity)) ∧
      c.append ops keys values = some (c.initialized preK preV
        (min (rows keys).length c.capacity)
        (if c.capacity < (rows keys).length then (rows keys).length - c.capacity
          else c.evictionsCount)) := by
  obtain ⟨zeros, zerosEq, zerosRows⟩ := lawful.zeros c.capacity positive small
  rw [← toI32_of_lt small] at zerosEq
  -- Writing `x` at the front of the zeros gives a ring that holds it.
  have filled (x : A) (n : ℕ) (some_x : 0 < n) (length : (rows x).length = n)
      (fits : n ≤ c.capacity) : ∃ pre, ops.indexMut zeros 0 (toI32 n) x = some pre ∧
        (rows pre).length = c.capacity ∧ Ring.Holds (rows pre) (rows x) := by
    obtain ⟨pre, written, preRows⟩ := lawful.indexMut zeros 0 n x some_x (by omega) (by omega)
    refine ⟨pre, ?_, ?_, preRows ▸ Ring.Holds.first (by omega)⟩
    · rw [toI32_of_lt (by omega)]
      exact_mod_cast written
    · rw [preRows, Ring.length_overwrite (by omega), zerosRows]
  rcases Nat.lt_or_ge c.capacity (rows keys).length with trims | fits
  · have bounded := lawful.bounded keys
    obtain ⟨k, kEq, kRows⟩ :=
      lawful.indexFrom keys ((rows keys).length - c.capacity) (by omega)
    obtain ⟨v, vEq, vRows⟩ :=
      lawful.indexFrom values ((rows keys).length - c.capacity) (by omega)
    rw [← toI32_of_lt (by omega)] at kEq vEq
    obtain ⟨preK, preKEq, preKLength, preKHolds⟩ := filled k c.capacity positive
      (by rw [kRows, List.length_drop]; omega) le_rfl
    obtain ⟨preV, preVEq, preVLength, preVHolds⟩ := filled v c.capacity positive
      (by rw [vRows, List.length_drop]; omega) le_rfl
    refine ⟨preK, preV, preKLength, preVLength, kRows ▸ preKHolds, ?_, ?_⟩
    · rw [same, ← vRows]
      exact preVHolds
    · simp only [append, fresh, if_true, firstAppend, trimFirst, sliding, lawful.shape0, trims, kEq, vEq,
        zerosEq, preKEq, preVEq, Option.bind_eq_bind, Option.bind_some, lt_irrefl, if_false,
        positive.ne', Nat.min_eq_right trims.le]
  · obtain ⟨preK, preKEq, preKLength, preKHolds⟩ := filled keys _ some_rows rfl fits
    obtain ⟨preV, preVEq, preVLength, preVHolds⟩ := filled values _ some_rows same fits
    have all (xs : List Row) (short : xs.length ≤ c.capacity) :
        xs.drop (xs.length - c.capacity) = xs := by
      rw [Nat.sub_eq_zero_of_le short, List.drop_zero]
    refine ⟨preK, preV, preKLength, preVLength, ?_, ?_, ?_⟩
    · rwa [all _ fits]
    · rwa [all _ (same ▸ fits)]
    · simp only [append, fresh, if_true, firstAppend, trimFirst, sliding, lawful.shape0,
        Nat.not_lt.mpr fits, zerosEq, preKEq, preVEq, Option.bind_eq_bind, Option.bind_some, if_false,
        positive.ne', Nat.min_eq_left fits]

theorem append_sliding {c : KvCache A} {preK preV : A} (keys values : A)
    (buffers : Buffers rows c preK preV) (inside : c.physicalWritePos < c.capacity)
    (some_rows : 0 < (rows keys).length) (fits : (rows keys).length ≤ c.capacity)
    (same : (rows values).length = (rows keys).length)
    (room : c.physicalWritePos + (rows keys).length < 2 ^ 31) :
    ∃ preK' preV', rows preK' = Ring.write (rows preK) c.physicalWritePos (rows keys) ∧
      rows preV' = Ring.write (rows preV) c.physicalWritePos (rows values) ∧
      c.append ops keys values = some (c.advanced preK' preV' (rows keys).length) := by
  have bounded : c.capacity < 2 ^ 31 := by
    rw [← buffers.keyRows]
    exact lawful.bounded preK
  have positive : c.capacity ≠ 0 := by omega
  obtain ⟨preK', kEq, kRows⟩ := writeRing_rows lawful preK keys (by rw [buffers.keyRows]; exact inside) some_rows
    (by rw [buffers.keyRows]; exact fits) room
  obtain ⟨preV', vEq, vRows⟩ := writeRing_rows lawful preV values (by rw [buffers.valueRows]; exact inside) (by omega)
    (by rw [buffers.valueRows]; omega) (by omega)
  rw [buffers.keyRows, ← toI32_of_lt bounded, ← toI32_of_lt (lawful.bounded keys),
    ← toI32_of_lt (inside.trans bounded)] at kEq
  rw [buffers.valueRows, same, ← toI32_of_lt bounded, ← toI32_of_lt (lawful.bounded keys),
    ← toI32_of_lt (inside.trans bounded)] at vEq
  refine ⟨preK', preV', kRows, vRows, ?_⟩
  simp only [append, buffers.not_fresh, Bool.false_eq_true, if_false, buffers.sliding, if_true,
    lawful.shape0, appendSliding, Option.bind_eq_bind, Option.bind_eq_some_iff]
  exact ⟨preK, buffers.keys, preK', kEq, preV, buffers.values, preV', vEq, if_neg positive⟩

def readStart (c : KvCache A) : ℕ :=
  if c.capacity ≤ c.totalAppended then c.physicalWritePos else 0

theorem readWindow_sliding {c : KvCache A} {preK preV : A} (buffers : Buffers rows c preK preV)
    (inside : c.physicalWritePos < c.capacity) (visible : 0 < c.seqLen)
    (fits : c.seqLen ≤ c.capacity)
    (room : c.capacity ≤ c.totalAppended → c.physicalWritePos + c.seqLen < 2 ^ 31) :
    ∃ k v, c.readWindow ops = some (k, v) ∧
      rows k = Ring.read (rows preK) c.readStart c.seqLen ∧
      rows v = Ring.read (rows preV) c.readStart c.seqLen := by
  have bounded : c.capacity < 2 ^ 31 := by
    rw [← buffers.keyRows]
    exact lawful.bounded preK
  have start_inside : c.readStart < c.capacity := by
    unfold readStart
    split <;> omega
  have start_room : c.readStart + c.seqLen < 2 ^ 31 := by
    unfold readStart
    split
    next full => exact room full
    next => omega
  have start_cast : (if c.capacity ≤ c.totalAppended then toI32 c.physicalWritePos else 0) =
      (c.readStart : ℤ) := by
    unfold readStart
    split
    next => exact toI32_of_lt (by omega)
    next => rfl
  obtain ⟨k, kEq, kRows⟩ := readRing_rows lawful preK
    (by rw [buffers.keyRows]; exact start_inside) visible (by rw [buffers.keyRows]; exact fits)
    start_room
  obtain ⟨v, vEq, vRows⟩ := readRing_rows lawful preV
    (by rw [buffers.valueRows]; exact start_inside) visible
    (by rw [buffers.valueRows]; exact fits) start_room
  rw [buffers.keyRows, ← toI32_of_lt bounded, ← toI32_of_lt (fits.trans_lt bounded)] at kEq
  rw [buffers.valueRows, ← toI32_of_lt bounded, ← toI32_of_lt (fits.trans_lt bounded)] at vEq
  refine ⟨k, v, ?_, kRows, vRows⟩
  simp only [readWindow, buffers.sliding, if_true, readWindowSliding, Option.bind_eq_bind,
    Option.bind_eq_some_iff, visible.ne', if_false, start_cast]
  exact ⟨preK, buffers.keys, preV, buffers.values, k, kEq, v, vEq, rfl⟩

end Rows

end KvCache

end TribunusCompute.Layer
