import Mathlib.Algebra.GroupWithZero.Nat
import Mathlib.Data.List.Infix
import TribunusCompute.Library.Runs

/-!
# The cache of weight rows

`WeightRowCache` keeps rows of the output head in an arena, one to a slot. The slots, the table of
cached tokens and the arena are written at different points of a load, which may fail between
them, and the stamp of the first use is also that of a slot never used.
-/
namespace TribunusCompute.Cache

/-! ## The slots -/

/-- The token of each slot and the number of the last access to it. -/
structure SlotAllocator where
  maxSlots : UInt32
  occupied : List (Option UInt32)
  lruOrder : List UInt64
  accessCounter : UInt64
  deriving DecidableEq, Repr

namespace SlotAllocator

def new (maxSlots : UInt32) : SlotAllocator :=
  ⟨maxSlots, List.replicate maxSlots.toNat none, List.replicate maxSlots.toNat 0, 0⟩

def lookup (a : SlotAllocator) (tokenId : UInt32) : Option ℕ :=
  a.occupied.findIdx? (· == some tokenId)

/-- One turn of the search for the least stamp below the greatest number. -/
def findVictimTurn (least : ℕ × UInt64) (entry : UInt64 × ℕ) : ℕ × UInt64 :=
  if entry.1 < least.2 then (entry.2, entry.1) else least

def findVictim (a : SlotAllocator) : ℕ :=
  (a.lruOrder.zipIdx.foldl findVictimTurn (0, 18446744073709551615)).1

/-- The next access is to the slot at `idx`. -/
def stamp (a : SlotAllocator) (idx : ℕ) : SlotAllocator :=
  { a with
    lruOrder := a.lruOrder.set idx a.accessCounter
    accessCounter := a.accessCounter + 1 }

/-- The slot of a token, whether it had one, and the slots after. There is at least one slot. -/
def allocate (a : SlotAllocator) (tokenId : UInt32) : (ℕ × Bool) × SlotAllocator :=
  match a.lookup tokenId with
  | some idx => ((idx, true), a.stamp idx)
  | none =>
    let slotIdx := a.findVictim
    ((slotIdx, false),
      { a with occupied := a.occupied.set slotIdx (some tokenId) }.stamp slotIdx)

theorem foldl_findVictimTurn (stamps : List UInt64) (start : ℕ) (least : ℕ × UInt64) :
    let found := (stamps.zipIdx start).foldl findVictimTurn least
    (found = least ∧ ∀ n ∈ stamps, least.2 ≤ n) ∨
      ∃ i, found.1 = start + i ∧ stamps[i]? = some found.2 ∧ found.2 < least.2 ∧
        ∀ n ∈ stamps, found.2 ≤ n := by
  induction stamps generalizing start least with
  | nil => exact .inl ⟨rfl, by simp⟩
  | cons stamp stamps ih =>
    rw [List.zipIdx_cons, List.foldl_cons]
    by_cases below : stamp < least.2
    · have taken : findVictimTurn least (stamp, start) = (start, stamp) := if_pos below
      rw [taken]
      right
      rcases ih (start + 1) (start, stamp) with ⟨same, rest⟩ | ⟨i, place, here, less, rest⟩
      · rw [same]
        refine ⟨0, rfl, rfl, below, ?_⟩
        simpa only [List.forall_mem_cons] using ⟨UInt64.le_refl _, rest⟩
      · refine ⟨i + 1, by omega, by simpa using here, UInt64.lt_trans less below, ?_⟩
        simpa only [List.forall_mem_cons] using ⟨UInt64.le_of_lt less, rest⟩
    · have kept : findVictimTurn least (stamp, start) = least := if_neg below
      rw [kept]
      have above : least.2 ≤ stamp := UInt64.not_lt.mp below
      rcases ih (start + 1) least with ⟨same, rest⟩ | ⟨i, place, here, less, rest⟩
      · exact .inl ⟨same, by simpa only [List.forall_mem_cons] using ⟨above, rest⟩⟩
      · refine .inr ⟨i + 1, by omega, by simpa using here, less, ?_⟩
        have first := UInt64.le_of_lt (UInt64.lt_of_lt_of_le less above)
        simpa only [List.forall_mem_cons] using ⟨first, rest⟩

/-- Where some stamp is not the greatest number, the victim has a least one. -/
theorem findVictim_spec (a : SlotAllocator) {n : UInt64} (member : n ∈ a.lruOrder)
    (below : n < 18446744073709551615) :
    ∃ least, a.lruOrder[a.findVictim]? = some least ∧ ∀ n ∈ a.lruOrder, least ≤ n := by
  have search := foldl_findVictimTurn a.lruOrder 0 (0, 18446744073709551615)
  rcases search with ⟨-, rest⟩ | ⟨i, place, here, -, rest⟩
  · exact absurd (rest n member) (UInt64.not_le.mpr below)
  · refine ⟨_, ?_, rest⟩
    rw [findVictim, place, Nat.zero_add]
    exact here

theorem getElem?_of_lookup {a : SlotAllocator} {tokenId : UInt32} {i : ℕ}
    (found : a.lookup tokenId = some i) : a.occupied[i]? = some (some tokenId) := by
  obtain ⟨inside, same, -⟩ := List.findIdx?_eq_some_iff_getElem.mp found
  rw [List.getElem?_eq_getElem inside]
  exact congrArg some (by simpa using same)

theorem lookup_eq_none_iff {a : SlotAllocator} {tokenId : UInt32} :
    a.lookup tokenId = none ↔ ∀ i : ℕ, a.occupied[i]? ≠ some (some tokenId) := by
  constructor
  · intro absent i there
    have differs := List.findIdx?_eq_none_iff.mp absent _ (List.mem_of_getElem? there)
    simp at differs
  · intro absent
    refine List.findIdx?_eq_none_iff.mpr fun entry member => ?_
    obtain ⟨i, there⟩ := List.mem_iff_getElem?.mp member
    have other : entry ≠ some tokenId := fun same => absent i (same ▸ there)
    simpa using other

theorem allocate_of_lookup {a : SlotAllocator} {tokenId : UInt32} {i : ℕ}
    (found : a.lookup tokenId = some i) : a.allocate tokenId = ((i, true), a.stamp i) := by
  rw [allocate, found]

theorem allocate_of_absent {a : SlotAllocator} {tokenId : UInt32}
    (absent : a.lookup tokenId = none) :
    a.allocate tokenId = ((a.findVictim, false),
      { a with occupied := a.occupied.set a.findVictim (some tokenId) }.stamp a.findVictim) := by
  rw [allocate, absent]

end SlotAllocator

/-! ## The rows -/

/-- The bits of a half for those of a single, cut off and without subnormals. -/
def f32ToF16 (bits : UInt32) : UInt16 :=
  let sign := ((bits >>> 31) &&& 1).toUInt16
  let exp : ℤ := ((bits >>> 23) &&& 0xFF).toNat
  let mant := bits &&& 0x7FFFFF
  if exp = 0xFF then (sign <<< 15) ||| 0x7C00 ||| (if mant ≠ 0 then 0x0200 else 0)
  else if exp = 0 then sign <<< 15
  else
    let newExp := exp - 127 + 15
    if newExp ≥ 31 then (sign <<< 15) ||| 0x7C00
    else if newExp ≤ 0 then sign <<< 15
    else
      let newMant := mant >>> 13
      (sign <<< 15) ||| (UInt16.ofNat newExp.toNat <<< 10) ||| newMant.toUInt16

/-- The output head: its shape, and what reading a column of it as singles comes to. -/
structure LmHead where
  shape : List ℕ
  column : ℕ → Except String (List UInt32)

/-- A token of a call, with the codes the arena returns if its row is loaded. -/
structure RowRequest where
  tokenId : UInt32
  lockCode : ℤ
  unlockCode : ℤ
  deriving DecidableEq, Repr

/-- The arena is the memory from its base on, in halves. -/
structure WeightRowCache where
  rowArena : ℕ → UInt16
  cachedTokenIds : List UInt32
  maxRows : UInt32
  hiddenSize : UInt32
  slotAllocator : SlotAllocator

def extractRowFromLmHead (lmHead : LmHead) (tokenId hiddenSize : UInt32) :
    Except String (List UInt32) :=
  match lmHead.shape with
  | [_, lmDim1] =>
    if tokenId.toNat ≥ lmDim1 then
      .error s!"WeightRowCache: token_id {tokenId} out of range for vocab_size {lmDim1}"
    else
      match lmHead.column tokenId.toNat with
      | .error e => .error e
      | .ok row =>
        if row.length < hiddenSize.toNat then
          .error s!"WeightRowCache: extracted row has {row.length} elements, expected {hiddenSize}"
        else .ok row
  | shape => .error s!"WeightRowCache: expected rank-2 lm_head, got {shape}"

/-- The loop that writes the first `count` numbers of a row from `offset` on. -/
def writeRow (arena : ℕ → UInt16) (offset count : ℕ) (row : List UInt32) : ℕ → UInt16 :=
  (List.range count).foldl
    (fun arena i => Function.update arena (offset + i) (f32ToF16 (row.getD i 0))) arena

theorem writeRow_apply (arena : ℕ → UInt16) (offset count : ℕ) (row : List UInt32) (place : ℕ) :
    writeRow arena offset count row place =
      if offset ≤ place ∧ place < offset + count then f32ToF16 (row.getD (place - offset) 0)
      else arena place := by
  unfold writeRow
  induction count with
  | zero =>
    rw [if_neg (by omega)]
    rfl
  | succ count ih =>
    rw [List.range_succ, List.foldl_append, List.foldl_cons, List.foldl_nil]
    by_cases last : place = offset + count
    · subst last
      rw [Function.update_self, if_pos (by omega), Nat.add_sub_cancel_left]
    · rw [Function.update_of_ne last, ih]
      exact if_congr (by omega) rfl rfl

theorem length_of_extractRow {lmHead : LmHead} {tokenId hiddenSize : UInt32} {row : List UInt32}
    (extracted : extractRowFromLmHead lmHead tokenId hiddenSize = .ok row) :
    hiddenSize.toNat ≤ row.length := by
  unfold extractRowFromLmHead at extracted
  split at extracted
  next =>
    split at extracted
    next => cases extracted
    next =>
      split at extracted
      next => cases extracted
      next =>
        split at extracted
        next => cases extracted
        next long =>
          cases extracted
          exact Nat.not_lt.mp long
  next => cases extracted

namespace WeightRowCache

def new (maxRows hiddenSize : UInt32) (rowArena : ℕ → UInt16) : WeightRowCache where
  rowArena
  cachedTokenIds := List.replicate maxRows.toNat 0
  maxRows
  hiddenSize
  slotAllocator := .new maxRows

/-- Load a row. The slot is taken before anything can fail, and kept when something does. -/
def loadRow (c : WeightRowCache) (request : RowRequest) (rowDataF32 : List UInt32) :
    Except String Unit × WeightRowCache :=
  let ((slotIdx, _), slots) := c.slotAllocator.allocate request.tokenId
  let c := { c with slotAllocator := slots }
  let hs := c.hiddenSize.toNat
  if rowDataF32.length < hs then
    (.error s!"WeightRowCache: row data length {rowDataF32.length} < hidden_size {hs}", c)
  else if request.lockCode ≠ 0 then (.error s!"arena lock failed: {request.lockCode}", c)
  else
    let c := { c with rowArena := writeRow c.rowArena (slotIdx * hs) hs rowDataF32 }
    if request.unlockCode ≠ 0 then (.error s!"arena unlock failed: {request.unlockCode}", c)
    else (.ok (), { c with cachedTokenIds := c.cachedTokenIds.set slotIdx request.tokenId })

/-- One turn of the loop of `prefetch_rows`. -/
def prefetchRow (c : WeightRowCache) (lmHead : LmHead) (request : RowRequest) :
    Except String Unit × WeightRowCache :=
  if (c.slotAllocator.lookup request.tokenId).isSome then
    (.ok (), { c with slotAllocator := (c.slotAllocator.allocate request.tokenId).2 })
  else
    match extractRowFromLmHead lmHead request.tokenId c.hiddenSize with
    | .error e => (.error e, c)
    | .ok rowData => c.loadRow request rowData

def prefetchRows (lmHead : LmHead) : List RowRequest → WeightRowCache →
    Except String Unit × WeightRowCache
  | [], c => (.ok (), c)
  | request :: requests, c =>
    match c.prefetchRow lmHead request with
    | (.error e, c) => (.error e, c)
    | (.ok (), c) => prefetchRows lmHead requests c

theorem prefetchRow_of_lookup {c : WeightRowCache} {lmHead : LmHead} {request : RowRequest}
    {i : ℕ} (found : c.slotAllocator.lookup request.tokenId = some i) :
    c.prefetchRow lmHead request = (.ok (), { c with slotAllocator := c.slotAllocator.stamp i }) := by
  have present : (c.slotAllocator.lookup request.tokenId).isSome = true := by rw [found]; rfl
  rw [prefetchRow, if_pos present, SlotAllocator.allocate_of_lookup found]

theorem prefetchRow_of_error {c : WeightRowCache} {lmHead : LmHead} {request : RowRequest}
    {e : String} (absent : c.slotAllocator.lookup request.tokenId = none)
    (refused : extractRowFromLmHead lmHead request.tokenId c.hiddenSize = .error e) :
    c.prefetchRow lmHead request = (.error e, c) := by
  rw [prefetchRow, if_neg (by simp [absent]), refused]

theorem prefetchRow_of_ok {c : WeightRowCache} {lmHead : LmHead} {request : RowRequest}
    {row : List UInt32} (absent : c.slotAllocator.lookup request.tokenId = none)
    (extracted : extractRowFromLmHead lmHead request.tokenId c.hiddenSize = .ok row)
    (locks : request.lockCode = 0) (unlocks : request.unlockCode = 0) :
    c.prefetchRow lmHead request = (.ok (),
      { c with
        rowArena := writeRow c.rowArena
          (c.slotAllocator.findVictim * c.hiddenSize.toNat) c.hiddenSize.toNat row
        cachedTokenIds := c.cachedTokenIds.set c.slotAllocator.findVictim request.tokenId
        slotAllocator :=
          { c.slotAllocator with
            occupied := c.slotAllocator.occupied.set c.slotAllocator.findVictim
              (some request.tokenId) }.stamp c.slotAllocator.findVictim }) := by
  have enough : ¬row.length < c.hiddenSize.toNat := by
    have long := length_of_extractRow extracted
    omega
  rw [prefetchRow, if_neg (by simp [absent]), extracted]
  simp only [loadRow, SlotAllocator.allocate_of_absent absent]
  rw [if_neg enough, if_neg (by simpa using locks), if_neg (by simpa using unlocks)]

def arenaRow (c : WeightRowCache) (slot : ℕ) : List UInt16 :=
  (List.range c.hiddenSize.toNat).map fun i => c.rowArena (slot * c.hiddenSize.toNat + i)

end WeightRowCache

/-! ## Histories -/

/-- A call, and then its tokens one by one. -/
inductive PrefetchEvent
  | call
  | token (lmHead : LmHead) (request : RowRequest)

/-- A cache in the middle of a history: what its call has come to, the rows that were loaded for
the tokens, and the tokens in the order of their use, the last one first. -/
structure PrefetchRun where
  cache : WeightRowCache
  result : Except String Unit
  loaded : List (UInt32 × List UInt32)
  uses : List UInt32

structure PrefetchCall where
  lmHead : LmHead
  requests : List RowRequest

def PrefetchCall.events (call : PrefetchCall) : List PrefetchEvent :=
  .call :: call.requests.map (.token call.lmHead)

namespace PrefetchRun

def new (maxRows hiddenSize : UInt32) (rowArena : ℕ → UInt16) : PrefetchRun :=
  ⟨.new maxRows hiddenSize rowArena, .ok (), [], []⟩

/-- A token after an error is not looked at. -/
def step (s : PrefetchRun) : PrefetchEvent → Option PrefetchRun
  | .call => some { s with result := .ok () }
  | .token lmHead request =>
    match s.result with
    | .error _ => some s
    | .ok () =>
      match s.cache.prefetchRow lmHead request with
      | (.error e, cache) => some { s with cache, result := .error e }
      | (.ok (), cache) =>
        let loaded :=
          match s.cache.slotAllocator.lookup request.tokenId,
            extractRowFromLmHead lmHead request.tokenId s.cache.hiddenSize with
          | none, .ok row => (request.tokenId, row) :: s.loaded
          | _, _ => s.loaded
        some { cache, result := .ok (), loaded, uses := request.tokenId :: s.uses }

/-- A run over the tokens of a call is the loop of `prefetch_rows`. -/
theorem exec_tokens (lmHead : LmHead) (requests : List RowRequest) {s : PrefetchRun}
    (going : s.result = .ok ()) :
    ∃ t, Runs.exec step s (requests.map (.token lmHead)) = some t ∧
      (t.result, t.cache) = s.cache.prefetchRows lmHead requests := by
  induction requests generalizing s with
  | nil => exact ⟨s, rfl, by rw [going]; rfl⟩
  | cons request requests ih =>
    cases handled : s.cache.prefetchRow lmHead request with
    | mk result cache =>
      cases result with
      | error e =>
        -- the rest of the call is skipped
        have skipped : ∀ (requests : List RowRequest) (t : PrefetchRun), t.result = .error e →
            Runs.exec step t (requests.map (.token lmHead)) = some t := by
          intro requests
          induction requests with
          | nil => exact fun t _ => rfl
          | cons request requests ih =>
            intro t failed
            refine (Runs.exec_cons_iff ..).mpr ⟨t, ?_, ih t failed⟩
            rw [step, failed]
        refine ⟨{ s with cache, result := .error e }, ?_, ?_⟩
        · refine (Runs.exec_cons_iff ..).mpr ⟨_, ?_, skipped requests _ rfl⟩
          simp only [step, going, handled]
        · simp only [WeightRowCache.prefetchRows, handled]
      | ok done =>
        obtain ⟨u, stepped, ended, here⟩ : ∃ u, step s (.token lmHead request) = some u ∧
            u.result = .ok () ∧ u.cache = cache := by
          simp only [step, going, handled]
          exact ⟨_, rfl, rfl, rfl⟩
        obtain ⟨t, run, same⟩ := ih ended
        refine ⟨t, (Runs.exec_cons_iff ..).mpr ⟨u, stepped, run⟩, ?_⟩
        rw [same, here, WeightRowCache.prefetchRows, handled]

/-- The events of a call come to what the call does. -/
theorem exec_events (call : PrefetchCall) (s : PrefetchRun) :
    ∃ t, Runs.exec step s call.events = some t ∧
      (t.result, t.cache) = s.cache.prefetchRows call.lmHead call.requests := by
  obtain ⟨t, run, same⟩ :=
    exec_tokens call.lmHead call.requests (s := { s with result := .ok () }) rfl
  exact ⟨t, (Runs.exec_cons_iff ..).mpr ⟨_, rfl, run⟩, same⟩

/-! ## The law of the cache -/

/-- Slot `i` holds token `t`: its stamp is that of the last use of the token, the table has the
token, and the row is the image of one that was loaded for it. -/
structure Kept (s : PrefetchRun) (i : ℕ) (t : UInt32) : Prop where
  stamped : ∃ n, s.cache.slotAllocator.lruOrder[i]? = some n ∧
    n.toNat + 1 + s.uses.idxOf t = s.uses.length
  tabled : s.cache.cachedTokenIds[i]? = some t
  rowed : ∃ row, (t, row) ∈ s.loaded ∧
    s.cache.arenaRow i = (row.take s.cache.hiddenSize.toNat).map f32ToF16

/-- What holds of a cache of `rows` rows. A slot in use has the stamp of a free one only after
the first use, or where there is no other slot. -/
structure Sound (rows : UInt32) (s : PrefetchRun) : Prop where
  slots : s.cache.slotAllocator.occupied.length = rows.toNat
  stamps : s.cache.slotAllocator.lruOrder.length = rows.toNat
  table : s.cache.cachedTokenIds.length = rows.toNat
  counter : s.cache.slotAllocator.accessCounter.toNat = s.uses.length
  kept : ∀ i t, s.cache.slotAllocator.occupied[i]? = some (some t) → s.Kept i t
  free : ∀ i : ℕ, s.cache.slotAllocator.occupied[i]? = some none →
    s.cache.slotAllocator.lruOrder[i]? = some 0
  apart : ∀ (i j : ℕ) (t : UInt32), s.cache.slotAllocator.occupied[i]? = some (some t) →
    s.cache.slotAllocator.occupied[j]? = some (some t) → i = j
  early : ∀ (i : ℕ) (t : UInt32), s.cache.slotAllocator.occupied[i]? = some (some t) →
    s.cache.slotAllocator.lruOrder[i]? = some 0 → s.uses.length = 1 ∨ rows.toNat = 1

/-- The slots, the table and the arena agree, and no two tokens share a slot. -/
def RowLaw (s : PrefetchRun) : Prop :=
  (∀ t i, s.cache.slotAllocator.lookup t = some i →
    s.cache.cachedTokenIds[i]? = some t ∧
      ∃ row, (t, row) ∈ s.loaded ∧
        s.cache.arenaRow i = (row.take s.cache.hiddenSize.toNat).map f32ToF16) ∧
  ∀ t u i, s.cache.slotAllocator.lookup t = some i → s.cache.slotAllocator.lookup u = some i →
    t = u

/-- A token that loses its slot does so to a full cache, and every other cached token was used
after it. -/
def EvictionLaw (s : PrefetchRun) (_ : PrefetchEvent) (s' : PrefetchRun) : Prop :=
  ∀ u i, s.cache.slotAllocator.lookup u = some i → s'.cache.slotAllocator.lookup u = none →
    none ∉ s.cache.slotAllocator.occupied ∧
      ∀ v j, s.cache.slotAllocator.lookup v = some j → v ≠ u →
        s.uses.idxOf v < s.uses.idxOf u

/-- The numbers of the accesses do not run out. A row that is loaded is locked and unlocked, and
not loaded as the second access to a cache of several slots. -/
def Admits (s : PrefetchRun) : PrefetchEvent → Prop
  | .call => True
  | .token lmHead request =>
    s.result = .ok () →
      s.cache.slotAllocator.accessCounter.toNat + 1 < 2 ^ 64 ∧
      (s.cache.slotAllocator.lookup request.tokenId = none →
        (extractRowFromLmHead lmHead request.tokenId s.cache.hiddenSize).toOption.isSome →
          request.lockCode = 0 ∧ request.unlockCode = 0 ∧
          (s.cache.slotAllocator.accessCounter = 1 → s.cache.slotAllocator.occupied.length = 1))

theorem sound_new (rows hiddenSize : UInt32) (arena : ℕ → UInt16) :
    (new rows hiddenSize arena).Sound rows := by
  have empty : ∀ (i : ℕ) (t : UInt32),
      (List.replicate rows.toNat (none : Option UInt32))[i]? ≠ some (some t) := by
    intro i t there
    have := List.eq_of_mem_replicate (List.mem_of_getElem? there)
    simp at this
  refine ⟨List.length_replicate, List.length_replicate, List.length_replicate, rfl,
    fun i t there => absurd there (empty i t), ?_, fun i _ t there => absurd there (empty i t),
    fun i t there => absurd there (empty i t)⟩
  intro i there
  have inside := (List.getElem?_eq_some_iff.mp there).1
  have small : i < rows.toNat := by simpa [new, WeightRowCache.new, SlotAllocator.new] using inside
  simp [new, WeightRowCache.new, SlotAllocator.new, small]

variable {rows : UInt32} {s : PrefetchRun}

theorem Sound.rowLaw (sound : s.Sound rows) : s.RowLaw := by
  constructor
  · intro t i found
    have here := sound.kept i t (SlotAllocator.getElem?_of_lookup found)
    exact ⟨here.tabled, here.rowed⟩
  · intro t u i found found'
    have here := SlotAllocator.getElem?_of_lookup found
    rw [SlotAllocator.getElem?_of_lookup found'] at here
    simpa using here.symm

theorem Kept.used {i : ℕ} {t : UInt32} (kept : s.Kept i t) : t ∈ s.uses := by
  obtain ⟨n, -, last⟩ := kept.stamped
  exact List.idxOf_lt_length_iff.mp (by omega)

def touched (s : PrefetchRun) (i : ℕ) (t : UInt32) : PrefetchRun :=
  ⟨{ s.cache with slotAllocator := s.cache.slotAllocator.stamp i }, .ok (), s.loaded, t :: s.uses⟩

def filled (s : PrefetchRun) (v : ℕ) (t : UInt32) (row : List UInt32) : PrefetchRun :=
  ⟨{ s.cache with
      rowArena := writeRow s.cache.rowArena (v * s.cache.hiddenSize.toNat)
        s.cache.hiddenSize.toNat row
      cachedTokenIds := s.cache.cachedTokenIds.set v t
      slotAllocator :=
        { s.cache.slotAllocator with
          occupied := s.cache.slotAllocator.occupied.set v (some t) }.stamp v },
    .ok (), (t, row) :: s.loaded, t :: s.uses⟩

/-- A use of another token leaves a slot that is not written as it should be. -/
theorem Kept.next {s' : PrefetchRun} {j : ℕ} {t u : UInt32} (kept : s.Kept j u) (other : u ≠ t)
    (uses : s'.uses = t :: s.uses)
    (stamp : s'.cache.slotAllocator.lruOrder[j]? = s.cache.slotAllocator.lruOrder[j]?)
    (table : s'.cache.cachedTokenIds[j]? = s.cache.cachedTokenIds[j]?)
    (row : s'.cache.arenaRow j = s.cache.arenaRow j)
    (size : s'.cache.hiddenSize = s.cache.hiddenSize) (loaded : s.loaded ⊆ s'.loaded) :
    s'.Kept j u := by
  obtain ⟨n, here, last⟩ := kept.stamped
  obtain ⟨data, member, image⟩ := kept.rowed
  refine ⟨⟨n, stamp.trans here, ?_⟩, table.trans kept.tabled, data, loaded member, ?_⟩
  · rw [uses, List.idxOf_cons_ne _ other.symm, List.length_cons]
    omega
  · rw [row, size]
    exact image

/-- The stamp of an access is the number of the uses before it. -/
theorem getElem?_stamp (a : SlotAllocator) (i j : ℕ) :
    (a.stamp i).lruOrder[j]? =
      if i = j then if i < a.lruOrder.length then some a.accessCounter else none
      else a.lruOrder[j]? :=
  List.getElem?_set

theorem toNat_accessCounter_stamp {a : SlotAllocator} {i : ℕ}
    (room : a.accessCounter.toNat + 1 < 2 ^ 64) :
    (a.stamp i).accessCounter.toNat = a.accessCounter.toNat + 1 := by
  rw [SlotAllocator.stamp, UInt64.toNat_add]
  exact Nat.mod_eq_of_lt room

theorem Sound.touch (sound : s.Sound rows) {t : UInt32} {i : ℕ}
    (found : s.cache.slotAllocator.lookup t = some i)
    (room : s.cache.slotAllocator.accessCounter.toNat + 1 < 2 ^ 64) :
    (s.touched i t).Sound rows := by
  have here := SlotAllocator.getElem?_of_lookup found
  have inside : i < s.cache.slotAllocator.lruOrder.length := by
    rw [sound.stamps, ← sound.slots]
    exact (List.getElem?_eq_some_iff.mp here).1
  have counter := sound.counter
  have stamped (j : ℕ) : (s.touched i t).cache.slotAllocator.lruOrder[j]? =
      if i = j then some s.cache.slotAllocator.accessCounter
      else s.cache.slotAllocator.lruOrder[j]? := by
    refine (getElem?_stamp ..).trans ?_
    rw [if_pos inside]
  refine ⟨sound.slots, List.length_set.trans sound.stamps, sound.table, ?_, ?_, ?_, sound.apart, ?_⟩
  · exact (toNat_accessCounter_stamp (i := i) room).trans (congrArg (· + 1) counter)
  · intro j u there
    have old := sound.kept j u there
    by_cases same : i = j
    · subst same
      have equal : some (some t) = some (some u) := here.symm.trans there
      obtain rfl : t = u := by simpa using equal
      refine ⟨⟨s.cache.slotAllocator.accessCounter, (stamped i).trans (if_pos rfl), ?_⟩,
        old.tabled, old.rowed⟩
      · rw [touched, List.idxOf_cons_self, List.length_cons, counter]
    · have other : u ≠ t := fun equal => same (sound.apart i j t here (equal ▸ there))
      exact old.next other rfl ((stamped j).trans (if_neg same)) rfl rfl rfl (List.Subset.refl _)
  · -- a free slot is not the one of the token
    intro j there
    have apart : i ≠ j := by
      rintro rfl
      have equal : some (some t) = some none := here.symm.trans there
      simp at equal
    exact ((stamped j).trans (if_neg apart)).trans (sound.free j there)
  · intro j u there zero
    right
    have used := (sound.kept i t here).used
    by_cases same : i = j
    · -- the stamp of this use is not the first
      subst same
      rw [stamped, if_pos rfl] at zero
      have none_used : s.uses.length = 0 := by
        rw [← counter, Option.some.inj zero]
        rfl
      have := List.length_pos_of_mem used
      omega
    · rw [stamped, if_neg same] at zero
      rcases sound.early j u there zero with once | single
      · -- two tokens have been used
        obtain ⟨v, only⟩ := List.length_eq_one_iff.mp once
        have used' := (sound.kept j u there).used
        rw [only, List.mem_singleton] at used used'
        exact absurd (sound.apart i j t here (used ▸ used' ▸ there)) same
      · exact single

theorem Sound.victim (sound : s.Sound rows) (positive : 0 < rows.toNat)
    (room : s.cache.slotAllocator.accessCounter.toNat + 1 < 2 ^ 64) :
    ∃ least, s.cache.slotAllocator.lruOrder[s.cache.slotAllocator.findVictim]? = some least ∧
      ∀ n ∈ s.cache.slotAllocator.lruOrder, least ≤ n := by
  have first : 0 < s.cache.slotAllocator.occupied.length := by rw [sound.slots]; exact positive
  obtain ⟨entry, there⟩ : ∃ entry, s.cache.slotAllocator.occupied[0]? = some entry :=
    ⟨_, List.getElem?_eq_getElem first⟩
  -- the stamp of the first slot is below the greatest number, be it free or in use
  cases entry with
  | none =>
    refine SlotAllocator.findVictim_spec _ (List.mem_of_getElem? (sound.free 0 there)) ?_
    decide
  | some t =>
    obtain ⟨n, here, last⟩ := (sound.kept 0 t there).stamped
    refine SlotAllocator.findVictim_spec _ (List.mem_of_getElem? here) ?_
    have counter := sound.counter
    have bound : (18446744073709551615 : UInt64).toNat = 2 ^ 64 - 1 := by decide
    rw [UInt64.lt_iff_toNat_lt, bound]
    omega

theorem getElem?_occupied_set (a : SlotAllocator) (v j : ℕ) (t : UInt32) :
    (({ a with occupied := a.occupied.set v (some t) } : SlotAllocator).stamp v).occupied[j]? =
      if v = j then if v < a.occupied.length then some (some t) else none
      else a.occupied[j]? :=
  List.getElem?_set

theorem arenaRow_writeRow_of_ne (c c' : WeightRowCache) {i j : ℕ} (row : List UInt32)
    (apart : i ≠ j) (size : c'.hiddenSize = c.hiddenSize)
    (written : c'.rowArena =
      writeRow c.rowArena (i * c.hiddenSize.toNat) c.hiddenSize.toNat row) :
    c'.arenaRow j = c.arenaRow j := by
  unfold WeightRowCache.arenaRow
  rw [size, written]
  refine List.map_congr_left fun k member => ?_
  rw [writeRow_apply, if_neg]
  rintro ⟨low, high⟩
  have below := List.mem_range.mp member
  rcases Nat.lt_or_gt_of_ne apart with less | greater
  · have : (i + 1) * c.hiddenSize.toNat ≤ j * c.hiddenSize.toNat :=
      Nat.mul_le_mul_right _ less
    rw [Nat.add_mul] at this
    omega
  · have : (j + 1) * c.hiddenSize.toNat ≤ i * c.hiddenSize.toNat :=
      Nat.mul_le_mul_right _ greater
    rw [Nat.add_mul] at this
    omega

theorem arenaRow_writeRow (c c' : WeightRowCache) (i : ℕ) {row : List UInt32}
    (long : c.hiddenSize.toNat ≤ row.length) (size : c'.hiddenSize = c.hiddenSize)
    (written : c'.rowArena =
      writeRow c.rowArena (i * c.hiddenSize.toNat) c.hiddenSize.toNat row) :
    c'.arenaRow i = (row.take c.hiddenSize.toNat).map f32ToF16 := by
  unfold WeightRowCache.arenaRow
  rw [size, written]
  refine List.ext_getElem (by simp [long]) fun k inside _ => ?_
  have below : k < c.hiddenSize.toNat := by simpa using inside
  rw [List.getElem_map, List.getElem_range, writeRow_apply, if_pos (by omega),
    Nat.add_sub_cancel_left, List.getElem_map, List.getElem_take,
    List.getD_eq_getElem?_getD, List.getElem?_eq_getElem (by omega), Option.getD_some]

theorem Sound.getElem?_lruOrder_filled (sound : s.Sound rows) {v : ℕ} (inside : v < rows.toNat)
    (t : UInt32) (row : List UInt32) (j : ℕ) :
    (s.filled v t row).cache.slotAllocator.lruOrder[j]? =
      if v = j then some s.cache.slotAllocator.accessCounter
      else s.cache.slotAllocator.lruOrder[j]? := by
  have stamps := sound.stamps
  refine (getElem?_stamp ..).trans ?_
  rw [if_pos (show v < s.cache.slotAllocator.lruOrder.length by omega)]

theorem Sound.getElem?_occupied_filled (sound : s.Sound rows) {v : ℕ} (inside : v < rows.toNat)
    (t : UInt32) (row : List UInt32) (j : ℕ) :
    (s.filled v t row).cache.slotAllocator.occupied[j]? =
      if v = j then some (some t) else s.cache.slotAllocator.occupied[j]? := by
  have slots := sound.slots
  refine (getElem?_occupied_set ..).trans ?_
  rw [if_pos (show v < s.cache.slotAllocator.occupied.length by omega)]

/-- After a load the slots in use are as they should be: the one that was written, and the others
as they were. -/
theorem Sound.kept_filled (sound : s.Sound rows) {t : UInt32} {row : List UInt32}
    (fresh : ∀ i : ℕ, s.cache.slotAllocator.occupied[i]? ≠ some (some t))
    (long : s.cache.hiddenSize.toNat ≤ row.length) {v : ℕ} (inside : v < rows.toNat)
    {j : ℕ} {u : UInt32}
    (there : (s.filled v t row).cache.slotAllocator.occupied[j]? = some (some u)) :
    (s.filled v t row).Kept j u := by
  have stamped := sound.getElem?_lruOrder_filled inside t row
  rw [sound.getElem?_occupied_filled inside] at there
  by_cases same : v = j
  · subst same
    obtain rfl : t = u := by simpa using there
    have size : v < s.cache.cachedTokenIds.length := by
      rw [sound.table]
      exact inside
    refine ⟨⟨s.cache.slotAllocator.accessCounter, (stamped v).trans (if_pos rfl), ?_⟩,
      List.getElem?_set_self size, row, List.mem_cons_self,
      arenaRow_writeRow s.cache _ v long rfl rfl⟩
    rw [filled, List.idxOf_cons_self, List.length_cons, sound.counter]
  · -- another slot in use has another token, since this one was in none
    rw [if_neg same] at there
    have other : u ≠ t := fun equal => fresh j (equal ▸ there)
    exact (sound.kept j u there).next other rfl ((stamped j).trans (if_neg same))
      (List.getElem?_set_ne same) (arenaRow_writeRow_of_ne s.cache _ row same rfl rfl) rfl
      (List.subset_cons_self _ _)

theorem Sound.apart_filled (sound : s.Sound rows) {t : UInt32} {row : List UInt32}
    (fresh : ∀ i : ℕ, s.cache.slotAllocator.occupied[i]? ≠ some (some t))
    {v : ℕ} (inside : v < rows.toNat) {j k : ℕ} {u : UInt32}
    (there : (s.filled v t row).cache.slotAllocator.occupied[j]? = some (some u))
    (there' : (s.filled v t row).cache.slotAllocator.occupied[k]? = some (some u)) : j = k := by
  rw [sound.getElem?_occupied_filled inside] at there there'
  by_cases left : v = j
  · by_cases right : v = k
    · omega
    · rw [if_pos left] at there
      rw [if_neg right] at there'
      obtain rfl : t = u := by simpa using there
      exact absurd there' (fresh k)
  · rw [if_neg left] at there
    by_cases right : v = k
    · rw [if_pos right] at there'
      obtain rfl : t = u := by simpa using there'
      exact absurd there (fresh j)
    · rw [if_neg right] at there'
      exact sound.apart j k u there there'

/-- Where the second access is not a load, a slot in use has the stamp of a free one only if
there is no other slot. -/
theorem Sound.single (sound : s.Sound rows)
    (second : s.cache.slotAllocator.accessCounter = 1 →
      s.cache.slotAllocator.occupied.length = 1) {i : ℕ} {u : UInt32}
    (there : s.cache.slotAllocator.occupied[i]? = some (some u))
    (zero : s.cache.slotAllocator.lruOrder[i]? = some 0) : rows.toNat = 1 := by
  rcases sound.early i u there zero with once | single
  · -- after one use the counter is one
    rw [← sound.slots]
    refine second (UInt64.toNat_inj.mp ?_)
    rw [sound.counter, once]
    rfl
  · exact single

/-- A load keeps everything, where the second access is not one. -/
theorem Sound.fill (sound : s.Sound rows) {t : UInt32} {row : List UInt32}
    (absent : s.cache.slotAllocator.lookup t = none)
    (long : s.cache.hiddenSize.toNat ≤ row.length)
    (room : s.cache.slotAllocator.accessCounter.toNat + 1 < 2 ^ 64)
    (second : s.cache.slotAllocator.accessCounter = 1 →
      s.cache.slotAllocator.occupied.length = 1)
    {v : ℕ} (inside : v < rows.toNat) : (s.filled v t row).Sound rows := by
  have fresh := SlotAllocator.lookup_eq_none_iff.mp absent
  have counter := sound.counter
  have stamped := sound.getElem?_lruOrder_filled inside t row
  have taken := sound.getElem?_occupied_filled inside t row
  refine ⟨List.length_set.trans sound.slots, List.length_set.trans sound.stamps,
    List.length_set.trans sound.table, ?_, fun j u => sound.kept_filled fresh long inside, ?_,
    fun j k u => sound.apart_filled fresh inside, ?_⟩
  · exact (toNat_accessCounter_stamp (i := v) room).trans (congrArg (· + 1) counter)
  · intro j there
    rw [taken] at there
    rw [stamped]
    by_cases same : v = j
    · simp [same] at there
    · rw [if_neg same] at there ⊢
      exact sound.free j there
  · intro j u there zero
    rw [taken] at there
    rw [stamped] at zero
    by_cases same : v = j
    · -- the first use has the stamp zero
      rw [if_pos same] at zero
      left
      rw [filled, List.length_cons, ← counter, Option.some.inj zero]
      rfl
    · right
      rw [if_neg same] at there zero
      exact sound.single second there zero

/-- The token that a load takes the slot of was the least recently used one of a full cache. -/
theorem Sound.evicted (sound : s.Sound rows)
    {least : UInt64} (victim : s.cache.slotAllocator.lruOrder[s.cache.slotAllocator.findVictim]? =
      some least) (lowest : ∀ n ∈ s.cache.slotAllocator.lruOrder, least ≤ n)
    (second : s.cache.slotAllocator.accessCounter = 1 →
      s.cache.slotAllocator.occupied.length = 1) {u : UInt32}
    (there : s.cache.slotAllocator.occupied[s.cache.slotAllocator.findVictim]? = some (some u)) :
    none ∉ s.cache.slotAllocator.occupied ∧
      ∀ v j, s.cache.slotAllocator.lookup v = some j → v ≠ u →
        s.uses.idxOf v < s.uses.idxOf u := by
  have slots := sound.slots
  constructor
  · intro member
    obtain ⟨j, free⟩ := List.mem_iff_getElem?.mp member
    -- the least stamp is that of a free slot, which a slot in use has with one slot only
    have zero : least = 0 := by
      have below := lowest 0 (List.mem_of_getElem? (sound.free j free))
      exact UInt64.le_antisymm below (UInt64.zero_le)
    have single : rows.toNat = 1 := sound.single second there (zero ▸ victim)
    have left := (List.getElem?_eq_some_iff.mp there).1
    have right := (List.getElem?_eq_some_iff.mp free).1
    have same : s.cache.slotAllocator.findVictim = j := by omega
    rw [same, free] at there
    simp at there
  · intro v j found other
    obtain ⟨n, here, last⟩ := (sound.kept j v (SlotAllocator.getElem?_of_lookup found)).stamped
    obtain ⟨n', here', last'⟩ := (sound.kept _ u there).stamped
    obtain rfl : least = n' := Option.some.inj (victim.symm.trans here')
    have order := UInt64.le_iff_toNat_le.mp (lowest n (List.mem_of_getElem? here))
    -- two tokens are not used at one place
    have apart : s.uses.idxOf v ≠ s.uses.idxOf u := by
      intro equal
      have member : v ∈ s.uses := List.idxOf_lt_length_iff.mp (by omega)
      exact other (List.idxOf_inj member |>.mp equal)
    omega

theorem Sound.withResult (sound : s.Sound rows) (result : Except String Unit) :
    Sound rows { s with result } := by
  refine ⟨sound.slots, sound.stamps, sound.table, sound.counter, ?_, sound.free, sound.apart,
    sound.early⟩
  intro i t there
  have kept := sound.kept i t there
  exact ⟨kept.stamped, kept.tabled, kept.rowed⟩

theorem evictionLaw_of_lookup {e : PrefetchEvent} {s s' : PrefetchRun}
    (same : ∀ u, s'.cache.slotAllocator.lookup u = s.cache.slotAllocator.lookup u) :
    s.EvictionLaw e s' := by
  intro u i found lost
  rw [same, found] at lost
  simp at lost

theorem step_token {lmHead : LmHead} {request : RowRequest} (going : s.result = .ok ())
    (admits : s.Admits (.token lmHead request)) :
    (∃ i, s.cache.slotAllocator.lookup request.tokenId = some i ∧
      s.step (.token lmHead request) = some (s.touched i request.tokenId)) ∨
    (∃ e, s.cache.slotAllocator.lookup request.tokenId = none ∧
      s.step (.token lmHead request) = some { s with result := .error e }) ∨
    ∃ row, s.cache.slotAllocator.lookup request.tokenId = none ∧
      extractRowFromLmHead lmHead request.tokenId s.cache.hiddenSize = .ok row ∧
      s.step (.token lmHead request) =
        some (s.filled s.cache.slotAllocator.findVictim request.tokenId row) := by
  cases found : s.cache.slotAllocator.lookup request.tokenId with
  | some i =>
    left
    refine ⟨i, rfl, ?_⟩
    simp only [step, going, WeightRowCache.prefetchRow_of_lookup found, found]
    rfl
  | none =>
    right
    cases extracted : extractRowFromLmHead lmHead request.tokenId s.cache.hiddenSize with
    | error e =>
      left
      refine ⟨e, rfl, ?_⟩
      simp only [step, going, WeightRowCache.prefetchRow_of_error found extracted]
    | ok row =>
      right
      obtain ⟨locks, unlocks, -⟩ := (admits going).2 found (by rw [extracted]; rfl)
      refine ⟨row, rfl, rfl, ?_⟩
      simp only [step, going, WeightRowCache.prefetchRow_of_ok found extracted locks unlocks,
        found, extracted]
      rfl

/-- An admitted step keeps everything and evicts the right token. -/
theorem Sound.step (sound : s.Sound rows) (positive : 0 < rows.toNat) {e : PrefetchEvent}
    (admits : s.Admits e) {t : PrefetchRun} (taken : s.step e = some t) :
    t.Sound rows ∧ s.EvictionLaw e t := by
  cases e with
  | call =>
    cases taken
    exact ⟨sound.withResult _, evictionLaw_of_lookup fun u => rfl⟩
  | token lmHead request =>
    cases going : s.result with
    | error e =>
      rw [PrefetchRun.step, going] at taken
      cases taken
      exact ⟨sound, evictionLaw_of_lookup fun u => rfl⟩
    | ok done =>
      have room := (admits going).1
      rcases step_token going admits with ⟨i, found, here⟩ | ⟨e, absent, here⟩ |
        ⟨row, absent, extracted, here⟩
      · rw [here] at taken
        cases taken
        exact ⟨sound.touch found room, evictionLaw_of_lookup fun u => rfl⟩
      · rw [here] at taken
        cases taken
        exact ⟨sound.withResult _, evictionLaw_of_lookup fun u => rfl⟩
      · rw [here] at taken
        cases taken
        have second := ((admits going).2 absent (by rw [extracted]; rfl)).2.2
        obtain ⟨least, victim, lowest⟩ := sound.victim positive room
        have inside : s.cache.slotAllocator.findVictim < rows.toNat := by
          rw [← sound.stamps]
          exact (List.getElem?_eq_some_iff.mp victim).1
        refine ⟨sound.fill absent (length_of_extractRow extracted) room second inside, ?_⟩
        intro u i found lost
        have there := SlotAllocator.getElem?_of_lookup found
        -- only the slot of the victim is taken from its token
        have same : s.cache.slotAllocator.findVictim = i := by
          by_contra apart
          refine SlotAllocator.lookup_eq_none_iff.mp lost i ?_
          exact ((getElem?_occupied_set ..).trans (if_neg apart)).trans there
        exact sound.evicted victim lowest second (same ▸ there)

/-- Along every history whose loads are locked and are not the second access to several slots, the
slots, the table and the arena agree, and only a full cache evicts, the least recently used. -/
theorem lawful_of_guarded (rows hiddenSize : UInt32) (positive : 0 < rows)
    (arena : ℕ → UInt16) (calls : List PrefetchCall)
    (admitted : Runs.Guarded step Admits (new rows hiddenSize arena)
      (calls.flatMap PrefetchCall.events)) :
    Runs.Always step RowLaw (new rows hiddenSize arena) (calls.flatMap PrefetchCall.events) ∧
      Runs.Throughout step EvictionLaw (new rows hiddenSize arena)
        (calls.flatMap PrefetchCall.events) := by
  have some_row : 0 < rows.toNat := by simpa using UInt32.lt_iff_toNat_lt.mp positive
  obtain ⟨always, throughout⟩ := Runs.throughout_of_guarded step
    (fun s e t (sound : s.Sound rows) admits taken => sound.step some_row admits taken)
    (sound_new rows hiddenSize arena) admitted
  exact ⟨Runs.always_mono step (fun s sound => sound.rowLaw) always, throughout⟩

end PrefetchRun

/-- A head of ten columns, each of one number. -/
def narrowHead : LmHead := ⟨[1, 10], fun t => .ok [UInt32.ofNat (0x3F800000 + t)]⟩

namespace PrefetchRun

instance (s : PrefetchRun) : (e : PrefetchEvent) → Decidable (s.Admits e)
  | .call => inferInstanceAs (Decidable True)
  | .token _ _ => inferInstanceAs (Decidable (s.result = .ok () → _ ∧ (_ → _ → _)))

/-- A token used twice, two others, and then one that is not in the head. -/
theorem lawful_of_narrowHead :
    let calls := [(⟨narrowHead, [⟨5, 0, 0⟩, ⟨5, 0, 0⟩, ⟨7, 0, 0⟩]⟩ : PrefetchCall),
      ⟨narrowHead, [⟨9, 0, 0⟩, ⟨12, 0, 0⟩, ⟨5, 0, 0⟩]⟩]
    Runs.Always step RowLaw (new 2 1 fun _ => 0) (calls.flatMap PrefetchCall.events) ∧
      Runs.Throughout step EvictionLaw (new 2 1 fun _ => 0)
        (calls.flatMap PrefetchCall.events) :=
  lawful_of_guarded 2 1 (by decide) (fun _ => 0) _ (by decide +kernel)

/-- The second token of two takes the slot of the first, although the other slot is free; and a
token whose row was not locked is found in a slot that the table has for another. -/
theorem not_lawful_of_second_access :
    ¬Runs.Throughout step EvictionLaw (new 2 1 fun _ => 0)
      (PrefetchCall.events ⟨narrowHead, [⟨5, 0, 0⟩, ⟨7, 0, 0⟩]⟩) ∧
    ¬Runs.Always step RowLaw (new 2 1 fun _ => 0)
      (PrefetchCall.events ⟨narrowHead, [⟨5, -1, 0⟩]⟩) := by
  constructor
  · intro throughout
    have second := (((throughout _ rfl).2 _ rfl).2 _ rfl).1
    have full := (second 5 0 (by decide) (by decide)).1
    exact full (by decide)
  · intro always
    have row := ((always.2 _ rfl).2 _ rfl).1 5 0 (by decide)
    exact absurd row.1 (by decide)

end PrefetchRun

end TribunusCompute.Cache
