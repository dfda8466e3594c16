import Mathlib.Algebra.GroupWithZero.Nat
import TribunusCompute.Library.Keyed
import TribunusCompute.Library.Runs

/-!
# The cache of uploaded weights

`WeightCache` keeps residency records by key within a budget of bytes. A map, a queue of the keys
and a count of the bytes are kept in step by every call. Room is made by evicting what no session
pins before what one pins, and the least recently used first.
-/
namespace TribunusCompute.Cache

structure WeightCacheKey where
  tensorIdentity : String
  capability : String
  topologyHash : String
  layoutVersion : UInt32
  dataFormat : String
  deriving DecidableEq, Repr

/-- A residency record: the tensor it is of, and the size the cache counts. -/
structure TensorResidency where
  tensorName : String
  byteSize : ℕ
  deriving DecidableEq, Repr

structure WeightCacheEntry where
  residency : TensorResidency
  sessionId : Option String
  deriving DecidableEq, Repr

abbrev WeightEntries := AList fun _ : WeightCacheKey => WeightCacheEntry

/-- The least recently used key is at the front of the order. -/
structure WeightCache where
  maxDramBytes : ℕ
  currentDramBytes : ℕ
  entries : WeightEntries
  lruOrder : List WeightCacheKey
  hits : ℕ
  misses : ℕ
  uploadAvoidanceBytes : ℕ

/-- A sum of 64 bits. A larger one panics. -/
def addBytes (a b : ℕ) : Option ℕ := if a + b < 2 ^ 64 then some (a + b) else none

/-- A difference panics below zero. -/
def subBytes (a b : ℕ) : Option ℕ := if b ≤ a then some (a - b) else none

namespace WeightCache

def new (maxDramBytes : ℕ) : WeightCache := ⟨maxDramBytes, 0, ∅, [], 0, 0, 0⟩

/-- The record under the key and the cache after. The removal from the queue, and the lookup of a
key that the queue lists, panic where there is nothing. -/
def get (c : WeightCache) (key : WeightCacheKey) : Option (Option TensorResidency × WeightCache) :=
  match c.lruOrder.idxOf? key with
  | some pos => do
    let k ← c.lruOrder[pos]?
    let entry ← c.entries.lookup key
    let avoided ← addBytes c.uploadAvoidanceBytes entry.residency.byteSize
    some (some entry.residency,
      { c with
        lruOrder := c.lruOrder.eraseIdx pos ++ [k]
        hits := c.hits + 1
        uploadAvoidanceBytes := avoided })
  | none => some (none, { c with misses := c.misses + 1 })

def dequeue (order : List WeightCacheKey) (key : WeightCacheKey) : List WeightCacheKey :=
  match order.idxOf? key with
  | some pos => order.eraseIdx pos
  | none => order

/-- The first step of an insertion: the key is no longer in the cache. -/
def removeExisting (c : WeightCache) (key : WeightCacheKey) : Option WeightCache :=
  match c.entries.lookup key with
  | none => some c
  | some oldEntry => do
    let rest ← subBytes c.currentDramBytes oldEntry.residency.byteSize
    some
      { c with
        entries := c.entries.erase key
        currentDramBytes := rest
        lruOrder := dequeue c.lruOrder key }

def unpinned (c : WeightCache) (key : WeightCacheKey) : Bool :=
  (c.entries.lookup key).any fun entry => entry.sessionId.isNone

/-- The first unpinned key of the order, or else the first key. -/
def victimIdx (c : WeightCache) : ℕ := (c.lruOrder.findIdx? c.unpinned).getD 0

/-- One turn of the loop that makes room. -/
def evict (c : WeightCache) : Option (WeightCacheKey × WeightCache) := do
  let victimKey ← c.lruOrder[c.victimIdx]?
  let lruOrder := c.lruOrder.eraseIdx c.victimIdx
  match c.entries.lookup victimKey with
  | none => some (victimKey, { c with lruOrder })
  | some victimEntry =>
    let rest ← subBytes c.currentDramBytes victimEntry.residency.byteSize
    some (victimKey,
      { c with entries := c.entries.erase victimKey, currentDramBytes := rest, lruOrder })

/-- The loop that makes room for `size` bytes, with the keys it evicts in order. A turn shortens
the order, so its length is turns enough. -/
def makeRoom (size : ℕ) : ℕ → WeightCache → Option (List WeightCacheKey × WeightCache)
  | turns, c => do
    let wanted ← addBytes c.currentDramBytes size
    if wanted > c.maxDramBytes ∧ c.lruOrder ≠ [] then
      match turns with
      | 0 => none
      | turns + 1 =>
        let (victimKey, c) ← c.evict
        let (victims, c) ← makeRoom size turns c
        some (victimKey :: victims, c)
    else some ([], c)

def insertEvicting (c : WeightCache) (key : WeightCacheKey) (residency : TensorResidency)
    (sessionId : Option String) : Option (List WeightCacheKey × WeightCache) := do
  let c ← c.removeExisting key
  let (victims, c) ← makeRoom residency.byteSize c.lruOrder.length c
  let currentDramBytes ← addBytes c.currentDramBytes residency.byteSize
  some (victims,
    { c with
      entries := c.entries.insert key ⟨residency, sessionId⟩
      lruOrder := c.lruOrder ++ [key]
      currentDramBytes })

def insert (c : WeightCache) (key : WeightCacheKey) (residency : TensorResidency)
    (sessionId : Option String) : Option WeightCache :=
  (c.insertEvicting key residency sessionId).map Prod.snd

def invalidateReset (c : WeightCache) : WeightCache :=
  { c with entries := ∅, lruOrder := [], currentDramBytes := 0 }

end WeightCache

inductive WeightCall
  | insert (key : WeightCacheKey) (residency : TensorResidency) (sessionId : Option String)
  | get (key : WeightCacheKey)
  | invalidateReset

namespace WeightCache

/-- The cache after a call, where the call does not panic. -/
def apply (c : WeightCache) : WeightCall → Option WeightCache
  | .insert key residency sessionId => c.insert key residency sessionId
  | .get key => (c.get key).map Prod.snd
  | .invalidateReset => some c.invalidateReset

/-! ## What is kept -/

def residentBytes (entries : WeightEntries) : ℕ :=
  (entries.entries.map fun entry => entry.2.residency.byteSize).sum

/-- The first of the order was used least recently, where `uses` has the last use first. -/
def Ordered (uses order : List WeightCacheKey) : Prop :=
  order.Pairwise fun k k' => uses.idxOf k' < uses.idxOf k

/-- The order lists each key of the entries once, the least recently used first, and the count of
bytes is that of the entries. -/
structure Kept (uses : List WeightCacheKey) (c : WeightCache) : Prop where
  once : c.lruOrder.Nodup
  listed : ∀ k, k ∈ c.lruOrder ↔ k ∈ c.entries
  bytes : c.currentDramBytes = residentBytes c.entries
  ordered : Ordered uses c.lruOrder

variable {uses : List WeightCacheKey} {c : WeightCache} {key : WeightCacheKey}

theorem dequeue_eq_erase (order : List WeightCacheKey) : dequeue order key = order.erase key := by
  rw [dequeue, List.erase_eq_eraseIdx]
  cases order.idxOf? key <;> rfl

theorem residentBytes_erase {entries : WeightEntries} {entry : WeightCacheEntry}
    (there : entries.lookup key = some entry) :
    residentBytes entries = entry.residency.byteSize + residentBytes (entries.erase key) := by
  have parts := (Keyed.entries_perm_erase there).map fun entry => entry.2.residency.byteSize
  rw [residentBytes, parts.sum_nat, List.map_cons, List.sum_cons, residentBytes]

theorem residentBytes_insert {entries : WeightEntries} {entry : WeightCacheEntry}
    (absent : key ∉ entries) :
    residentBytes (entries.insert key entry) =
      residentBytes entries + entry.residency.byteSize := by
  rw [residentBytes, AList.entries_insert_of_notMem absent, List.map_cons, List.sum_cons,
    Nat.add_comm, residentBytes]

theorem Ordered.cons {order : List WeightCacheKey} (absent : key ∉ order)
    (ordered : Ordered uses order) : Ordered (key :: uses) order := by
  refine List.Pairwise.imp_of_mem (fun {k k'} member member' before => ?_) ordered
  have other : key ≠ k := fun same => absent (same ▸ member)
  have other' : key ≠ k' := fun same => absent (same ▸ member')
  rw [List.idxOf_cons_ne _ other, List.idxOf_cons_ne _ other']
  omega

theorem Ordered.push {order : List WeightCacheKey} (absent : key ∉ order)
    (ordered : Ordered uses order) : Ordered (key :: uses) (order ++ [key]) := by
  refine List.pairwise_append.mpr ⟨ordered.cons absent, List.pairwise_singleton _ _, ?_⟩
  intro k member k' last
  obtain rfl := List.mem_singleton.mp last
  have other : k' ≠ k := fun same => absent (same ▸ member)
  rw [List.idxOf_cons_self, List.idxOf_cons_ne _ other]
  omega

def without (c : WeightCache) (key : WeightCacheKey) (bytes : ℕ) : WeightCache :=
  { c with
    entries := c.entries.erase key
    lruOrder := c.lruOrder.erase key
    currentDramBytes := c.currentDramBytes - bytes }

theorem Kept.bytes_le (kept : Kept uses c) {entry : WeightCacheEntry}
    (there : c.entries.lookup key = some entry) :
    entry.residency.byteSize ≤ c.currentDramBytes := by
  rw [kept.bytes, residentBytes_erase there]
  omega

theorem Kept.without (kept : Kept uses c) {entry : WeightCacheEntry}
    (there : c.entries.lookup key = some entry) :
    Kept uses (c.without key entry.residency.byteSize) where
  once := kept.once.erase key
  listed k := by
    rw [WeightCache.without, kept.once.mem_erase_iff, AList.mem_erase, kept.listed]
  bytes := by
    rw [WeightCache.without, kept.bytes, residentBytes_erase there]
    simp
  ordered := kept.ordered.sublist List.erase_sublist

/-- The cache with one more entry, whose key is the last of the order. -/
def push (c : WeightCache) (key : WeightCacheKey) (entry : WeightCacheEntry) : WeightCache :=
  { c with
    entries := c.entries.insert key entry
    lruOrder := c.lruOrder ++ [key]
    currentDramBytes := c.currentDramBytes + entry.residency.byteSize }

theorem Kept.push (kept : Kept uses c) (absent : key ∉ c.entries) (entry : WeightCacheEntry) :
    Kept (key :: uses) (c.push key entry) where
  once := by simpa [WeightCache.push] using kept.once.concat (mt (kept.listed key).mp absent)
  listed k := by
    rw [WeightCache.push, AList.mem_insert, ← kept.listed, List.mem_append, List.mem_singleton,
      or_comm]
  bytes := by rw [WeightCache.push, residentBytes_insert absent, kept.bytes]
  ordered := kept.ordered.push (mt (kept.listed key).mp absent)

theorem Kept.touch (kept : Kept uses c) (member : key ∈ c.lruOrder) (hits avoided : ℕ) :
    Kept (key :: uses)
      { c with
        lruOrder := c.lruOrder.erase key ++ [key]
        hits := hits
        uploadAvoidanceBytes := avoided } where
  once := by simpa using (kept.once.erase key).concat kept.once.not_mem_erase
  listed k := by
    rw [← kept.listed, List.mem_append, List.mem_singleton, kept.once.mem_erase_iff]
    constructor
    · rintro (⟨-, there⟩ | rfl)
      · exact there
      · exact member
    · intro there
      by_cases same : k = key
      · exact .inr same
      · exact .inl ⟨same, there⟩
  bytes := kept.bytes
  ordered := Ordered.push kept.once.not_mem_erase (kept.ordered.sublist List.erase_sublist)

theorem Kept.bytes_of_empty (kept : Kept uses c) (empty : c.lruOrder = []) :
    c.currentDramBytes = 0 := by
  have nothing : c.entries.entries = [] := by
    refine List.eq_nil_iff_forall_not_mem.mpr fun entry member => ?_
    have listed := (kept.listed entry.1).mpr (List.mem_keys_of_mem member)
    rw [empty] at listed
    exact List.not_mem_nil listed
  rw [kept.bytes, residentBytes, nothing]
  rfl

theorem removeExisting_spec (key : WeightCacheKey) (kept : Kept uses c) :
    ∃ c', c.removeExisting key = some c' ∧ Kept uses c' ∧ c'.maxDramBytes = c.maxDramBytes ∧
      c'.entries = c.entries.erase key := by
  cases there : c.entries.lookup key with
  | none =>
    have absent : key ∉ c.entries := AList.lookup_eq_none.mp there
    refine ⟨c, by rw [removeExisting, there], kept, rfl, ?_⟩
    exact AList.ext (List.kerase_of_notMem_keys absent).symm
  | some entry =>
    have enough := kept.bytes_le there
    refine ⟨_, ?_, kept.without there, rfl, rfl⟩
    rw [removeExisting, there, WeightCache.without, ← dequeue_eq_erase]
    simp only [subBytes, if_pos enough, Option.bind_eq_bind, Option.bind_some]

/-! ## Evictions -/

/-- `k` is evicted before `k'`: no session pins it and one pins the other, or they are alike and
it was used less recently. -/
def EvictedFirst (c : WeightCache) (uses : List WeightCacheKey) (k k' : WeightCacheKey) : Prop :=
  c.unpinned k = true ∧ c.unpinned k' = false ∨
    c.unpinned k = c.unpinned k' ∧ uses.idxOf k' < uses.idxOf k

theorem evict_spec (kept : Kept uses c) (some_left : c.lruOrder ≠ []) :
    ∃ k entry, c.entries.lookup k = some entry ∧
      c.evict = some (k, c.without k entry.residency.byteSize) ∧
      ∀ k' ∈ c.entries, k' ≠ k → c.EvictedFirst uses k k' := by
  have search : ∃ inside : c.victimIdx < c.lruOrder.length,
      ∀ k' ∈ c.entries, k' ≠ c.lruOrder[c.victimIdx] →
        c.EvictedFirst uses c.lruOrder[c.victimIdx] k' := by
    have later := List.pairwise_iff_getElem.mp kept.ordered
    unfold victimIdx
    cases found : c.lruOrder.findIdx? c.unpinned with
    | none =>
      -- all keys are pinned, and the first of the order was used least recently
      have pinned := List.findIdx?_eq_none_iff.mp found
      refine ⟨List.length_pos_of_ne_nil some_left, fun k' member other => .inr ?_⟩
      obtain ⟨j, inside, rfl⟩ := List.getElem_of_mem ((kept.listed k').mpr member)
      have behind : 0 < j := Nat.pos_of_ne_zero fun first => other (by subst first; rfl)
      have alike := pinned _ (List.getElem_mem (List.length_pos_of_ne_nil some_left))
      exact ⟨alike.trans (pinned _ (List.getElem_mem inside)).symm, later 0 j _ inside behind⟩
    | some i =>
      -- what is ahead of the first unpinned key is pinned, what is behind it was used later
      obtain ⟨here, open_at, before⟩ := List.findIdx?_eq_some_iff_getElem.mp found
      refine ⟨here, fun k' member other => ?_⟩
      obtain ⟨j, inside, rfl⟩ := List.getElem_of_mem ((kept.listed k').mpr member)
      have place : i ≠ j := fun same => other (by subst same; rfl)
      rcases Nat.lt_or_gt_of_ne place with behind | ahead
      · have older := later i j here inside behind
        cases state : c.unpinned c.lruOrder[j] with
        | false => exact .inl ⟨open_at, state⟩
        | true => exact .inr ⟨open_at.trans state.symm, older⟩
      · exact .inl ⟨open_at, by simpa using before j ahead⟩
  obtain ⟨inside, first⟩ := search
  -- the key has an entry, and the count is at least its bytes
  have member := (kept.listed _).mp (List.getElem_mem inside)
  obtain ⟨entry, there⟩ := Option.isSome_iff_exists.mp (AList.lookup_isSome.mpr member)
  have enough := kept.bytes_le there
  refine ⟨_, entry, there, ?_, first⟩
  rw [evict, List.getElem?_eq_getElem inside, Option.bind_eq_bind, Option.bind_some, there,
    WeightCache.without, kept.once.erase_getElem]
  simp only [subBytes, if_pos enough, Option.bind_eq_bind, Option.bind_some]

theorem unpinned_congr {c' : WeightCache} {k : WeightCacheKey}
    (same : c'.entries.lookup k = c.entries.lookup k) : c'.unpinned k = c.unpinned k := by
  rw [unpinned, same, unpinned]

/-- The keys are evicted in turn, each before all that are left. -/
def InTurn (c : WeightCache) (uses : List WeightCacheKey) (victims : List WeightCacheKey) : Prop :=
  ∀ earlier k later, victims = earlier ++ k :: later →
    ∀ k' ∈ c.entries, k' ∉ earlier → k' ≠ k → c.EvictedFirst uses k k'

theorem makeRoom_of_room {size : ℕ} (turns : ℕ) (fits : c.currentDramBytes + size < 2 ^ 64)
    (room : ¬(c.currentDramBytes + size > c.maxDramBytes ∧ c.lruOrder ≠ [])) :
    makeRoom size turns c = some ([], c) := by
  unfold makeRoom
  rw [addBytes, if_pos fits, Option.bind_eq_bind, Option.bind_some, if_neg room]

theorem makeRoom_of_full {size turns : ℕ} (fits : c.currentDramBytes + size < 2 ^ 64)
    (full : c.currentDramBytes + size > c.maxDramBytes ∧ c.lruOrder ≠ []) :
    makeRoom size (turns + 1) c = c.evict.bind fun turn =>
      (makeRoom size turns turn.2).map fun rest => (turn.1 :: rest.1, rest.2) := by
  rw [makeRoom, addBytes, if_pos fits, Option.bind_eq_bind, Option.bind_some, if_pos full]
  congr 1
  funext ⟨victimKey, next⟩
  change (makeRoom size turns next).bind _ = _
  cases makeRoom size turns next <;> rfl

theorem InTurn.cons {c' : WeightCache} {k : WeightCacheKey} {victims : List WeightCacheKey}
    (first : ∀ k' ∈ c.entries, k' ≠ k → c.EvictedFirst uses k k')
    (same : ∀ k', k' ≠ k → c'.entries.lookup k' = c.entries.lookup k')
    (others : ∀ k' ∈ victims, k' ≠ k) (rest : c'.InTurn uses victims) :
    c.InTurn uses (k :: victims) := by
  intro earlier j later parts k' member notEarlier other
  cases earlier with
  | nil =>
    obtain ⟨rfl, -⟩ := List.cons.inj parts
    exact first k' member other
  | cons l earlier =>
    obtain ⟨rfl, parts'⟩ := List.cons.inj parts
    obtain ⟨apart, later_on⟩ := not_or.mp (mt List.mem_cons.mpr notEarlier)
    have there : k' ∈ c'.entries := by
      rw [← AList.lookup_isSome, same k' apart]
      exact AList.lookup_isSome.mpr member
    have before := rest earlier j later parts' k' there later_on other
    have inside : j ∈ victims := by simp [parts']
    rwa [EvictedFirst, unpinned_congr (same k' apart),
      unpinned_congr (same j (others j inside))] at before

/-- The loop evicts in turn what it must, and nothing else changes. -/
theorem makeRoom_spec (size : ℕ) {turns : ℕ} (kept : Kept uses c)
    (enough : c.lruOrder.length ≤ turns) (fits : c.currentDramBytes + size < 2 ^ 64) :
    ∃ victims c', makeRoom size turns c = some (victims, c') ∧ Kept uses c' ∧
      c'.maxDramBytes = c.maxDramBytes ∧ c'.currentDramBytes ≤ c.currentDramBytes ∧
      (c'.currentDramBytes + size ≤ c.maxDramBytes ∨ c'.lruOrder = []) ∧
      (∀ k ∈ victims, k ∈ c.entries) ∧
      (∀ k, c'.entries.lookup k = if k ∈ victims then none else c.entries.lookup k) ∧
      c.InTurn uses victims := by
  induction turns generalizing c with
  | zero =>
    have empty : c.lruOrder = [] := List.length_eq_zero_iff.mp (by omega)
    refine ⟨[], c, makeRoom_of_room 0 fits fun full => full.2 empty, kept, rfl, le_rfl,
      .inr empty, by simp, by simp, by simp [InTurn]⟩
  | succ turns ih =>
    by_cases full : c.currentDramBytes + size > c.maxDramBytes ∧ c.lruOrder ≠ []
    · -- one key goes, and the rest of the loop runs on what is left
      obtain ⟨k, entry, there, evicted, first⟩ := evict_spec kept full.2
      have member : k ∈ c.lruOrder :=
        (kept.listed k).mpr (AList.lookup_isSome.mp (by rw [there]; rfl))
      have shorter : (c.without k entry.residency.byteSize).lruOrder.length ≤ turns := by
        rw [without, List.length_erase_of_mem member]
        omega
      have less : (c.without k entry.residency.byteSize).currentDramBytes ≤ c.currentDramBytes :=
        Nat.sub_le _ _
      obtain ⟨victims, c', made, kept', budget, bytes, room, resident, looked, turn⟩ :=
        ih (kept.without there) shorter (by omega)
      have same : ∀ k', k' ≠ k → (c.without k entry.residency.byteSize).entries.lookup k' =
          c.entries.lookup k' := fun k' other => AList.lookup_erase_ne other
      have others : ∀ k' ∈ victims, k' ≠ k := fun k' member =>
        (AList.mem_erase.mp (resident k' member)).1
      refine ⟨k :: victims, c', ?_, kept', budget, Nat.le_trans bytes less, room, ?_, ?_,
        InTurn.cons first same others turn⟩
      · rw [makeRoom_of_full fits full, evicted, Option.bind_some, made]
        rfl
      · intro k' inside
        rcases List.mem_cons.mp inside with rfl | later
        · exact (kept.listed k').mp member
        · exact (AList.mem_erase.mp (resident k' later)).2
      · intro k'
        rw [looked]
        by_cases here : k' = k
        · subst here
          rw [if_pos List.mem_cons_self, without, AList.lookup_erase]
          simp
        · simp [same k' here, here]
    · refine ⟨[], c, makeRoom_of_room _ fits full, kept, rfl, le_rfl, ?_, by simp, by simp,
        by simp [InTurn]⟩
      by_cases empty : c.lruOrder = []
      · exact .inr empty
      · exact .inl (Nat.not_lt.mp fun above => full ⟨above, empty⟩)

/-! ## Calls -/

/-- The sums of sizes that a call forms are numbers of 64 bits. -/
def Fits (c : WeightCache) : WeightCall → Prop
  | .insert key residency _ => residentBytes (c.entries.erase key) + residency.byteSize < 2 ^ 64
  | .get key => ∀ entry ∈ c.entries.lookup key,
      c.uploadAvoidanceBytes + entry.residency.byteSize < 2 ^ 64
  | .invalidateReset => True

instance (c : WeightCache) : (call : WeightCall) → Decidable (c.Fits call)
  | .insert _ _ _ => inferInstanceAs (Decidable (_ < _))
  | .get key => inferInstanceAs (Decidable (∀ entry ∈ c.entries.lookup key, _ < _))
  | .invalidateReset => .isTrue trivial

def usedKey : WeightCall → Option WeightCacheKey
  | .insert key _ _ | .get key => some key
  | .invalidateReset => none

/-- The keys that the calls use, the last first. -/
def usesOf (calls : List WeightCall) : List WeightCacheKey := calls.reverse.filterMap usedKey

/-- What an insertion does beyond what every call keeps: it evicts in turn, among the keys other
than its own, it leaves all other entries as they are, and it keeps the budget where its own
record fits. -/
structure InsertLaw (uses : List WeightCacheKey) (c : WeightCache) (key : WeightCacheKey)
    (residency : TensorResidency) (sessionId : Option String) (victims : List WeightCacheKey)
    (c' : WeightCache) : Prop where
  resident : ∀ k ∈ victims, k ≠ key ∧ k ∈ c.entries
  inTurn : ∀ earlier k later, victims = earlier ++ k :: later →
    ∀ k' ∈ c.entries, k' ≠ key → k' ∉ earlier → k' ≠ k → c.EvictedFirst uses k k'
  here : c'.entries.lookup key = some ⟨residency, sessionId⟩
  others : ∀ k, k ≠ key →
    c'.entries.lookup k = if k ∈ victims then none else c.entries.lookup k
  budget : residency.byteSize ≤ c.maxDramBytes → c'.currentDramBytes ≤ c.maxDramBytes

/-- What a call does beyond what every call keeps. A lookup returns the record of the key, and it
leaves the entries as they are. -/
def CallLaw (uses : List WeightCacheKey) (c : WeightCache) : WeightCall → WeightCache → Prop
  | .insert key residency sessionId, c' =>
    ∃ victims, c.insertEvicting key residency sessionId = some (victims, c') ∧
      InsertLaw uses c key residency sessionId victims c'
  | .get key, c' =>
    c.get key = some ((c.entries.lookup key).map WeightCacheEntry.residency, c') ∧
      c'.entries = c.entries
  | .invalidateReset, c' => c'.entries = ∅

theorem insertEvicting_spec {residency : TensorResidency} {sessionId : Option String}
    (kept : Kept uses c) (fits : c.Fits (.insert key residency sessionId)) :
    ∃ victims c', c.insertEvicting key residency sessionId = some (victims, c') ∧
      Kept (key :: uses) c' ∧ c'.maxDramBytes = c.maxDramBytes ∧
      InsertLaw uses c key residency sessionId victims c' := by
  obtain ⟨c₁, removed, kept₁, budget₁, entries₁⟩ := removeExisting_spec key kept
  have fits₁ : c₁.currentDramBytes + residency.byteSize < 2 ^ 64 := by
    rw [kept₁.bytes, entries₁]
    exact fits
  obtain ⟨victims, c₂, made, kept₂, budget₂, bytes₂, room, resident, looked, turn⟩ :=
    makeRoom_spec residency.byteSize kept₁ le_rfl fits₁
  have gone : c₁.entries.lookup key = none := by rw [entries₁, AList.lookup_erase]
  have same : ∀ k, k ≠ key → c₁.entries.lookup k = c.entries.lookup k := by
    intro k other
    rw [entries₁, AList.lookup_erase_ne other]
  have absent : key ∉ c₂.entries := by
    rw [← AList.lookup_eq_none, looked, gone, ite_self]
  have fits₂ : c₂.currentDramBytes + residency.byteSize < 2 ^ 64 := by omega
  have inside : ∀ k ∈ victims, k ≠ key ∧ k ∈ c.entries := fun k member =>
    AList.mem_erase.mp (entries₁ ▸ resident k member)
  refine ⟨victims, c₂.push key ⟨residency, sessionId⟩, ?_, kept₂.push absent _,
    budget₂.trans budget₁, ?_⟩
  · rw [insertEvicting, removed, Option.bind_eq_bind, Option.bind_some, made]
    simp only [addBytes, if_pos fits₂, Option.bind_eq_bind, Option.bind_some, push]
  · constructor
    · exact inside
    · -- the key that is inserted was taken out before, so that it is not among the others
      intro earlier k later parts k' member own notEarlier other
      have there : k' ∈ c₁.entries := by
        rw [entries₁]
        exact AList.mem_erase.mpr ⟨own, member⟩
      have before := turn earlier k later parts k' there notEarlier other
      rwa [EvictedFirst, unpinned_congr (same k' own),
        unpinned_congr (same k (inside k (by simp [parts])).1)] at before
    · exact AList.lookup_insert _
    · intro k other
      rw [push, AList.lookup_insert_ne other, looked, same k other]
    · intro small
      rcases room with room | empty
      · exact budget₁ ▸ room
      · rw [push, kept₂.bytes_of_empty empty, Nat.zero_add]
        exact small

theorem get_spec (kept : Kept uses c) (fits : c.Fits (.get key)) :
    ∃ c', c.get key = some ((c.entries.lookup key).map WeightCacheEntry.residency, c') ∧
      Kept (key :: uses) c' ∧ c'.maxDramBytes = c.maxDramBytes ∧ c'.entries = c.entries := by
  by_cases member : key ∈ c.lruOrder
  · obtain ⟨entry, there⟩ :=
      Option.isSome_iff_exists.mp (AList.lookup_isSome.mpr ((kept.listed key).mp member))
    obtain ⟨pos, found⟩ : ∃ pos, c.lruOrder.idxOf? key = some pos := by
      rw [← Option.isSome_iff_exists, List.isSome_idxOf?]
      exact member
    obtain ⟨inside, here, -⟩ := List.idxOf?_eq_some_iff.mp found
    have small := fits entry there
    have rest : c.lruOrder.eraseIdx pos = c.lruOrder.erase key := by
      rw [← here, kept.once.erase_getElem]
    refine ⟨_, ?_, kept.touch member (c.hits + 1)
      (c.uploadAvoidanceBytes + entry.residency.byteSize), rfl, rfl⟩
    unfold get
    rw [found]
    simp only [List.getElem?_eq_getElem inside, here, there, addBytes, if_pos small, rest,
      Option.bind_eq_bind, Option.bind_some, Option.map_some]
  · have absent : c.entries.lookup key = none :=
      AList.lookup_eq_none.mpr (mt (kept.listed key).mpr member)
    refine ⟨{ c with misses := c.misses + 1 }, ?_, ?_, rfl, rfl⟩
    · unfold get
      rw [List.idxOf?_eq_none_iff.mpr member, absent]
      rfl
    · exact ⟨kept.once, kept.listed, kept.bytes, kept.ordered.cons member⟩

theorem kept_new (maxDramBytes : ℕ) : Kept [] (new maxDramBytes) where
  once := List.nodup_nil
  listed k := by simp [new]
  bytes := rfl
  ordered := List.Pairwise.nil

theorem apply_spec (call : WeightCall) (kept : Kept uses c) (fits : c.Fits call) :
    ∃ c', c.apply call = some c' ∧ Kept ((usedKey call).toList ++ uses) c' ∧
      c'.maxDramBytes = c.maxDramBytes ∧ CallLaw uses c call c' := by
  cases call with
  | insert key residency sessionId =>
    obtain ⟨victims, c', inserted, kept', budget, law⟩ := insertEvicting_spec kept fits
    refine ⟨c', ?_, kept', budget, victims, inserted, law⟩
    rw [apply, insert, inserted, Option.map_some]
  | get key =>
    obtain ⟨c', found, kept', budget, same⟩ := get_spec kept fits
    refine ⟨c', ?_, kept', budget, found, same⟩
    rw [apply, found, Option.map_some]
  | invalidateReset =>
    refine ⟨c.invalidateReset, rfl, ⟨List.nodup_nil, ?_, rfl, List.Pairwise.nil⟩, rfl, rfl⟩
    intro k
    simp [invalidateReset]

theorem usesOf_concat (call : WeightCall) (calls : List WeightCall) :
    usesOf (calls ++ [call]) = (usedKey call).toList ++ usesOf calls := by
  rw [usesOf, List.reverse_concat, List.filterMap_cons, usesOf]
  cases usedKey call <;> rfl

theorem usesOf_cons (call : WeightCall) (calls : List WeightCall) :
    usesOf (call :: calls) = usesOf calls ++ (usedKey call).toList := by
  rw [usesOf, List.reverse_cons, List.filterMap_append, usesOf]
  cases called : usedKey call <;> simp [called]

/-- Calls whose sums fit do not panic, and they keep what each call keeps. -/
theorem kept_run {calls : List WeightCall} (kept : Kept uses c)
    (fits : Runs.Guarded apply Fits c calls) :
    ∃ c', Runs.exec apply c calls = some c' ∧ Kept (usesOf calls ++ uses) c' ∧
      c'.maxDramBytes = c.maxDramBytes := by
  induction calls generalizing c uses with
  | nil => exact ⟨c, rfl, kept, rfl⟩
  | cons call calls ih =>
    obtain ⟨c₁, applied, kept₁, budget₁, -⟩ := apply_spec call kept fits.1
    obtain ⟨c', run, kept', budget'⟩ := ih kept₁ (fits.2 c₁ applied)
    refine ⟨c', (Runs.exec_cons_iff _ _ _ _ _).mpr ⟨c₁, applied, run⟩, ?_,
      budget'.trans budget₁⟩
    rw [usesOf_cons, List.append_assoc]
    exact kept'

/-- After any calls whose sums fit, one more such call does not panic. The queue lists each key
of the map once, the least recently used first, the count of bytes is that of the entries, and an
insertion evicts in turn and keeps the budget where its record fits. -/
theorem cache_law (maxDramBytes : ℕ) (past : List WeightCall) (call : WeightCall)
    (fits : Runs.Guarded apply Fits (new maxDramBytes) (past ++ [call])) :
    ∃ c c', Runs.exec apply (new maxDramBytes) past = some c ∧ c.apply call = some c' ∧
      c.maxDramBytes = maxDramBytes ∧ c'.maxDramBytes = maxDramBytes ∧
      Kept (usesOf past) c ∧ Kept (usesOf (past ++ [call])) c' ∧
      CallLaw (usesOf past) c call c' := by
  obtain ⟨first, last⟩ := (Runs.guarded_append_iff apply).mp fits
  obtain ⟨c, run, kept, budget⟩ := kept_run (kept_new maxDramBytes) first
  rw [List.append_nil] at kept
  obtain ⟨c', applied, kept', budget', law⟩ := apply_spec call kept (last c run).1
  rw [usesOf_concat]
  exact ⟨c, c', run, applied, budget, budget'.trans budget, kept, kept', law⟩

/-- A third record of four bytes does not fit ten: the one no session pins makes room for it. -/
theorem third_record_law :
    let key := fun name => WeightCacheKey.mk name "matmul" "m1" 1 "f16"
    let record := fun name => TensorResidency.mk name 4
    let past := [.insert (key "wq") (record "wq") (some "chat"),
      .insert (key "wk") (record "wk") none]
    let call := .insert (key "wv") (record "wv") none
    ∃ c c', Runs.exec apply (new 10) past = some c ∧ c.apply call = some c' ∧
      c.maxDramBytes = 10 ∧ c'.maxDramBytes = 10 ∧ Kept (usesOf past) c ∧
      Kept (usesOf (past ++ [call])) c' ∧ CallLaw (usesOf past) c call c' := by
  intro key record past call
  exact cache_law 10 past call (by decide)

end WeightCache

end TribunusCompute.Cache
