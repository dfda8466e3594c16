import Mathlib.Algebra.GroupWithZero.Nat
import Mathlib.Data.List.Perm.Basic
import TribunusCompute.Library.Keyed
import TribunusCompute.Library.Runs

/-!
# The arena pool, one lock at a time

`ArenaPool` keeps the released arenas behind one lock and the count of their bytes behind another.
`acquire` drops the first lock before it allocates, and only then takes the second; `release` of
an arena that its key has no room for takes the second lock while it holds the first. An arena is
known by the allocation that made it, and a caller releases what it was given.
-/
namespace TribunusCompute.Memory

inductive LifecycleState
  | free
  | mlxWriteLeased
  | mlxWritePending
  | coreMlWriteLeased
  | coreMlWritePending
  | produced
  | mlxReadLeased
  | coreMlReadLeased
  | retiring
  | released
  deriving DecidableEq, Repr

structure PoolKey where
  profile : String
  dim0 : UInt32
  dim1 : UInt32
  deriving DecidableEq

/-- An arena, by its allocation, and its `byte_len`. -/
structure PooledArena where
  allocation : ℕ
  byteLen : ℕ
  deriving DecidableEq, Repr

structure PoolEntry where
  arena : PooledArena
  generation : ℕ
  state : LifecycleState
  deriving DecidableEq, Repr

abbrev PoolEntries := AList fun _ : PoolKey => List PoolEntry

structure ArenaPool where
  entries : PoolEntries
  maxTotalBytes : ℕ
  currentBytes : ℕ
  maxArenasPerKey : ℕ

def ArenaPool.new (maxTotalBytes maxArenasPerKey : ℕ) : ArenaPool :=
  ⟨∅, maxTotalBytes, 0, maxArenasPerKey⟩

/-- The first free arena of a key, with the entries that stay. Its new generation goes with the
entry. -/
def takeFree (vec : List PoolEntry) : Option (PooledArena × List PoolEntry) := do
  let idx ← vec.findIdx? fun e => e.state = .free
  let entry ← vec[idx]?
  return (entry.arena, vec.eraseIdx idx)

/-- Where a thread is in a call. -/
inductive PoolPlace
  | idle
  /-- `acquire` has found no free entry. -/
  | allocating (key : PoolKey)
  /-- `acquire` has an arena that is not counted yet. -/
  | allocated (key : PoolKey) (arena : PooledArena)
  /-- `release` has dropped an arena and holds the lock of the entries. -/
  | dropping (arena : PooledArena)
  deriving DecidableEq

inductive PoolReply
  | acquired (result : Except String (PooledArena × Bool))
  | released

structure PoolRun (Thread : Type*) where
  pool : ArenaPool
  /-- The thread that holds the lock of the entries over more than one move. -/
  entriesLock : Option Thread
  threads : Thread → PoolPlace
  /-- The arenas that callers have, with the keys they were acquired with. -/
  outstanding : List (PoolKey × PooledArena)
  allocations : ℕ
  replies : List (Thread × PoolReply)

inductive PoolMove
  | acquire (profile : String) (dim0 dim1 : UInt32)
  | release (key : PoolKey) (arena : PooledArena)
  /-- `Arena::new` returns, with the size of the arena. -/
  | allocate (result : Except String ℕ)
  | proceed

namespace PoolRun

variable {Thread : Type*}

def new (maxTotalBytes maxArenasPerKey : ℕ) : PoolRun Thread :=
  ⟨.new maxTotalBytes maxArenasPerKey, none, fun _ => .idle, [], 0, []⟩

variable [DecidableEq Thread] (s : PoolRun Thread)

def goto (thread : Thread) (place : PoolPlace) : PoolRun Thread :=
  { s with threads := Function.update s.threads thread place }

def reply (thread : Thread) (reply : PoolReply) : PoolRun Thread :=
  { s with
    threads := Function.update s.threads thread .idle
    replies := s.replies ++ [(thread, reply)] }

/-- The search of `acquire`, under the lock of the entries. -/
def findFree (thread : Thread) (key : PoolKey) : PoolRun Thread :=
  match (s.pool.entries.lookup key).bind takeFree with
  | some (arena, vec) =>
    { s with
      pool := { s.pool with entries := s.pool.entries.insert key vec }
      outstanding := (key, arena) :: s.outstanding }.reply thread (.acquired (.ok (arena, true)))
  | none => s.goto thread (.allocating key)

/-- The check of the budget, under the lock of the bytes. The sum panics past `usize`. -/
def countArena (thread : Thread) (key : PoolKey) (arena : PooledArena) : Option (PoolRun Thread) :=
  if s.pool.currentBytes + arena.byteLen < 2 ^ 64 then
    if s.pool.currentBytes + arena.byteLen > s.pool.maxTotalBytes then
      some (s.reply thread (.acquired (.error ("arena pool budget exceeded: " ++
        toString s.pool.currentBytes ++ " + " ++ toString arena.byteLen ++ " > " ++
        toString s.pool.maxTotalBytes))))
    else
      some ({ s with
        pool := { s.pool with currentBytes := s.pool.currentBytes + arena.byteLen }
        outstanding := (key, arena) :: s.outstanding }.reply thread
          (.acquired (.ok (arena, false))))
  else none

/-- The caching of `release`, under the lock of the entries, which it keeps where it drops. -/
def cacheArena (thread : Thread) (key : PoolKey) (arena : PooledArena) : PoolRun Thread :=
  let vec : List PoolEntry := (s.pool.entries.lookup key).getD []
  let outstanding := s.outstanding.erase (key, arena)
  if vec.length ≥ s.pool.maxArenasPerKey then
    { s with
      pool := { s.pool with entries := s.pool.entries.insert key vec }
      entriesLock := some thread
      outstanding }.goto thread (.dropping arena)
  else
    let entry : PoolEntry := ⟨arena, 0, .free⟩
    { s with
      pool := { s.pool with entries := s.pool.entries.insert key (vec ++ [entry]) }
      outstanding }.reply thread .released

def step : Thread × PoolMove → Option (PoolRun Thread)
  | (thread, move) =>
    match s.threads thread, move with
    | .idle, .acquire profile dim0 dim1 =>
      if profile ≠ "IOSurfaceFp16ContiguousV1" then
        some (s.reply thread (.acquired (.error ("unsupported pool profile: " ++ profile))))
      else if s.entriesLock = none then some (s.findFree thread ⟨profile, dim0, dim1⟩)
      else none
    | .allocating _, .allocate (.error e) => some (s.reply thread (.acquired (.error e)))
    | .allocating key, .allocate (.ok byteLen) =>
      some ({ s with allocations := s.allocations + 1 }.goto thread
        (.allocated key ⟨s.allocations, byteLen⟩))
    | .allocated key arena, .proceed => s.countArena thread key arena
    | .idle, .release key arena =>
      if (key, arena) ∈ s.outstanding ∧ s.entriesLock = none then
        some (s.cacheArena thread key arena)
      else none
    | .dropping arena, .proceed =>
      some ({ s with
        pool := { s.pool with currentBytes := s.pool.currentBytes - arena.byteLen }
        entriesLock := none }.reply thread .released)
    | _, _ => none

end PoolRun

/-! ## What the pool promises -/

def cachedArenas (entries : PoolEntries) : List PooledArena :=
  entries.entries.flatMap fun cached => cached.2.map PoolEntry.arena

namespace PoolRun

variable {Thread : Type*}

def held (s : PoolRun Thread) : List PooledArena := s.outstanding.map Prod.snd

def live (s : PoolRun Thread) : List PooledArena := cachedArenas s.pool.entries ++ s.held

def bytes (arenas : List PooledArena) : ℕ := (arenas.map PooledArena.byteLen).sum

structure Lawful (s : PoolRun Thread) : Prop where
  accounted : (∀ thread, s.threads thread = .idle) →
    s.pool.currentBytes = bytes (cachedArenas s.pool.entries) + bytes s.held
  bounded : s.pool.currentBytes ≤ s.pool.maxTotalBytes
  capped : ∀ key vec, s.pool.entries.lookup key = some vec →
    vec.length ≤ s.pool.maxArenasPerKey
  owned_once : (s.live.map PooledArena.allocation).Nodup

/-! ## The arenas of the cache -/

theorem takeFree_perm {vec rest : List PoolEntry} {arena : PooledArena}
    (taken : takeFree vec = some (arena, rest)) :
    (vec.map PoolEntry.arena).Perm (arena :: rest.map PoolEntry.arena) := by
  simp only [takeFree, Option.bind_eq_bind, Option.bind_eq_some_iff] at taken
  obtain ⟨idx, -, entry, at_, same⟩ := taken
  obtain ⟨inside, found⟩ := List.getElem?_eq_some_iff.mp at_
  cases same
  have taken_out := (List.getElem_cons_eraseIdx_perm inside).symm
  rw [found] at taken_out
  exact taken_out.map PoolEntry.arena

theorem takeFree_length {vec rest : List PoolEntry} {arena : PooledArena}
    (taken : takeFree vec = some (arena, rest)) : rest.length ≤ vec.length := by
  have same := (takeFree_perm taken).length_eq
  simp only [List.length_map, List.length_cons] at same
  omega

theorem cachedArenas_insert (entries : PoolEntries) (key : PoolKey) (vec : List PoolEntry) :
    cachedArenas (entries.insert key vec) =
      vec.map PoolEntry.arena ++ cachedArenas (entries.erase key) := by
  have others : (entries.erase key).entries = entries.entries.kerase key := rfl
  simp [cachedArenas, AList.entries_insert, others]

theorem cachedArenas_perm (entries : PoolEntries) (key : PoolKey) :
    (cachedArenas entries).Perm (((entries.lookup key).getD []).map PoolEntry.arena ++
      cachedArenas (entries.erase key)) := by
  by_cases known : key ∈ entries
  case pos =>
    obtain ⟨vec, older, later, -, parted, erased⟩ := List.exists_of_kerase known
    have found : entries.lookup key = some vec := by
      apply AList.mem_lookup_iff.mpr
      simp [parted]
    have rest : (entries.erase key).entries = older ++ later := erased
    simp only [cachedArenas, rest, parted, found, Option.getD_some, List.flatMap_append,
      List.flatMap_cons]
    exact List.perm_append_comm_assoc _ _ _
  case neg =>
    have absent := AList.lookup_eq_none.mpr known
    have same : (entries.erase key).entries = entries.entries := List.kerase_of_notMem_keys known
    simp [cachedArenas, absent, same]

theorem capped_insert {entries : PoolEntries} {limit : ℕ} {vec : List PoolEntry}
    (capped : ∀ key vec, entries.lookup key = some vec → vec.length ≤ limit) (key : PoolKey)
    (room : vec.length ≤ limit) : ∀ key' vec', (entries.insert key vec).lookup key' = some vec' →
      vec'.length ≤ limit := by
  intro key' vec' found
  rcases Keyed.lookup_insert_eq_some_iff.mp found with ⟨-, rfl⟩ | ⟨-, found⟩
  · exact room
  · exact capped key' vec' found

/-! ## The invariant -/

/-- The count is that of the arenas in the cache and with callers, and of the one being dropped.
An allocated arena is with its thread alone. -/
structure Accounted (s : PoolRun Thread) : Prop where
  unlocked : s.entriesLock = none → s.pool.currentBytes = bytes s.live ∧
    ∀ thread arena, s.threads thread ≠ .dropping arena
  locked : ∀ thread, s.entriesLock = some thread → ∃ arena, s.threads thread = .dropping arena ∧
    s.pool.currentBytes = bytes s.live + arena.byteLen ∧
    ∀ other arena', s.threads other = .dropping arena' → other = thread
  bounded : s.pool.currentBytes ≤ s.pool.maxTotalBytes
  capped : ∀ key vec, s.pool.entries.lookup key = some vec →
    vec.length ≤ s.pool.maxArenasPerKey
  once : (s.live.map PooledArena.allocation).Nodup
  known : ∀ n ∈ s.live.map PooledArena.allocation, n < s.allocations
  pending : ∀ thread key arena, s.threads thread = .allocated key arena →
    arena.allocation < s.allocations ∧ arena.allocation ∉ s.live.map PooledArena.allocation
  apart : ∀ thread other key key' arena arena', s.threads thread = .allocated key arena →
    s.threads other = .allocated key' arena' → arena.allocation = arena'.allocation →
    thread = other

theorem bytes_append (arenas arenas' : List PooledArena) :
    bytes (arenas ++ arenas') = bytes arenas + bytes arenas' := by
  simp [bytes]

theorem bytes_cons (arena : PooledArena) (arenas : List PooledArena) :
    bytes (arena :: arenas) = arena.byteLen + bytes arenas := by
  simp [bytes]

theorem bytes_perm {arenas arenas' : List PooledArena} (same : arenas.Perm arenas') :
    bytes arenas = bytes arenas' :=
  (same.map PooledArena.byteLen).sum_nat

theorem accounted_new (maxTotalBytes maxArenasPerKey : ℕ) :
    Accounted (new maxTotalBytes maxArenasPerKey : PoolRun Thread) where
  unlocked _ := ⟨rfl, fun _ _ there => by cases there⟩
  locked _ there := by cases there
  bounded := Nat.zero_le _
  capped _ _ found := by cases found
  once := List.nodup_nil
  known _ member := by cases member
  pending _ _ _ there := by cases there
  apart _ _ _ _ _ _ there := by cases there

theorem Accounted.lawful {s : PoolRun Thread} (accounted : Accounted s) : Lawful s where
  accounted idle := by
    -- The holder of the lock would be dropping an arena.
    have unlocked : s.entriesLock = none := by
      rw [Option.eq_none_iff_forall_not_mem]
      intro thread taken
      obtain ⟨arena, there, -⟩ := accounted.locked thread taken
      rw [idle thread] at there
      cases there
    rw [(accounted.unlocked unlocked).1, live, bytes_append]
  bounded := accounted.bounded
  capped := accounted.capped
  owned_once := accounted.once

section Steps

variable {s : PoolRun Thread} {thread : Thread} {key : PoolKey} {arena : PooledArena}

theorem Accounted.exchange (accounted : Accounted s) (entries : PoolEntries)
    (outstanding : List (PoolKey × PooledArena))
    (capped : ∀ key vec, entries.lookup key = some vec → vec.length ≤ s.pool.maxArenasPerKey)
    (same : (cachedArenas entries ++ outstanding.map Prod.snd).Perm s.live) :
    Accounted { s with pool := { s.pool with entries }, outstanding } := by
  have counted := bytes_perm same
  have allocations := same.map PooledArena.allocation
  exact {
    unlocked := fun free => ⟨(accounted.unlocked free).1.trans counted.symm,
      (accounted.unlocked free).2⟩
    locked := fun thread taken => by
      obtain ⟨arena, there, count, only⟩ := accounted.locked thread taken
      exact ⟨arena, there, by rw [count, ← counted]; rfl, only⟩
    bounded := accounted.bounded
    capped
    once := allocations.nodup_iff.mpr accounted.once
    known := fun n member => accounted.known n (allocations.mem_iff.mp member)
    pending := fun thread key arena there =>
      ⟨(accounted.pending thread key arena there).1, fun member =>
        (accounted.pending thread key arena there).2 (allocations.mem_iff.mp member)⟩
    apart := accounted.apart }

variable [DecidableEq Thread]

theorem of_update {threads : Thread → PoolPlace} {place target : PoolPlace} {other : Thread}
    (ne : place ≠ target) (there : Function.update threads thread place other = target) :
    other ≠ thread ∧ threads other = target := by
  by_cases same : other = thread
  case pos =>
    subst same
    rw [Function.update_self] at there
    exact (ne there).elim
  case neg => exact ⟨same, (Function.update_of_ne same _ _).symm.trans there⟩

theorem Accounted.reply {reply : PoolReply} (accounted : Accounted (s.goto thread .idle)) :
    Accounted (s.reply thread reply) where
  unlocked := accounted.unlocked
  locked := accounted.locked
  bounded := accounted.bounded
  capped := accounted.capped
  once := accounted.once
  known := accounted.known
  pending := accounted.pending
  apart := accounted.apart

theorem Accounted.goto (accounted : Accounted s) {place : PoolPlace}
    (before : ∀ arena, s.threads thread ≠ .dropping arena)
    (allocates : ∀ key arena, place ≠ .allocated key arena)
    (drops : ∀ arena, place ≠ .dropping arena) : Accounted (s.goto thread place) where
  unlocked free := by
    refine ⟨(accounted.unlocked free).1, fun other arena there => ?_⟩
    exact (accounted.unlocked free).2 other arena (of_update (drops arena) there).2
  locked holder taken := by
    obtain ⟨arena, there, count, only⟩ := accounted.locked holder taken
    have other : holder ≠ thread := fun same => before arena (same ▸ there)
    refine ⟨arena, (Function.update_of_ne other _ _).trans there, count, fun third arena' at_ => ?_⟩
    exact only third arena' (of_update (drops arena') at_).2
  bounded := accounted.bounded
  capped := accounted.capped
  once := accounted.once
  known := accounted.known
  pending other key arena there :=
    accounted.pending other key arena (of_update (allocates key arena) there).2
  apart other third key key' arena arena' there there' :=
    accounted.apart other third key key' arena arena' (of_update (allocates key arena) there).2
      (of_update (allocates key' arena') there').2

theorem Accounted.allocate (accounted : Accounted s)
    (before : ∀ arena, s.threads thread ≠ .dropping arena) {byteLen : ℕ} :
    Accounted ({ s with allocations := s.allocations + 1 }.goto thread
      (.allocated key ⟨s.allocations, byteLen⟩)) where
  unlocked free := by
    refine ⟨(accounted.unlocked free).1, fun other arena there => ?_⟩
    have stays := (of_update (by simp) there).2
    exact (accounted.unlocked free).2 other arena stays
  locked holder taken := by
    obtain ⟨arena, there, count, only⟩ := accounted.locked holder taken
    have other : holder ≠ thread := fun same => before arena (same ▸ there)
    refine ⟨arena, (Function.update_of_ne other _ _).trans there, count, fun third arena' at_ => ?_⟩
    have stays := (of_update (by simp) at_).2
    exact only third arena' stays
  bounded := accounted.bounded
  capped := accounted.capped
  once := accounted.once
  known n member := Nat.lt_succ_of_lt (accounted.known n member)
  pending other key' arena' there := by
    by_cases same : other = thread
    case pos =>
      subst same
      cases (Function.update_self other _ s.threads).symm.trans there
      -- All numbers in use are below that of the new arena.
      exact ⟨Nat.lt_succ_self _, fun member => lt_irrefl _ (accounted.known _ member)⟩
    case neg =>
      have at_ := (Function.update_of_ne same _ _).symm.trans there
      obtain ⟨below, absent⟩ := accounted.pending other key' arena' at_
      exact ⟨Nat.lt_succ_of_lt below, absent⟩
  apart other third key₁ key₂ arena₁ arena₂ there there' equal := by
    by_cases same : other = thread
    case pos =>
      subst same
      by_cases same' : third = other
      case pos => exact same'.symm
      case neg =>
        have at_ := (Function.update_of_ne same' _ _).symm.trans there'
        have below := (accounted.pending third key₂ arena₂ at_).1
        cases (Function.update_self other _ s.threads).symm.trans there
        exact absurd (equal ▸ below) (lt_irrefl _)
    case neg =>
      have at_ := (Function.update_of_ne same _ _).symm.trans there
      by_cases same' : third = thread
      case pos =>
        subst same'
        have below := (accounted.pending other key₁ arena₁ at_).1
        cases (Function.update_self third _ s.threads).symm.trans there'
        exact absurd (equal ▸ below) (lt_irrefl _)
      case neg =>
        have at_' := (Function.update_of_ne same' _ _).symm.trans there'
        exact accounted.apart other third key₁ key₂ arena₁ arena₂ at_ at_' equal

theorem Accounted.count (accounted : Accounted s)
    (at_ : s.threads thread = .allocated key arena)
    (fits : s.pool.currentBytes + arena.byteLen ≤ s.pool.maxTotalBytes) :
    Accounted ({ s with
      pool := { s.pool with currentBytes := s.pool.currentBytes + arena.byteLen }
      outstanding := (key, arena) :: s.outstanding }.goto thread .idle) := by
  have grown : (cachedArenas s.pool.entries ++ (arena :: s.held)).Perm (arena :: s.live) :=
    List.perm_middle
  have counted : bytes (cachedArenas s.pool.entries ++ (arena :: s.held)) =
      arena.byteLen + bytes s.live := (bytes_perm grown).trans (bytes_cons arena s.live)
  have allocations := grown.map PooledArena.allocation
  obtain ⟨below, absent⟩ := accounted.pending thread key arena at_
  refine ⟨?unlocked, ?locked, fits, accounted.capped, ?once, ?known, ?pending, ?apart⟩
  case unlocked =>
    intro free
    obtain ⟨count, none_⟩ := accounted.unlocked free
    refine ⟨?_, fun other arena' there => none_ other arena' (of_update (by simp) there).2⟩
    calc s.pool.currentBytes + arena.byteLen = arena.byteLen + bytes s.live := by
          rw [count, Nat.add_comm]
      _ = _ := counted.symm
  case locked =>
    intro holder taken
    obtain ⟨arena', there, count, only⟩ := accounted.locked holder taken
    have other : holder ≠ thread := by
      rintro rfl
      cases at_.symm.trans there
    refine ⟨arena', (Function.update_of_ne other _ _).trans there, ?_, fun third arena₃ place => ?_⟩
    · calc s.pool.currentBytes + arena.byteLen
          = arena.byteLen + bytes s.live + arena'.byteLen := by omega
        _ = _ := by rw [← counted]; rfl
    · exact only third arena₃ (of_update (by simp) place).2
  case once => exact allocations.nodup_iff.mpr (List.nodup_cons.mpr ⟨absent, accounted.once⟩)
  case known =>
    intro n member
    obtain rfl | earlier := List.mem_cons.mp (allocations.mem_iff.mp member)
    · exact below
    · exact accounted.known n earlier
  case pending =>
    intro other key' arena' there
    obtain ⟨ne, place⟩ := of_update (by simp) there
    obtain ⟨below', absent'⟩ := accounted.pending other key' arena' place
    refine ⟨below', fun member => ?_⟩
    -- The arena that became live is with this thread, and so with no other.
    obtain same | earlier := List.mem_cons.mp (allocations.mem_iff.mp member)
    · exact ne (accounted.apart other thread key' key arena' arena place at_ same)
    · exact absent' earlier
  case apart =>
    intro other third key₁ key₂ arena₁ arena₂ there there'
    exact accounted.apart other third key₁ key₂ arena₁ arena₂ (of_update (by simp) there).2
      (of_update (by simp) there').2

/-- An arena that is dropped stays in the count until the lock of the entries is free again. -/
theorem Accounted.drop (accounted : Accounted s) (free : s.entriesLock = none)
    {entries : PoolEntries}
    {outstanding : List (PoolKey × PooledArena)}
    (capped : ∀ key vec, entries.lookup key = some vec → vec.length ≤ s.pool.maxArenasPerKey)
    (same : s.live.Perm (arena :: (cachedArenas entries ++ outstanding.map Prod.snd))) :
    Accounted ({ s with
      pool := { s.pool with entries }
      entriesLock := some thread
      outstanding }.goto thread (.dropping arena)) := by
  have counted := (bytes_perm same).trans (bytes_cons _ _)
  have allocations := same.map PooledArena.allocation
  obtain ⟨count, none_⟩ := accounted.unlocked free
  refine ⟨?unlocked, ?locked, accounted.bounded, capped, ?once, ?known, ?pending, ?apart⟩
  case unlocked => intro free'; cases free'
  case locked =>
    rintro holder ⟨⟩
    refine ⟨arena, Function.update_self _ _ _, ?_, fun other arena' there => ?_⟩
    · exact (count.trans counted).trans (Nat.add_comm _ _)
    · by_contra ne
      exact none_ other arena' ((Function.update_of_ne ne _ _).symm.trans there)
  case once => exact (List.nodup_cons.mp (allocations.nodup_iff.mp accounted.once)).2
  case known =>
    exact fun n member => accounted.known n
      (allocations.mem_iff.mpr (List.mem_cons_of_mem _ member))
  case pending =>
    intro other key' arena' there
    obtain ⟨below, absent⟩ := accounted.pending other key' arena' (of_update (by simp) there).2
    exact ⟨below, fun member => absent (allocations.mem_iff.mpr (List.mem_cons_of_mem _ member))⟩
  case apart =>
    intro other third key₁ key₂ arena₁ arena₂ there there'
    exact accounted.apart other third key₁ key₂ arena₁ arena₂ (of_update (by simp) there).2
      (of_update (by simp) there').2

theorem Accounted.dropped (accounted : Accounted s) (at_ : s.threads thread = .dropping arena) :
    Accounted ({ s with
      pool := { s.pool with currentBytes := s.pool.currentBytes - arena.byteLen }
      entriesLock := none }.goto thread .idle) := by
  -- Whoever drops an arena holds the lock.
  have taken : s.entriesLock = some thread := by
    cases lock : s.entriesLock with
    | none => exact ((accounted.unlocked lock).2 thread arena at_).elim
    | some holder =>
      obtain ⟨arena', -, -, only⟩ := accounted.locked holder lock
      rw [only thread arena at_]
  obtain ⟨arena', there, count, only⟩ := accounted.locked thread taken
  obtain rfl : arena = arena' := by cases at_.symm.trans there; rfl
  refine ⟨?unlocked, ?locked, ?bounded, accounted.capped, accounted.once, accounted.known,
    ?pending, ?apart⟩
  case unlocked =>
    refine fun _ => ⟨?_, fun other arena₂ place => ?_⟩
    · exact Nat.sub_eq_of_eq_add count
    · obtain ⟨ne, place⟩ := of_update (by simp) place
      exact ne (only other arena₂ place)
  case locked => intro holder taken'; cases taken'
  -- The subtraction saturates in the model; the count says that it does not here.
  case bounded => exact Nat.le_trans (Nat.sub_le _ _) accounted.bounded
  case pending =>
    intro other key' arena₂ place
    exact accounted.pending other key' arena₂ (of_update (by simp) place).2
  case apart =>
    intro other third key₁ key₂ arena₁ arena₂ place place'
    exact accounted.apart other third key₁ key₂ arena₁ arena₂ (of_update (by simp) place).2
      (of_update (by simp) place').2

theorem Accounted.findFree (accounted : Accounted s) (idle : s.threads thread = .idle) :
    Accounted (s.findFree thread key) := by
  have before : ∀ arena, s.threads thread ≠ .dropping arena := by simp [idle]
  unfold PoolRun.findFree
  cases search : (s.pool.entries.lookup key).bind takeFree with
  | none => exact accounted.goto before (by simp) (by simp)
  | some found =>
    obtain ⟨arena, rest⟩ := found
    obtain ⟨vec, known, taken⟩ := Option.bind_eq_some_iff.mp search
    have moved := accounted.exchange (s.pool.entries.insert key rest)
      ((key, arena) :: s.outstanding) ?capped ?same
    case capped =>
      apply capped_insert accounted.capped key
      exact Nat.le_trans (takeFree_length taken) (accounted.capped key vec known)
    case same =>
      have cached := cachedArenas_perm s.pool.entries key
      rw [known, Option.getD_some] at cached
      rw [cachedArenas_insert]
      calc List.Perm
            ((rest.map PoolEntry.arena ++ cachedArenas (s.pool.entries.erase key)) ++
              (arena :: s.held))
            (arena :: (rest.map PoolEntry.arena ++ cachedArenas (s.pool.entries.erase key)) ++
              s.held) := List.perm_middle
        List.Perm _
            ((vec.map PoolEntry.arena ++ cachedArenas (s.pool.entries.erase key)) ++ s.held) :=
          ((takeFree_perm taken).symm.append_right _).append_right _
        List.Perm _ s.live := cached.symm.append_right _
    exact (moved.goto before (by simp) (by simp)).reply

theorem Accounted.cacheArena (accounted : Accounted s) (free : s.entriesLock = none)
    (given : (key, arena) ∈ s.outstanding) : Accounted (s.cacheArena thread key arena) := by
  have cached := cachedArenas_perm s.pool.entries key
  have outstanding := (List.perm_cons_erase given).map Prod.snd
  have bound : ((s.pool.entries.lookup key).getD []).length ≤ s.pool.maxArenasPerKey := by
    cases known : s.pool.entries.lookup key with
    | none => exact Nat.zero_le _
    | some vec => exact accounted.capped key vec known
  unfold PoolRun.cacheArena
  dsimp only
  split
  -- A full key drops the arena and keeps the lock; otherwise it goes to the end of the cache.
  case isTrue full =>
    refine accounted.drop free (capped_insert accounted.capped key bound) ?_
    rw [cachedArenas_insert]
    calc List.Perm s.live
          (cachedArenas s.pool.entries ++
            (arena :: (s.outstanding.erase (key, arena)).map Prod.snd)) :=
        outstanding.append_left _
      List.Perm _
          (arena :: (cachedArenas s.pool.entries ++
            (s.outstanding.erase (key, arena)).map Prod.snd)) := List.perm_middle
      List.Perm _ _ := (cached.append_right _).cons arena
  case isFalse room =>
    let entry : PoolEntry := ⟨arena, 0, .free⟩
    have kept : ((s.pool.entries.lookup key).getD [] ++ [entry]).length ≤
        s.pool.maxArenasPerKey := by
      rw [List.length_append, List.length_singleton]
      omega
    have moved := accounted.exchange _ (s.outstanding.erase (key, arena))
      (capped_insert accounted.capped key kept) ?same
    case same =>
      rw [cachedArenas_insert, List.map_append]
      calc List.Perm _
            (arena :: ((((s.pool.entries.lookup key).getD []).map PoolEntry.arena ++
              cachedArenas (s.pool.entries.erase key)) ++
              (s.outstanding.erase (key, arena)).map Prod.snd)) := by
            simp [entry]
        List.Perm _ (arena :: (cachedArenas s.pool.entries ++
            (s.outstanding.erase (key, arena)).map Prod.snd)) :=
          (cached.symm.append_right _).cons arena
        List.Perm _ (cachedArenas s.pool.entries ++
            (arena :: (s.outstanding.erase (key, arena)).map Prod.snd)) := List.perm_middle.symm
        List.Perm _ s.live := outstanding.symm.append_left _
    exact (moved.goto ((accounted.unlocked free).2 thread) (by simp) (by simp)).reply

theorem accounted_step {s' : PoolRun Thread} {move : Thread × PoolMove} (accounted : Accounted s)
    (taken : s.step move = some s') : Accounted s' := by
  obtain ⟨thread, move⟩ := move
  cases at_ : s.threads thread with
  | idle =>
    have before : ∀ arena, s.threads thread ≠ .dropping arena := by simp [at_]
    cases move with
    | acquire profile dim0 dim1 =>
      simp only [PoolRun.step, at_] at taken
      split at taken
      case isTrue unsupported =>
        cases taken
        exact (accounted.goto before (by simp) (by simp)).reply
      case isFalse supported =>
        split at taken
        case isTrue free =>
          cases taken
          exact accounted.findFree at_
        -- The lock is taken, so that the thread waits.
        case isFalse held => cases taken
    | release key arena =>
      simp only [PoolRun.step, at_] at taken
      split at taken
      case isTrue may =>
        cases taken
        exact accounted.cacheArena may.2 may.1
      case isFalse => cases taken
    | allocate result => simp [PoolRun.step, at_] at taken
    | proceed => simp [PoolRun.step, at_] at taken
  | allocating key =>
    have before : ∀ arena, s.threads thread ≠ .dropping arena := by simp [at_]
    cases move with
    | allocate result =>
      cases result with
      | error e =>
        simp only [PoolRun.step, at_, Option.some.injEq] at taken
        cases taken
        exact (accounted.goto before (by simp) (by simp)).reply
      | ok byteLen =>
        simp only [PoolRun.step, at_, Option.some.injEq] at taken
        cases taken
        exact accounted.allocate before
    | acquire => simp [PoolRun.step, at_] at taken
    | release => simp [PoolRun.step, at_] at taken
    | proceed => simp [PoolRun.step, at_] at taken
  | allocated key arena =>
    have before : ∀ arena, s.threads thread ≠ .dropping arena := by simp [at_]
    cases move with
    | proceed =>
      simp only [PoolRun.step, at_, PoolRun.countArena] at taken
      split at taken
      case isTrue =>
        split at taken
        case isTrue over_ =>
          cases taken
          exact (accounted.goto before (by simp) (by simp)).reply
        case isFalse fits =>
          cases taken
          exact (accounted.count at_ (Nat.le_of_not_gt fits)).reply
      case isFalse => cases taken
    | acquire => simp [PoolRun.step, at_] at taken
    | release => simp [PoolRun.step, at_] at taken
    | allocate result => simp [PoolRun.step, at_] at taken
  | dropping arena =>
    cases move with
    | proceed =>
      simp only [PoolRun.step, at_, Option.some.injEq] at taken
      cases taken
      exact (accounted.dropped at_).reply
    | acquire => simp [PoolRun.step, at_] at taken
    | release => simp [PoolRun.step, at_] at taken
    | allocate result => simp [PoolRun.step, at_] at taken

end Steps

/-- Whatever the threads do, the bytes of the pool are counted, its bounds hold, and no arena is
with two callers or with a caller and in the cache. -/
theorem arenaPool_lawful [DecidableEq Thread] (maxTotalBytes maxArenasPerKey : ℕ)
    (moves : List (Thread × PoolMove)) :
    Runs.Always step Lawful (new maxTotalBytes maxArenasPerKey) moves := by
  have guarded : Runs.Guarded step (fun _ _ => True)
      (new maxTotalBytes maxArenasPerKey : PoolRun Thread) moves :=
    Runs.guarded_of_forall step (fun _ _ => trivial) _
  have always := Runs.always_of_guarded step (P := Accounted)
    (fun s move s' accounted _ taken => accounted_step accounted taken)
    (accounted_new maxTotalBytes maxArenasPerKey) guarded
  exact Runs.always_mono step (fun s accounted => accounted.lawful) always

end PoolRun

end TribunusCompute.Memory
