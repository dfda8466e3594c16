import TribunusCompute.KvArena.Refcounts
import TribunusCompute.Library.Keyed

/-!
# Prefix hits over runs of the arena

A prefix hit is fresh when the block was registered for that hash and its slot
has not been re-initialised since. The index is keyed by content hash and slots
are recycled by index, so freshness rests on the slots that are recycled being
unmapped.
-/
namespace TribunusCompute.KvArena

open KvBlockArena

/-- The event gives the slot to something else than the content of `hash`. -/
def ArenaEvent.Reinitializes (hash : PrefixHash) (id : PhysicalBlockId) : ArenaEvent → Prop
  | .handedOut id' => id' = id
  | .registered hash' id' => id' = id ∧ hash' ≠ hash

def ArenaEvent.slot : ArenaEvent → PhysicalBlockId
  | .handedOut id => id
  | .registered _ id => id

/-- The block was registered for the hash, and not re-initialised since. -/
def Fresh (history : List ArenaEvent) (hash : PrefixHash) (id : PhysicalBlockId) : Prop :=
  ∃ later earlier, history = later ++ .registered hash id :: earlier ∧
    ∀ event ∈ later, ¬event.Reinitializes hash id

theorem fresh_registered (history : List ArenaEvent) (hash : PrefixHash) (id : PhysicalBlockId) :
    Fresh (.registered hash id :: history) hash id :=
  ⟨[], history, rfl, by simp⟩

theorem Fresh.cons {history : List ArenaEvent} {hash : PrefixHash} {id : PhysicalBlockId}
    {event : ArenaEvent} (fresh : Fresh history hash id)
    (keeps : ¬event.Reinitializes hash id) : Fresh (event :: history) hash id := by
  obtain ⟨later, earlier, rfl, unchanged⟩ := fresh
  refine ⟨event :: later, earlier, rfl, fun e member => ?_⟩
  rcases List.mem_cons.mp member with rfl | old
  · exact keeps
  · exact unchanged e old

theorem Fresh.registered_mem {history : List ArenaEvent} {hash : PrefixHash}
    {id : PhysicalBlockId} (fresh : Fresh history hash id) : .registered hash id ∈ history := by
  obtain ⟨later, earlier, rfl, -⟩ := fresh
  simp

/-! ## Recycling unmapped slots -/

/-- No hash is still mapped to the slot the next allocation recycles. -/
def KvBlockArena.RecyclesUnmapped (a : KvBlockArena) : Prop :=
  (∀ idx ∈ a.freeList.getLast?, a.prefixCache.Unmapped (UInt32.ofNat idx)) ∧
    (a.freeList = [] → a.capacity ≤ a.blocks.length → ∀ c ∈ a.evictionCandidate,
      (a.prefixCache.remove c.1.id.toUInt64).Unmapped (UInt32.ofNat c.2))

/-- So it goes for each of the next `n` allocations. -/
def KvBlockArena.AdmitsUnmapped : ℕ → KvBlockArena → Prop
  | 0, _ => True
  | n + 1, a => a.RecyclesUnmapped ∧
      ∀ id a', a.tryAllocate = some (.ok id, a') → AdmitsUnmapped n a'

instance (a : KvBlockArena) : Decidable a.RecyclesUnmapped :=
  inferInstanceAs (Decidable (_ ∧ _))

instance decidableAdmitsUnmapped : (n : ℕ) → (a : KvBlockArena) → Decidable (a.AdmitsUnmapped n)
  | 0, _ => isTrue trivial
  | n + 1, a =>
    match allocated : a.tryAllocate with
    | some (.ok _, a') =>
      have := decidableAdmitsUnmapped n a'
      decidable_of_iff (a.RecyclesUnmapped ∧ a'.AdmitsUnmapped n) (by
        simp [AdmitsUnmapped, allocated])
    | some (.error _, _) =>
      decidable_of_iff a.RecyclesUnmapped (by simp [AdmitsUnmapped, allocated])
    | none => decidable_of_iff a.RecyclesUnmapped (by simp [AdmitsUnmapped, allocated])

namespace System

/-- Whenever a prefixed allocation would answer from the index, its answer is fresh. -/
def HitsFresh (s : System) : Prop :=
  ∀ hash id a, s.arena.allocatePrefixed hash = some (id, a) →
    (s.arena.prefixCache.lookup hash).1.isSome → Fresh s.history hash id

def RecyclesUnmapped (s : System) : ArenaOp → Prop
  | .tryAllocate => s.arena.RecyclesUnmapped
  | .allocatePrefixed hash =>
      s.arena.prefixCache.index.lookup hash = none → s.arena.RecyclesUnmapped
  | .admitSequence tokenCount _ =>
      ∀ n ∈ tokensToBlocks tokenCount.toNat s.arena.blockSize, s.arena.AdmitsUnmapped n
  | _ => True

instance (s : System) (op : ArenaOp) : Decidable (s.RecyclesUnmapped op) :=
  match op with
  | .tryAllocate => inferInstanceAs (Decidable s.arena.RecyclesUnmapped)
  | .allocatePrefixed hash => inferInstanceAs <| Decidable <|
      s.arena.prefixCache.index.lookup hash = none → s.arena.RecyclesUnmapped
  | .admitSequence tokenCount _ =>
      Option.decidableForallMem (tokensToBlocks tokenCount.toNat s.arena.blockSize)
  | .evictOne | .release _ => isTrue trivial

/-- Every entry of the index is fresh, and events name slots of the arena. -/
structure Traced (a : KvBlockArena) (history : List ArenaEvent) : Prop where
  fresh : ∀ hash id, a.prefixCache.index.lookup hash = some id → Fresh history hash id
  inRange : ∀ event ∈ history, event.slot.toNat < a.blocks.length

theorem traced_start (plan : KvCachePlan) (backend : BackendAffinity) :
    Traced (.fromPlan plan backend) [] where
  fresh := by simp [fromPlan, PrefixCacheIndex.new]
  inRange := by simp

namespace Traced

variable {a a' : KvBlockArena} {history : List ArenaEvent} {id : PhysicalBlockId}

/-- What an allocation leaves of the index: older entries, none of them on its slot. -/
theorem allocation (h : Traced a history) (clean : a.RecyclesUnmapped)
    (alloc : Allocation a (.ok id) a') :
    (∀ hash id', a'.prefixCache.index.lookup hash = some id' →
      a.prefixCache.index.lookup hash = some id' ∧ id' ≠ id) ∧
    id.toNat < a'.blocks.length ∧ a.blocks.length ≤ a'.blocks.length := by
  obtain ⟨poppedUnmapped, evictedUnmapped⟩ := clean
  cases alloc with
  | recycled idx _ popped blocks cache capacity =>
    have inRange := a.freeInRange idx (by simp [popped])
    have unmapped := poppedUnmapped idx (by simp [popped])
    refine ⟨fun hash id' found => ?_, by rwa [a.toNat_ofNat_slot inRange, blocks,
      List.length_set], by simp [blocks]⟩
    rw [cache] at found
    exact ⟨found, fun same => unmapped hash (same ▸ found)⟩
  | evicted b idx _ exhausted full chosen free blocks cache capacity =>
    have inRange := evictionCandidate_inRange chosen
    have unmapped := evictedUnmapped exhausted full _ chosen
    refine ⟨fun hash id' found => ?_, by rwa [a.toNat_ofNat_slot inRange, blocks,
      List.length_set], by simp [blocks]⟩
    rw [cache] at found
    refine ⟨?_, fun same => unmapped hash (same ▸ found)⟩
    exact (Keyed.lookup_erase_eq_some_iff.mp found).2
  | fresh _ exhausted room free blocks cache capacity =>
    have slot : (UInt32.ofNat a.blocks.length).toNat = a.blocks.length :=
      UInt32.toNat_ofNat_of_lt' (room.trans a.capacityFits)
    refine ⟨fun hash id' found => ?_, by simp [slot, blocks], by simp [blocks]⟩
    rw [cache] at found
    -- A mapped block has been registered, so it is an older slot.
    have older : id'.toNat < a.blocks.length := h.inRange _ (h.fresh hash id' found).registered_mem
    refine ⟨found, ?_⟩
    rintro rfl
    omega

theorem handedOut (h : Traced a history) (clean : a.RecyclesUnmapped)
    (alloc : Allocation a (.ok id) a') : Traced a' (.handedOut id :: history) := by
  obtain ⟨entries, inRange, grows⟩ := h.allocation clean alloc
  refine ⟨fun hash id' found => ?_, fun event member => ?_⟩
  · obtain ⟨before, elsewhere⟩ := entries hash id' found
    exact (h.fresh hash id' before).cons fun same => elsewhere same.symm
  · rcases List.mem_cons.mp member with rfl | old
    · exact inRange
    · exact (h.inRange event old).trans_le grows

theorem registered (h : Traced a history) (clean : a.RecyclesUnmapped)
    (alloc : Allocation a (.ok id) a') (hash : PrefixHash) :
    Traced { a' with prefixCache := a'.prefixCache.insert hash id }
      (.registered hash id :: history) := by
  obtain ⟨entries, inRange, grows⟩ := h.allocation clean alloc
  refine ⟨fun hash' id' found => ?_, fun event member => ?_⟩
  · rcases Keyed.lookup_insert_eq_some_iff.mp found with ⟨rfl, rfl⟩ | ⟨other, found⟩
    · exact fresh_registered history hash' id
    · obtain ⟨before, elsewhere⟩ := entries hash' id' found
      exact (h.fresh hash' id' before).cons fun same => elsewhere same.1.symm
  · rcases List.mem_cons.mp member with rfl | old
    · exact inRange
    · exact (h.inRange event old).trans_le grows

theorem allocateBlocks {n : ℕ} {ids : List PhysicalBlockId} {error : Option ArenaError}
    (h : Traced a history) (clean : a.AdmitsUnmapped n)
    (run : a.allocateBlocks n = some (ids, error, a')) :
    Traced a' (ids.reverse.map .handedOut ++ history) := by
  induction n generalizing a history ids with
  | zero =>
    cases run
    exact h
  | succ n ih =>
    rcases allocateBlocks_succ run with ⟨id, a₁, rest, first, rfl, later⟩ | ⟨e, first, rfl, rfl⟩
    · have after := ih (h.handedOut clean.1 (tryAllocate_some first)) (clean.2 id a₁ first) later
      simpa using after
    · obtain ⟨rfl, -⟩ := refused_allocation (tryAllocate_some first)
      exact h

/-- Operations that hand nothing out: entries and slots stay, or entries go. -/
theorem congr (h : Traced a history)
    (entries : ∀ hash id', a'.prefixCache.index.lookup hash = some id' →
      a.prefixCache.index.lookup hash = some id')
    (slots : a'.blocks.length = a.blocks.length) : Traced a' history :=
  ⟨fun hash id' found => h.fresh hash id' (entries hash id' found),
    fun event member => slots ▸ h.inRange event member⟩

theorem evictOne (h : Traced a history) : Traced a.evictOne.2 history := by
  cases chosen : a.evictionCandidate with
  | none =>
    rw [evictOne_none chosen]
    exact h
  | some c =>
    obtain ⟨e, evicted, -, blocks, -, -, cache, -⟩ := evictOne_some chosen
    rw [evicted]
    refine h.congr (fun hash id' found => ?_) (congrArg _ blocks)
    rw [cache, PrefixCacheIndex.remove] at found
    exact (Keyed.lookup_erase_eq_some_iff.mp found).2

end Traced

theorem traced_step {s t : System} {op : ArenaOp} (h : Traced s.arena s.history)
    (clean : s.RecyclesUnmapped op) (taken : s.step op = some t) :
    Traced t.arena t.history := by
  cases op with
  | tryAllocate =>
    simp only [step, Option.bind_eq_bind] at taken
    obtain ⟨⟨result, a⟩, allocated, taken⟩ := Option.bind_eq_some_iff.mp taken
    cases result with
    | ok id =>
      cases taken
      exact h.handedOut clean (tryAllocate_some allocated)
    | error e =>
      cases taken
      obtain ⟨rfl, -⟩ := refused_allocation (tryAllocate_some allocated)
      exact h
  | allocatePrefixed hash =>
    simp only [step, Option.bind_eq_bind] at taken
    obtain ⟨⟨id, a⟩, allocated, taken⟩ := Option.bind_eq_some_iff.mp taken
    cases taken
    rcases allocatePrefixed_cases allocated with
      ⟨found, blocks, -, index⟩ | ⟨missed, a₁, allocation, rfl⟩
    · simp only [found, Option.isSome_some, if_true]
      exact h.congr (fun hash id' entry => index ▸ entry) (by simp [blocks])
    -- a miss registers a block for the hash, which no other entry may lead to
    · simp only [missed, Option.isSome_none, Bool.false_eq_true, if_false]
      exact h.registered (clean missed) allocation hash
  | admitSequence tokenCount seq =>
    simp only [step, Option.bind_eq_bind] at taken
    obtain ⟨⟨result, a⟩, admitted_, taken⟩ := Option.bind_eq_some_iff.mp taken
    cases taken
    obtain ⟨n, ids, error, a₁, needed, run, blocks, -, cache, -⟩ := admitSequence_cases admitted_
    have recycled : admitted s.arena tokenCount = ids := by simp [admitted, needed, run]
    have after := h.allocateBlocks (clean n needed) run
    simp only [recycled]
    exact after.congr (fun hash id' entry => cache ▸ entry) (congrArg _ blocks)
  | evictOne =>
    cases taken
    exact h.evictOne
  | release id =>
    simp only [step] at taken
    split at taken
    next =>
      cases taken
      exact h.congr (fun hash id' entry => by simpa using entry) (by simp [release_blocks])
    next => cases taken

theorem Traced.hitsFresh {s : System} (h : Traced s.arena s.history) : s.HitsFresh := by
  intro hash id a allocated answered
  rcases allocatePrefixed_cases allocated with ⟨found, -⟩ | ⟨missed, -⟩
  · exact h.fresh hash id found
  · simp [PrefixCacheIndex.lookup, missed] at answered

/-- Runs that only recycle unmapped slots never answer with a recycled block. -/
theorem hitsFresh_of_recyclesUnmapped (plan : KvCachePlan) (backend : BackendAffinity)
    (ops : List ArenaOp)
    (clean : Runs.Guarded step RecyclesUnmapped (start plan backend) ops) :
    Runs.Always step HitsFresh (start plan backend) ops := by
  have traced := Runs.always_of_guarded step (P := fun s => Traced s.arena s.history)
    (fun s op t h clean taken => traced_step h clean taken) (traced_start plan backend) clean
  exact Runs.always_mono step (fun s h => h.hitsFresh) traced

/-- Two contents, a hit and an admission on a growing arena. -/
theorem hitsFresh_growingArena :
    Runs.Always step HitsFresh (start .default .hostPinned)
      [.allocatePrefixed 7, .allocatePrefixed 9, .allocatePrefixed 7, .admitSequence 40 1] :=
  hitsFresh_of_recyclesUnmapped .default .hostPinned _ (by decide)

/-- The slot of a released prefix block is recycled with its entry in place. -/
theorem recycledBlock_answers_hit :
    ∃ t, Runs.exec step (start .default .hostPinned)
        [.allocatePrefixed 7, .release 0, .tryAllocate] = some t ∧ ¬t.HitsFresh := by
  refine ⟨_, rfl, fun fresh => ?_⟩
  obtain ⟨later, earlier, same, unchanged⟩ := fresh 7 0 _ rfl rfl
  have same : [.handedOut 0, .registered 7 0] = later ++ .registered 7 0 :: earlier := same
  cases later with
  | nil => cases same
  | cons event later =>
    obtain ⟨rfl, -⟩ := List.cons.inj same
    exact unchanged _ List.mem_cons_self rfl

end System

end TribunusCompute.KvArena
