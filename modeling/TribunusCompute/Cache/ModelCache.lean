import Mathlib.Algebra.GroupWithZero.Nat
import Mathlib.Algebra.Order.BigOperators.Group.List
import TribunusCompute.Library.Keyed
import TribunusCompute.Library.Lru
import TribunusCompute.Library.Outcome

/-!
# The pool of loaded models

`model_cache.rs`: models are loaded when they are asked for and evicted, the least recently used
first, where memory runs out. Sizes are numbers of bytes on a `u64`, whose sums saturate.
-/
namespace TribunusCompute.Cache

open Outcome (saturatingAdd)

variable {A : Type}

structure LoadedProfiledModel (A : Type) where
  weights : A
  mappedWeightBytes : ℕ
  copiedWeightBytes : ℕ
  materializedBytes : ℕ

def LoadedProfiledModel.sizeBytes (model : LoadedProfiledModel A) : ℕ :=
  saturatingAdd (saturatingAdd model.mappedWeightBytes model.copiedWeightBytes)
    model.materializedBytes

structure CachedModel (A : Type) where
  model : LoadedProfiledModel A
  sizeBytes : ℕ

inductive ModelSource
  | imageDir (path : String)
  | huggingFace (hubId : String)
  deriving DecidableEq, Repr

structure ModelCache (A : Type) where
  maxMemoryBytes : ℕ
  usedMemoryBytes : ℕ
  lru : AList fun _ : String => CachedModel A
  lruOrder : List String
  loadedSources : AList fun _ : String => ModelSource

abbrev Outcome (A : Type) := Except String (LoadedProfiledModel A) × ModelCache A

/-- What a call finds: `LoadedProfiledModel::new` on a directory, and 80 percent of the memory in
MB, where the memory is known. -/
structure System (A : Type) where
  load : String → Except String (LoadedProfiledModel A)
  pressureMb : Option ℕ

namespace ModelCache

def new (maxMemoryMb : ℕ) : ModelCache A where
  maxMemoryBytes := maxMemoryMb * 1048576
  usedMemoryBytes := 0
  lru := ∅
  lruOrder := []
  loadedSources := ∅

def touchLru (s : ModelCache A) (name : String) : ModelCache A :=
  if name ∈ s.lruOrder then { s with lruOrder := s.lruOrder.erase name ++ [name] } else s

/-- Take a model out of the pool; `lruOrder` is that of the caller. -/
def remove (s : ModelCache A) (name : String) (cached : CachedModel A) : ModelCache A :=
  { s with
    lru := s.lru.erase name
    usedMemoryBytes := s.usedMemoryBytes - cached.sizeBytes }

/-- The loop of `evict_lru` over what is left of the order. -/
def evictLoop (needed : ℕ) : (available evicted : ℕ) → (order : List String) → ModelCache A →
    Except String Unit × ModelCache A
  | available, evicted, order, s =>
    if needed ≤ available then (.ok (), { s with lruOrder := order })
    else
      match order with
      | [] =>
        (.error ("cannot free " ++ toString needed ++ " bytes — only " ++
          toString (s.usedMemoryBytes + evicted) ++ " available after evicting all models"),
          { s with lruOrder := [] })
      | victim :: order =>
        match s.lru.lookup victim with
        | none => evictLoop needed available evicted order s
        | some cached =>
          evictLoop needed (saturatingAdd available cached.sizeBytes)
            (saturatingAdd evicted cached.sizeBytes) order (s.remove victim cached)

def evictLru (s : ModelCache A) (needed : ℕ) : Except String Unit × ModelCache A :=
  if s.maxMemoryBytes < needed then
    (.error ("requested " ++ toString needed ++ " bytes exceeds cache capacity " ++
      toString s.maxMemoryBytes ++ " bytes"), s)
  else evictLoop needed (s.maxMemoryBytes - s.usedMemoryBytes) 0 s.lruOrder s

def checkPressure (s : ModelCache A) (system : System A) : Except String Unit × ModelCache A :=
  match system.pressureMb with
  | none => (.ok (), s)
  | some limit =>
    if limit < s.usedMemoryBytes / 1048576 then s.evictLru (s.usedMemoryBytes / 10)
    else (.ok (), s)

def loadFrom (system : System A) (name : String) : ModelSource →
    Except String (LoadedProfiledModel A)
  | .imageDir path =>
    match system.load path with
    | .error e => .error ("load model '" ++ name ++ "' from " ++ path ++ ": " ++ e)
    | .ok model => .ok model
  | .huggingFace _ => .error "HuggingFace streaming compile not yet wired"

/-- An error leaves what was evicted before it. -/
def getOrLoad (s : ModelCache A) (system : System A) (name : String) (source : ModelSource) :
    Outcome A :=
  match s.lru.lookup name with
  | some cached => (.ok cached.model, s.touchLru name)
  | none =>
    match s.checkPressure system with
    | (.error e, s) => (.error e, s)
    | (.ok (), s) =>
      match loadFrom system name source with
      | .error e => (.error e, s)
      | .ok model =>
        match s.evictLru model.sizeBytes with
        | (.error e, s) => (.error e, s)
        | (.ok (), s) =>
          (.ok model,
            { s with
              usedMemoryBytes := saturatingAdd s.usedMemoryBytes model.sizeBytes
              lru := s.lru.insert name ⟨model, model.sizeBytes⟩
              lruOrder := s.lruOrder ++ [name]
              loadedSources := s.loadedSources.insert name source })

def get (s : ModelCache A) (name : String) : Option (CachedModel A) × ModelCache A :=
  (s.lru.lookup name, if name ∈ s.lru then s.touchLru name else s)

def unload (s : ModelCache A) (name : String) : ModelCache A :=
  match s.lru.lookup name with
  | none => s
  | some cached => { s.remove name cached with lruOrder := s.lruOrder.erase name }

def reloadSegment (s : ModelCache A) (system : System A) (name : String) : Outcome A :=
  match s.loadedSources.lookup name with
  | none => (.error ("model '" ++ name ++ "' is not tracked in cache"), s)
  | some source => (s.unload name).getOrLoad system name source

inductive Call (A : Type)
  | getOrLoad (system : System A) (name : String) (source : ModelSource)
  | get (name : String)
  | unload (name : String)
  | reloadSegment (system : System A) (name : String)

/-- The pool after some calls, with the names of the models that were given out, in order. -/
def run : List (Call A) → ModelCache A × List String → ModelCache A × List String
  | [], s => s
  | call :: calls, (s, uses) =>
    match call with
    | .get name => run calls ((s.get name).2, if name ∈ s.lru then uses ++ [name] else uses)
    | .unload name => run calls (s.unload name, uses)
    | .getOrLoad system name source => run calls (given name uses (s.getOrLoad system name source))
    | .reloadSegment system name => run calls (given name uses (s.reloadSegment system name))
where
  given (name : String) (uses : List String) : Outcome A → ModelCache A × List String
    | (.ok _, s) => (s, uses ++ [name])
    | (.error _, s) => (s, uses)

/-! ## The books -/

/-- The order lists each model in the pool once, and the books balance within the capacity. -/
structure Sound (s : ModelCache A) : Prop where
  distinct : s.lruOrder.Nodup
  resident : ∀ name, name ∈ s.lruOrder ↔ name ∈ s.lru
  used : s.usedMemoryBytes = (s.lru.entries.map fun entry => entry.2.sizeBytes).sum
  room : s.usedMemoryBytes ≤ s.maxMemoryBytes
  tracked : ∀ name ∈ s.lru, name ∈ s.loadedSources
  small : s.maxMemoryBytes < 2 ^ 64

variable {s t : ModelCache A} {name : String} {cached : CachedModel A} {system : System A}
  {source : ModelSource} {uses : List String}

theorem sound_remove (sound : Sound s) (there : s.lru.lookup name = some cached) :
    cached.sizeBytes ≤ s.usedMemoryBytes ∧
      Sound { s.remove name cached with lruOrder := s.lruOrder.erase name } := by
  have parts : s.usedMemoryBytes =
      cached.sizeBytes + ((s.lru.erase name).entries.map fun entry => entry.2.sizeBytes).sum := by
    have perm := (Keyed.entries_perm_erase there).map fun entry => entry.2.sizeBytes
    rw [sound.used, perm.sum_eq, List.map_cons, List.sum_cons]
  refine ⟨by omega, sound.distinct.erase name, fun other => ?_, ?_, ?_, fun other member => ?_,
    sound.small⟩
  · rw [sound.distinct.mem_erase_iff, sound.resident, remove, AList.mem_erase]
  · simp only [remove]
    omega
  · have := sound.room
    simp only [remove]
    omega
  · exact sound.tracked other (AList.mem_erase.mp member).2

theorem sound_touch (sound : Sound s) (name : String) : Sound (s.touchLru name) := by
  unfold touchLru
  split
  next member =>
    have perm : (s.lruOrder.erase name ++ [name]).Perm s.lruOrder :=
      (List.perm_append_singleton _ _).trans (List.perm_cons_erase member).symm
    exact ⟨perm.nodup_iff.mpr sound.distinct, fun other => perm.mem_iff.trans (sound.resident other),
      sound.used, sound.room, sound.tracked, sound.small⟩
  next => exact sound

theorem saturatingAdd_eq {a b limit : ℕ} (fits : a + b ≤ limit) (small : limit < 2 ^ 64) :
    saturatingAdd a b = a + b := by
  unfold saturatingAdd
  omega

/-- An eviction that is not refused drops models from the front of the order until there is
room. -/
structure Evicts (s t : ModelCache A) (needed : ℕ) : Prop where
  sound : Sound t
  front : ∃ front, s.lruOrder = front ++ t.lruOrder
  room : t.usedMemoryBytes + needed ≤ t.maxMemoryBytes
  capacity : t.maxMemoryBytes = s.maxMemoryBytes
  sources : t.loadedSources = s.loadedSources

theorem evicts_loop {needed available evicted : ℕ} {order : List String}
    (sound : Sound { s with lruOrder := order })
    (free : available = s.maxMemoryBytes - s.usedMemoryBytes) (fits : needed ≤ s.maxMemoryBytes) :
    ∃ t, evictLoop needed available evicted order s = (.ok (), t) ∧
      Evicts { s with lruOrder := order } t needed := by
  have room : s.usedMemoryBytes ≤ s.maxMemoryBytes := sound.room
  induction order generalizing s available evicted with
  | nil =>
    -- a pool without models uses nothing
    have none_ : s.lru.entries = [] := by
      refine List.eq_nil_iff_forall_not_mem.mpr fun entry member => ?_
      have inside : entry.1 ∈ s.lru := List.mem_map_of_mem member
      exact absurd ((sound.resident entry.1).mpr inside) List.not_mem_nil
    have empty : s.usedMemoryBytes = 0 := by simpa [none_] using sound.used
    rw [evictLoop, if_pos (by omega)]
    exact ⟨_, rfl, sound, ⟨[], rfl⟩, by simpa [empty] using fits, rfl, rfl⟩
  | cons victim order ih =>
    rw [evictLoop]
    split
    next enough => exact ⟨_, rfl, sound, ⟨[], rfl⟩, by simp only; omega, rfl, rfl⟩
    next =>
      have inside : victim ∈ s.lru := (sound.resident victim).mp List.mem_cons_self
      obtain ⟨cached, there⟩ := Option.isSome_iff_exists.mp (AList.lookup_isSome.mpr inside)
      obtain ⟨freed, sound'⟩ := sound_remove sound there
      have freed : cached.sizeBytes ≤ s.usedMemoryBytes := freed
      have small : s.maxMemoryBytes < 2 ^ 64 := sound.small
      simp only [there]
      have head : (victim :: order).erase victim = order := List.erase_cons_head ..
      simp only [head] at sound'
      have used' : (s.remove victim cached).usedMemoryBytes =
        s.usedMemoryBytes - cached.sizeBytes := rfl
      have more : available + cached.sizeBytes ≤ s.maxMemoryBytes := by omega
      have available' : saturatingAdd available cached.sizeBytes =
          s.maxMemoryBytes - (s.remove victim cached).usedMemoryBytes := by
        rw [saturatingAdd_eq more small]
        omega
      obtain ⟨t, done, evicts⟩ := @ih (s.remove victim cached) _
        (saturatingAdd evicted cached.sizeBytes) sound' available' fits
        (by rw [used']; exact Nat.le_trans (Nat.sub_le ..) room)
      obtain ⟨front, split_⟩ := evicts.front
      exact ⟨t, done, evicts.sound, ⟨victim :: front, congrArg (victim :: ·) split_⟩, evicts.room,
        evicts.capacity, evicts.sources⟩

theorem evicts_evictLru (sound : Sound s) {needed : ℕ} (fits : needed ≤ s.maxMemoryBytes) :
    ∃ t, s.evictLru needed = (.ok (), t) ∧ Evicts s t needed := by
  rw [evictLru, if_neg (Nat.not_lt.mpr fits)]
  exact evicts_loop sound rfl fits

/-- A tenth of what is used can always be freed. -/
theorem evicts_checkPressure (sound : Sound s) (system : System A) :
    ∃ t, s.checkPressure system = (.ok (), t) ∧ Evicts s t 0 := by
  have stays : Evicts s s 0 := ⟨sound, ⟨[], rfl⟩, sound.room, rfl, rfl⟩
  unfold checkPressure
  split
  next => exact ⟨s, rfl, stays⟩
  next limit _ =>
    split
    next =>
      have fits : s.usedMemoryBytes / 10 ≤ s.maxMemoryBytes :=
        Nat.le_trans (Nat.div_le_self ..) sound.room
      obtain ⟨t, done, evicts⟩ := evicts_evictLru sound fits
      exact ⟨t, done, evicts.sound, evicts.front, evicts.sound.room, evicts.capacity,
        evicts.sources⟩
    next => exact ⟨s, rfl, stays⟩

/-- What `get_or_load` comes to in a pool whose books balance. -/
inductive Gets (s : ModelCache A) (system : System A) (name : String) (source : ModelSource) :
    Outcome A → Prop
  | hit (cached : CachedModel A) (there : s.lru.lookup name = some cached) :
      Gets s system name source (.ok cached.model, s.touchLru name)
  | fails (absent : name ∉ s.lru) (e : String) (t : ModelCache A) (evicts : Evicts s t 0)
      (why : loadFrom system name source = .error e ∨ ∃ model,
        loadFrom system name source = .ok model ∧ s.maxMemoryBytes < model.sizeBytes) :
      Gets s system name source (.error e, t)
  | loads (absent : name ∉ s.lru) (model : LoadedProfiledModel A) (t : ModelCache A)
      (loaded : loadFrom system name source = .ok model)
      (evicts : Evicts s t model.sizeBytes) :
      Gets s system name source (.ok model,
        { t with
          usedMemoryBytes := t.usedMemoryBytes + model.sizeBytes
          lru := t.lru.insert name ⟨model, model.sizeBytes⟩
          lruOrder := t.lruOrder ++ [name]
          loadedSources := t.loadedSources.insert name source })

theorem gets_getOrLoad (sound : Sound s) (system : System A) (name : String)
    (source : ModelSource) : Gets s system name source (s.getOrLoad system name source) := by
  unfold getOrLoad
  cases there : s.lru.lookup name with
  | some cached => exact .hit cached there
  | none =>
    have absent : name ∉ s.lru := AList.lookup_eq_none.mp there
    obtain ⟨t, checked, evicts⟩ := evicts_checkPressure sound system
    simp only [checked]
    cases loaded : loadFrom system name source with
    | error e => exact .fails absent e t evicts (.inl loaded)
    | ok model =>
      simp only
      by_cases large : t.maxMemoryBytes < model.sizeBytes
      · rw [evictLru, if_pos large]
        exact .fails absent _ t evicts (.inr ⟨model, loaded, evicts.capacity ▸ large⟩)
      · obtain ⟨u, freed, more⟩ := evicts_evictLru evicts.sound (Nat.not_lt.mp large)
        obtain ⟨front, first⟩ := evicts.front
        obtain ⟨front', second⟩ := more.front
        simp only [freed]
        rw [saturatingAdd_eq more.room more.sound.small]
        refine .loads absent model u loaded ⟨more.sound, ⟨front ++ front', ?_⟩, more.room,
          more.capacity.trans evicts.capacity, more.sources.trans evicts.sources⟩
        rw [first, second, List.append_assoc]

/-! ## Every order of calls -/

/-- The books balance, and the order is that of the last uses. -/
structure Law (limit : ℕ) (s : ModelCache A) (uses : List String) : Prop where
  sound : Sound s
  capacity : s.maxMemoryBytes = limit
  recent : s.lruOrder.Sublist uses.dedup

variable {limit : ℕ}

theorem law_touch (law : Law limit s uses) (inside : name ∈ s.lru) :
    (s.touchLru name).lruOrder = s.lruOrder.erase name ++ [name] ∧
      Law limit (s.touchLru name) (uses ++ [name]) := by
  have member := (law.sound.resident name).mpr inside
  have order : (s.touchLru name).lruOrder = s.lruOrder.erase name ++ [name] := by
    rw [touchLru, if_pos member]
  refine ⟨order, sound_touch law.sound name, ?_, ?_⟩
  · rw [touchLru, if_pos member]
    exact law.capacity
  · rw [order, Lru.dedup_concat]
    exact (law.recent.erase name).append (List.Sublist.refl _)

theorem law_unload (law : Law limit s uses) (name : String) : Law limit (s.unload name) uses := by
  unfold unload
  split
  next => exact law
  next cached there =>
    exact ⟨(sound_remove law.sound there).2, law.capacity, List.erase_sublist.trans law.recent⟩

theorem law_gets {result : Outcome A}
    (law : Law limit s uses) (gets : Gets s system name source result) :
    Law limit (run.given name uses result).1 (run.given name uses result).2 ∧
      ∀ model t, result = (.ok model, t) → name ∈ t.lru ∧
        ∃ kept, kept <:+ s.lruOrder.erase name ∧ t.lruOrder = kept ++ [name] := by
  cases gets with
  | hit cached there =>
    have inside : name ∈ s.lru := AList.lookup_isSome.mp (by simp [there])
    obtain ⟨order, law'⟩ := law_touch law inside
    refine ⟨law', fun model t same => ?_⟩
    cases same
    refine ⟨(law'.sound.resident name).mp ?_, _, List.suffix_rfl, order⟩
    rw [order]
    exact List.mem_concat_self
  | fails absent e t evicts =>
    obtain ⟨front, split_⟩ := evicts.front
    refine ⟨⟨evicts.sound, evicts.capacity.trans law.capacity, List.Sublist.trans ?_ law.recent⟩,
      fun model t same => by cases same⟩
    rw [split_]
    exact List.sublist_append_right ..
  | loads absent model t loaded evicts =>
    obtain ⟨front, split_⟩ := evicts.front
    have outside : name ∉ s.lruOrder := mt (law.sound.resident name).mp absent
    have new : name ∉ t.lruOrder := fun member =>
      outside (split_ ▸ List.mem_append_right _ member)
    have new' : name ∉ t.lru := mt (evicts.sound.resident name).mpr new
    have old := evicts.sound
    rw [run.given]
    refine ⟨⟨⟨?_, fun other => ?_, ?_, evicts.room, fun other member => ?_, old.small⟩,
      evicts.capacity.trans law.capacity, ?_⟩, fun model t same => ?_⟩
    · rw [List.nodup_append_comm]
      exact List.nodup_cons.mpr ⟨new, old.distinct⟩
    · rw [List.mem_append, List.mem_singleton, old.resident, AList.mem_insert, or_comm]
    · simp only [AList.entries_insert_of_notMem new', List.map_cons, List.sum_cons, old.used]
      omega
    · rw [AList.mem_insert] at member ⊢
      exact member.imp id (old.tracked other)
    · have kept : t.lruOrder.Sublist uses.dedup :=
        (split_ ▸ List.sublist_append_right ..).trans law.recent
      have kept' := kept.erase name
      rw [List.erase_of_not_mem new] at kept'
      exact Lru.dedup_concat uses name ▸ kept'.append (List.Sublist.refl _)
    · cases same
      refine ⟨(AList.mem_insert _).mpr (.inl rfl), _, ?_, rfl⟩
      rw [List.erase_of_not_mem outside, split_]
      exact List.suffix_append ..

theorem law_given (law : Law limit s uses) (name : String) (system : System A)
    (source : ModelSource) : Law limit (run.given name uses (s.getOrLoad system name source)).1
      (run.given name uses (s.getOrLoad system name source)).2 :=
  (law_gets law (gets_getOrLoad law.sound system name source)).1

theorem law_run (calls : List (Call A)) (law : Law limit s uses) :
    Law limit (run calls (s, uses)).1 (run calls (s, uses)).2 := by
  induction calls generalizing s uses with
  | nil => exact law
  | cons call calls ih =>
    cases call with
    | get name =>
      rw [run, get]
      split
      next inside => exact ih (law_touch law inside).2
      next => exact ih law
    | unload name => exact ih (law_unload law name)
    | getOrLoad system name source => exact ih (law_given law name system source)
    | reloadSegment system name =>
      rw [run, reloadSegment]
      split
      next => exact ih law
      next source _ => exact ih (law_given (law_unload law name) name system source)

theorem law_new {maxMemoryMb : ℕ} (small : maxMemoryMb * 1048576 < 2 ^ 64) :
    Law (maxMemoryMb * 1048576) (new maxMemoryMb : ModelCache A) [] :=
  ⟨⟨List.nodup_nil, fun _ => by simp [new], rfl, Nat.zero_le _, fun _ member => by simp [new] at member,
    small⟩, rfl, List.Sublist.refl _⟩

/-- In whatever order models are asked for, unloaded and reloaded, and whichever loads fail, the
pool accounts for what is in it, keeps to its capacity, and knows the source of each model; its
order is that of the last uses. -/
theorem modelCache_law (calls : List (Call A)) {maxMemoryMb : ℕ}
    (small : maxMemoryMb * 1048576 < 2 ^ 64) :
    Law (maxMemoryMb * 1048576) (run calls (new maxMemoryMb, [])).1
      (run calls (new maxMemoryMb, [])).2 :=
  law_run calls (law_new small)

/-- A pool of 1 MB that has to evict. -/
theorem modelCache_law_evicting :
    let system : System Unit := ⟨fun _ => .ok ⟨(), 600000, 0, 0⟩, some 0⟩
    let calls := [.getOrLoad system "a" (.imageDir "a"), .getOrLoad system "b" (.imageDir "b"),
      .reloadSegment system "b", .unload "a"]
    Law (1 * 1048576) (run calls (new 1, [])).1 (run calls (new 1, [])).2 :=
  modelCache_law _ (by decide)

/-- A model is refused only where it cannot be loaded or is larger than the pool. One that is
given out is the most recent then, and only the least recent ones have left. -/
theorem getOrLoad_iff (calls : List (Call A)) {maxMemoryMb : ℕ}
    (small : maxMemoryMb * 1048576 < 2 ^ 64) (system : System A) (name : String)
    (source : ModelSource) :
    let s := (run calls (new maxMemoryMb, [])).1
    ((∃ model t, s.getOrLoad system name source = (.ok model, t)) ↔ name ∈ s.lru ∨
        ∃ model, loadFrom system name source = .ok model ∧
          model.sizeBytes ≤ maxMemoryMb * 1048576) ∧
      ∀ model t, s.getOrLoad system name source = (.ok model, t) → name ∈ t.lru ∧
        ∃ kept, kept <:+ s.lruOrder.erase name ∧ t.lruOrder = kept ++ [name] := by
  intro s
  have law : Law _ s _ := law_run calls (law_new small)
  have gets := gets_getOrLoad law.sound system name source
  refine ⟨?_, (law_gets law gets).2⟩
  generalize s.getOrLoad system name source = result at gets ⊢
  cases gets with
  | hit cached there =>
    exact iff_of_true ⟨_, _, rfl⟩ (.inl (AList.lookup_isSome.mp (by simp [there])))
  | fails absent e t evicts why =>
    refine iff_of_false (by simp) ?_
    rintro (inside | ⟨model, loaded, fits⟩)
    · exact absent inside
    · rcases why with failed | ⟨model', loaded', large⟩
      · rw [failed] at loaded
        cases loaded
      · cases loaded.symm.trans loaded'
        have := law.capacity
        omega
  | loads absent model t loaded evicts =>
    refine iff_of_true ⟨_, _, rfl⟩ (.inr ⟨model, loaded, ?_⟩)
    have := evicts.room
    have := evicts.capacity.trans law.capacity
    omega

/-- A third model in a pool that has room for one. -/
theorem getOrLoad_iff_full :
    let system : System Unit := ⟨fun _ => .ok ⟨(), 600000, 0, 0⟩, none⟩
    let s := (run [.getOrLoad system "a" (.imageDir "a")] (new 1, [])).1
    ((∃ model t, s.getOrLoad system "b" (.imageDir "b") = (.ok model, t)) ↔ "b" ∈ s.lru ∨
        ∃ model, loadFrom system "b" (.imageDir "b") = .ok model ∧
          model.sizeBytes ≤ 1 * 1048576) ∧
      ∀ model t, s.getOrLoad system "b" (.imageDir "b") = (.ok model, t) → "b" ∈ t.lru ∧
        ∃ kept, kept <:+ s.lruOrder.erase "b" ∧ t.lruOrder = kept ++ ["b"] :=
  getOrLoad_iff _ (by decide) _ _ _

end ModelCache

end TribunusCompute.Cache
