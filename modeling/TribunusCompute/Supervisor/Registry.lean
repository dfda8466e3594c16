import TribunusCompute.Library.Keyed
import TribunusCompute.Library.Runs
import TribunusCompute.Streaming.Channel

/-!
# The registry of active requests, one lock at a time

`ActiveRequestRegistry` keeps its requests and the index of their public jobs behind two locks.
`insert` writes the index first, `remove` and `mark_terminal` write it last, and a request that
is taken out belongs to the thread that took it. A move of a thread is one lock taken and
released, or one access of a request the thread owns.
-/
namespace TribunusCompute.Supervisor

open Streaming

/-- What the registry keeps of a request; its sender is that of the request's own stream. -/
structure ActiveRequest where
  requestId : String
  publicJobId : String
  cancellationRequested : Bool
  terminalRecorded : Bool
  deriving DecidableEq, Repr

namespace ActiveRequest

def new (requestId publicJobId : String) : ActiveRequest :=
  ⟨requestId, publicJobId, false, false⟩

def ids (request : ActiveRequest) : String × String := (request.requestId, request.publicJobId)

end ActiveRequest

/-- Where a thread is in an operation of the registry. In `fail_all`, `later` are the ids it has
still to end. -/
inductive Place
  | idle
  /-- `insert` has written the index. -/
  | inserting (request : ActiveRequest)
  /-- `remove` has taken the request. -/
  | removing (request : ActiveRequest)
  /-- `mark_terminal` has taken the request. -/
  | taken (request : ActiveRequest) (outcome : GenerationEvent) (later : List String)
  /-- At `terminal_recorded.swap`. -/
  | unindexed (request : ActiveRequest) (outcome : GenerationEvent) (later : List String)
  /-- At `send_terminal`. -/
  | recorded (request : ActiveRequest) (outcome : GenerationEvent) (later : List String)
  /-- In the loop of `fail_all`. -/
  | draining (outcome : GenerationEvent) (later : List String)
  deriving DecidableEq, Repr

def Place.owns? : Place → Option (String × String)
  | .inserting request | .removing request | .taken request _ _ | .unindexed request _ _
  | .recorded request _ _ => some request.ids
  | .idle | .draining _ _ => none

/-- The ids of the request a thread owns while its job is in the index. -/
def Place.indexes? : Place → Option (String × String)
  | .inserting request | .removing request | .taken request _ _ => some request.ids
  | .idle | .unindexed _ _ _ | .recorded _ _ _ | .draining _ _ => none

theorem Place.owns?_of_indexes? {place : Place} {ids : String × String}
    (indexes : place.indexes? = some ids) : place.owns? = some ids := by
  cases place <;> first | exact indexes | cases indexes

theorem Place.indexes?_none {place : Place} (none_ : place.owns? = none) :
    place.indexes? = none := by
  rw [Option.eq_none_iff_forall_not_mem]
  intro ids indexes
  rw [Place.owns?_of_indexes? indexes] at none_
  cases none_

structure ActiveRequestRegistry (Thread : Type*) where
  requests : AList fun _ : String => ActiveRequest
  jobIndex : AList fun _ : String => String
  threads : Thread → Place
  /-- The terminal events sent, with the id of the request whose stream each entered. -/
  delivered : List (String × GenerationEvent)

inductive RegistryMove
  | insert (request : ActiveRequest)
  | remove (requestId : String)
  | markTerminal (requestId : String) (outcome : GenerationEvent)
  | requestCancellation (requestId : String)
  /-- With the keys in the order of the hash map. -/
  | failAll (message : String) (keys : List String)
  | proceed
  deriving DecidableEq, Repr

namespace ActiveRequestRegistry

variable {Thread : Type*}

def new : ActiveRequestRegistry Thread := ⟨∅, ∅, fun _ => .idle, []⟩

section
variable [DecidableEq Thread]

def goto (s : ActiveRequestRegistry Thread) (thread : Thread) (place : Place) :
    ActiveRequestRegistry Thread :=
  { s with threads := Function.update s.threads thread place }

/-- `requests.lock().remove(request_id)` of `mark_terminal`. -/
def take (s : ActiveRequestRegistry Thread) (thread : Thread) (requestId : String)
    (outcome : GenerationEvent) (later : List String) : ActiveRequestRegistry Thread :=
  match s.requests.lookup requestId with
  | some request =>
    { s with requests := s.requests.erase requestId }.goto thread (.taken request outcome later)
  | none => s.goto thread (.draining outcome later)

def requestCancellation (s : ActiveRequestRegistry Thread) (requestId : String) :
    ActiveRequestRegistry Thread :=
  match s.requests.lookup requestId with
  | some request =>
    if request.terminalRecorded || request.cancellationRequested then s
    else { s with
      requests := s.requests.insert requestId { request with cancellationRequested := true } }
  | none => s

def step (s : ActiveRequestRegistry Thread) : Thread × RegistryMove →
    Option (ActiveRequestRegistry Thread)
  | (thread, move) =>
    match s.threads thread, move with
    | .idle, .insert request =>
      some ({ s with jobIndex := s.jobIndex.insert request.publicJobId request.requestId }.goto
        thread (.inserting request))
    | .idle, .remove requestId =>
      match s.requests.lookup requestId with
      | some request =>
        some ({ s with requests := s.requests.erase requestId }.goto thread (.removing request))
      | none => some s
    | .idle, .markTerminal requestId outcome => some (s.take thread requestId outcome [])
    | .idle, .requestCancellation requestId => some (s.requestCancellation requestId)
    | .idle, .failAll message keys =>
      if keys.Perm s.requests.keys then some (s.goto thread (.draining (.error message) keys))
      else none
    | .inserting request, .proceed =>
      some ({ s with requests := s.requests.insert request.requestId request }.goto thread .idle)
    | .removing request, .proceed =>
      some ({ s with jobIndex := s.jobIndex.erase request.publicJobId }.goto thread .idle)
    | .taken request outcome later, .proceed =>
      some ({ s with jobIndex := s.jobIndex.erase request.publicJobId }.goto thread
        (.unindexed request outcome later))
    | .unindexed request outcome later, .proceed =>
      if request.terminalRecorded then some (s.goto thread (.draining outcome later))
      else some (s.goto thread (.recorded { request with terminalRecorded := true } outcome later))
    | .recorded request outcome later, .proceed =>
      some ({ s with delivered := s.delivered ++ [(request.requestId, outcome)] }.goto thread
        (.draining outcome later))
    | .draining outcome (requestId :: later), .proceed =>
      some (s.take thread requestId outcome later)
    | .draining _ [], .proceed => some (s.goto thread .idle)
    | _, _ => none

end

def inserted (moves : List (Thread × RegistryMove)) : List ActiveRequest :=
  moves.filterMap fun
    | (_, .insert request) => some request
    | _ => none

def Distinct (moves : List (Thread × RegistryMove)) : Prop :=
  ((inserted moves).map (·.requestId)).Nodup ∧ ((inserted moves).map (·.publicJobId)).Nodup

structure Lawful (s : ActiveRequestRegistry Thread) : Prop where
  one_terminal : ∀ requestId, (s.delivered.map Prod.fst).count requestId ≤ 1
  indexed : (∀ thread, s.threads thread = .idle) → ∀ jobId requestId,
    s.jobIndex.lookup jobId = some requestId ↔
      ∃ request, s.requests.lookup requestId = some request ∧ request.publicJobId = jobId

/-! ## Where every request is -/

/-- The ids that were given out, each once. -/
structure Apart (known : List (String × String)) : Prop where
  requestIds : (known.map Prod.fst).Nodup
  jobIds : (known.map Prod.snd).Nodup

theorem Apart.same_of_job {known : List (String × String)} (apart : Apart known)
    {ids ids' : String × String} (member : ids ∈ known) (member' : ids' ∈ known)
    (same : ids.2 = ids'.2) : ids = ids' :=
  List.inj_on_of_nodup_map apart.jobIds member member' same

/-- Every request given to the registry is in it, with one thread, or gone. -/
structure Held (known : List (String × String)) (s : ActiveRequestRegistry Thread) : Prop where
  registered : ∀ requestId request, s.requests.lookup requestId = some request →
    request.requestId = requestId ∧ request.ids ∈ known
  owned : ∀ thread ids, (s.threads thread).owns? = some ids →
    ids ∈ known ∧ s.requests.lookup ids.1 = none
  one_owner : ∀ thread other ids ids', (s.threads thread).owns? = some ids →
    (s.threads other).owns? = some ids' → ids.1 = ids'.1 → thread = other
  gone : ∀ requestId ∈ s.delivered.map Prod.fst, requestId ∈ known.map Prod.fst ∧
    s.requests.lookup requestId = none ∧
    ∀ thread ids, (s.threads thread).owns? = some ids → ids.1 ≠ requestId
  once : (s.delivered.map Prod.fst).Nodup
  index : ∀ jobId requestId, s.jobIndex.lookup jobId = some requestId ↔
    (∃ request, s.requests.lookup requestId = some request ∧ request.publicJobId = jobId) ∨
    ∃ thread, (s.threads thread).indexes? = some (requestId, jobId)

variable {known : List (String × String)} {s : ActiveRequestRegistry Thread} {thread : Thread}
  {place : Place}

theorem held_new : Held [] (new : ActiveRequestRegistry Thread) where
  registered _ _ found := nomatch found
  owned _ _ owns := nomatch owns
  one_owner _ _ _ _ owns := nomatch owns
  gone _ member := nomatch member
  once := List.nodup_nil
  index jobId requestId := by simp [new, Place.indexes?]

theorem Held.lookup_job (held : Held known s) (apart : Apart known) {ids : String × String}
    (at_ : (s.threads thread).indexes? = some ids) (requestId : String) :
    s.jobIndex.lookup ids.2 = some requestId ↔ requestId = ids.1 := by
  have member := (held.owned thread ids (Place.owns?_of_indexes? at_)).1
  rw [held.index]
  constructor
  · rintro (⟨other, found, job⟩ | ⟨other, there⟩)
    · obtain ⟨rfl, member'⟩ := held.registered requestId other found
      exact congrArg Prod.fst (apart.same_of_job member' member job)
    · have member' := (held.owned other _ (Place.owns?_of_indexes? there)).1
      exact congrArg Prod.fst (apart.same_of_job member' member rfl)
  · rintro rfl
    exact .inr ⟨thread, at_⟩

variable [DecidableEq Thread]

theorem update_cases (threads : Thread → Place) (thread other : Thread) (place : Place) :
    (other = thread ∧ Function.update threads thread place other = place) ∨
      (other ≠ thread ∧ Function.update threads thread place other = threads other) := by
  rcases em (other = thread) with rfl | apart
  · exact .inl ⟨rfl, Function.update_self _ _ _⟩
  · exact .inr ⟨apart, Function.update_of_ne apart _ _⟩

/-- A thread that goes on with no other request than its own adds no owner. -/
theorem owns_update {threads : Thread → Place}
    (keeps : place.owns? = none ∨ place.owns? = (threads thread).owns?) {other : Thread}
    {ids : String × String} (owns : (Function.update threads thread place other).owns? = some ids) :
    (threads other).owns? = some ids := by
  rcases update_cases threads thread other place with ⟨rfl, now⟩ | ⟨-, now⟩
  · rw [now] at owns
    rcases keeps with none_ | same
    · rw [none_] at owns
      cases owns
    · rwa [same] at owns
  · rwa [now] at owns

section
variable (held : Held known s)
include held

theorem Held.goto (before : (s.threads thread).indexes? = none) (after : place.indexes? = none)
    (keeps : place.owns? = none ∨ place.owns? = (s.threads thread).owns?) :
    Held known (s.goto thread place) where
  registered := held.registered
  owned other ids owns := held.owned other ids (owns_update keeps owns)
  one_owner other other' ids ids' owns owns' :=
    held.one_owner other other' ids ids' (owns_update keeps owns) (owns_update keeps owns')
  gone requestId member := by
    obtain ⟨there, absent, apart⟩ := held.gone requestId member
    exact ⟨there, absent, fun other ids owns => apart other ids (owns_update keeps owns)⟩
  once := held.once
  index jobId requestId := by
    refine (held.index jobId requestId).trans (or_congr_right (exists_congr fun other => ?_))
    dsimp only [ActiveRequestRegistry.goto]
    rcases update_cases s.threads thread other place with ⟨rfl, now⟩ | ⟨-, now⟩
    · rw [now, before, after]
    · rw [now]

theorem Held.unindex (apart : Apart known) {ids : String × String}
    (before : (s.threads thread).indexes? = some ids) (after : place.indexes? = none)
    (keeps : place.owns? = none ∨ place.owns? = (s.threads thread).owns?) :
    Held known ({ s with jobIndex := s.jobIndex.erase ids.2 }.goto thread place) where
  registered := held.registered
  owned other ids owns := held.owned other ids (owns_update keeps owns)
  one_owner other other' ids ids' owns owns' :=
    held.one_owner other other' ids ids' (owns_update keeps owns) (owns_update keeps owns')
  gone requestId member := by
    obtain ⟨there, absent, apart⟩ := held.gone requestId member
    exact ⟨there, absent, fun other ids owns => apart other ids (owns_update keeps owns)⟩
  once := held.once
  index jobId requestId := by
    have owns := Place.owns?_of_indexes? before
    have others (other : Thread) :
        (Function.update s.threads thread place other).indexes? = some (requestId, jobId) ↔
          other ≠ thread ∧ (s.threads other).indexes? = some (requestId, jobId) := by
      rcases update_cases s.threads thread other place with ⟨rfl, now⟩ | ⟨other_, now⟩
      · simp [after]
      · simp [other_]
    simp only [ActiveRequestRegistry.goto, others]
    rcases em (jobId = ids.2) with rfl | different
    · -- The request of the job is with this thread.
      rw [AList.lookup_erase]
      refine iff_of_false (fun found => nomatch found) ?_
      rintro (⟨request, found, job⟩ | ⟨other, other_, there⟩)
      · have own := (held.lookup_job apart before requestId).mp
          ((held.index _ _).mpr (.inl ⟨request, found, job⟩))
        have absent := (held.owned thread ids owns).2
        rw [← own, found] at absent
        cases absent
      · have own := (held.lookup_job apart before requestId).mp
          ((held.index _ _).mpr (.inr ⟨other, there⟩))
        exact other_ (held.one_owner other thread _ ids (Place.owns?_of_indexes? there) owns own)
    · rw [AList.lookup_erase_ne different]
      refine (held.index jobId requestId).trans (or_congr_right (exists_congr fun other => ?_))
      refine ⟨fun there => ⟨?_, there⟩, fun there => there.2⟩
      rintro rfl
      rw [before] at there
      exact different (congrArg Prod.snd (Option.some.inj there)).symm

theorem Held.begin {request : ActiveRequest} (idle : (s.threads thread).owns? = none)
    (requestId : request.requestId ∉ known.map Prod.fst)
    (jobId : request.publicJobId ∉ known.map Prod.snd) :
    Held (known ++ [request.ids])
      ({ s with jobIndex := s.jobIndex.insert request.publicJobId request.requestId }.goto thread
        (.inserting request)) := by
  have unregistered : s.requests.lookup request.requestId = none := by
    rw [Option.eq_none_iff_forall_not_mem]
    intro found there
    obtain ⟨same, member⟩ := held.registered _ found there
    exact requestId (List.mem_map.mpr ⟨found.ids, member, same⟩)
  -- Whatever a thread owns now it has owned before, save for the new request.
  have cases_ (other : Thread) (ids : String × String)
      (owns : (Function.update s.threads thread (.inserting request) other).owns? = some ids) :
      (other = thread ∧ ids = request.ids) ∨
        (other ≠ thread ∧ (s.threads other).owns? = some ids ∧ ids.1 ≠ request.requestId) := by
    rcases update_cases s.threads thread other (.inserting request) with ⟨rfl, now⟩ | ⟨other_, now⟩
    · rw [now] at owns
      exact .inl ⟨rfl, (Option.some.inj owns).symm⟩
    · rw [now] at owns
      refine .inr ⟨other_, owns, fun same => ?_⟩
      exact requestId (List.mem_map.mpr ⟨ids, (held.owned other ids owns).1, same⟩)
  refine ⟨?_, ?_, ?_, ?_, held.once, ?_⟩
  · intro requestId' found there
    obtain ⟨same, member⟩ := held.registered requestId' found there
    exact ⟨same, List.mem_append_left _ member⟩
  · intro other ids owns
    rcases cases_ other ids owns with ⟨-, rfl⟩ | ⟨-, owns, -⟩
    · exact ⟨by simp, unregistered⟩
    · obtain ⟨member, absent⟩ := held.owned other ids owns
      exact ⟨List.mem_append_left _ member, absent⟩
  · intro other other' ids ids' owns owns' same
    rcases cases_ other ids owns with ⟨rfl, rfl⟩ | ⟨-, owns, apart⟩ <;>
      rcases cases_ other' ids' owns' with ⟨rfl, rfl⟩ | ⟨-, owns', apart'⟩
    · rfl
    · exact absurd same.symm apart'
    · exact absurd same apart
    · exact held.one_owner other other' ids ids' owns owns' same
  · intro requestId' member
    obtain ⟨there, absent, apart⟩ := held.gone requestId' member
    refine ⟨by simp [there], absent, fun other ids owns => ?_⟩
    rcases cases_ other ids owns with ⟨-, rfl⟩ | ⟨-, owns, -⟩
    · rintro rfl
      exact requestId there
    · exact apart other ids owns
  · intro job id
    have idle' := Place.indexes?_none idle
    have others (other : Thread) :
        (Function.update s.threads thread (.inserting request) other).indexes? = some (id, job) ↔
          (other = thread ∧ request.ids = (id, job)) ∨
            (s.threads other).indexes? = some (id, job) := by
      rcases update_cases s.threads thread other (.inserting request) with
        ⟨rfl, now⟩ | ⟨other_, now⟩
      · rw [now, idle']
        simp [Place.indexes?]
      · simp [other_]
    simp only [ActiveRequestRegistry.goto, others]
    rcases em (job = request.publicJobId) with rfl | different
    · -- A fresh job id has no entry, neither of a registered request nor of one in hand.
      rw [AList.lookup_insert]
      have fresh : s.jobIndex.lookup request.publicJobId = none := by
        rw [Option.eq_none_iff_forall_not_mem]
        intro id there
        rcases (held.index _ id).mp there with ⟨found, registered, same⟩ | ⟨other, indexes⟩
        · have member := (held.registered id found registered).2
          exact jobId (List.mem_map.mpr ⟨found.ids, member, same⟩)
        · have member := (held.owned other _ (Place.owns?_of_indexes? indexes)).1
          exact jobId (List.mem_map.mpr ⟨_, member, rfl⟩)
      constructor
      · rintro ⟨⟩
        exact .inr ⟨thread, .inl ⟨rfl, rfl⟩⟩
      · rintro (⟨found, registered, same⟩ | ⟨other, ⟨-, same⟩ | indexes⟩)
        · have there := (held.index request.publicJobId id).mpr (.inl ⟨found, registered, same⟩)
          rw [fresh] at there
          cases there
        · exact congrArg some (congrArg Prod.fst same)
        · have there := (held.index request.publicJobId id).mpr (.inr ⟨other, indexes⟩)
          rw [fresh] at there
          cases there
    · rw [AList.lookup_insert_ne different]
      refine (held.index job id).trans (or_congr_right ⟨?_, ?_⟩)
      · rintro ⟨other, indexes⟩
        exact ⟨other, .inr indexes⟩
      · rintro ⟨other, ⟨-, same⟩ | indexes⟩
        · exact absurd (congrArg Prod.snd same).symm different
        · exact ⟨other, indexes⟩

theorem Held.register {request : ActiveRequest}
    (before : s.threads thread = .inserting request) :
    Held known ({ s with requests := s.requests.insert request.requestId request }.goto thread
      .idle) := by
  have owns : (s.threads thread).owns? = some request.ids := by rw [before]; rfl
  obtain ⟨member, absent⟩ := held.owned thread request.ids owns
  have others (other : Thread) (ids : String × String)
      (owns' : (Function.update s.threads thread .idle other).owns? = some ids) :
      (s.threads other).owns? = some ids ∧ ids.1 ≠ request.requestId := by
    rcases update_cases s.threads thread other .idle with ⟨rfl, now⟩ | ⟨other_, now⟩
    · rw [now] at owns'
      cases owns'
    · rw [now] at owns'
      exact ⟨owns', fun same =>
        other_ (held.one_owner other thread ids request.ids owns' owns same)⟩
  refine ⟨?_, ?_, ?_, ?_, held.once, ?_⟩
  · intro id found there
    dsimp only [ActiveRequestRegistry.goto] at there
    rcases Keyed.lookup_insert_eq_some_iff.mp there with ⟨rfl, rfl⟩ | ⟨-, there⟩
    · exact ⟨rfl, member⟩
    · exact held.registered id found there
  · intro other ids owns'
    obtain ⟨owns', apart⟩ := others other ids owns'
    obtain ⟨member', absent'⟩ := held.owned other ids owns'
    exact ⟨member', (AList.lookup_insert_ne apart).trans absent'⟩
  · intro other other' ids ids' owns' owns'' same
    exact held.one_owner other other' ids ids' (others other ids owns').1
      (others other' ids' owns'').1 same
  · intro id gone
    obtain ⟨there, absent', apart⟩ := held.gone id gone
    have different : id ≠ request.requestId := (apart thread request.ids owns).symm
    exact ⟨there, (AList.lookup_insert_ne different).trans absent',
      fun other ids owns' => apart other ids (others other ids owns').1⟩
  · intro job id
    have indexes (other : Thread) :
        (Function.update s.threads thread .idle other).indexes? = some (id, job) ↔
          other ≠ thread ∧ (s.threads other).indexes? = some (id, job) := by
      rcases update_cases s.threads thread other .idle with ⟨rfl, now⟩ | ⟨other_, now⟩
      · simp [Place.indexes?]
      · simp [other_]
    have own : (s.threads thread).indexes? = some (id, job) ↔ request.ids = (id, job) := by
      rw [before]
      exact Option.some_inj
    -- The entry of the request stands for the map from now on, and the others stay.
    refine (held.index job id).trans ?_
    simp only [ActiveRequestRegistry.goto, indexes]
    constructor
    · rintro (⟨found, registered, same⟩ | ⟨other, there⟩)
      · have different : id ≠ request.requestId := by
          rintro rfl
          rw [show s.requests.lookup request.requestId = none from absent] at registered
          cases registered
        exact .inl ⟨found, (AList.lookup_insert_ne different).trans registered, same⟩
      · rcases em (other = thread) with rfl | other_
        · have ids := own.mp there
          obtain ⟨rfl, rfl⟩ := Prod.mk.inj ids
          exact .inl ⟨request, AList.lookup_insert s.requests, rfl⟩
        · exact .inr ⟨other, other_, there⟩
    · rintro (⟨found, registered, same⟩ | ⟨other, -, there⟩)
      · rcases Keyed.lookup_insert_eq_some_iff.mp registered with ⟨rfl, rfl⟩ | ⟨-, registered⟩
        · exact .inr ⟨thread, own.mpr (by rw [← same]; rfl)⟩
        · exact .inl ⟨found, registered, same⟩
      · exact .inr ⟨other, there⟩

theorem Held.take {request : ActiveRequest} {id : String} (free : (s.threads thread).owns? = none)
    (found : s.requests.lookup id = some request) (owns : place.owns? = some request.ids)
    (indexes : place.indexes? = some request.ids) :
    Held known ({ s with requests := s.requests.erase id }.goto thread place) := by
  obtain ⟨rfl, member⟩ := held.registered id request found
  -- A registered request is in no thread's hands.
  have absent {ids : String × String} {other : Thread} (owns' : (s.threads other).owns? = some ids) :
      ids.1 ≠ request.requestId := by
    intro same
    have none_ := (held.owned other ids owns').2
    rw [same, found] at none_
    cases none_
  have cases_ (other : Thread) (ids : String × String)
      (owns' : (Function.update s.threads thread place other).owns? = some ids) :
      (other = thread ∧ ids = request.ids) ∨ (s.threads other).owns? = some ids := by
    rcases update_cases s.threads thread other place with ⟨rfl, now⟩ | ⟨-, now⟩
    · rw [now, owns] at owns'
      exact .inl ⟨rfl, (Option.some.inj owns').symm⟩
    · rw [now] at owns'
      exact .inr owns'
  refine ⟨?_, ?_, ?_, ?_, held.once, ?_⟩
  · intro id other there
    dsimp only [ActiveRequestRegistry.goto] at there
    exact held.registered id other (Keyed.lookup_erase_eq_some_iff.mp there).2
  · intro other ids owns'
    rcases cases_ other ids owns' with ⟨-, rfl⟩ | owns'
    · exact ⟨member, AList.lookup_erase _ _⟩
    · obtain ⟨member', absent'⟩ := held.owned other ids owns'
      exact ⟨member', (AList.lookup_erase_ne (absent owns')).trans absent'⟩
  · intro other other' ids ids' owns' owns'' same
    rcases cases_ other ids owns' with ⟨rfl, rfl⟩ | before <;>
      rcases cases_ other' ids' owns'' with ⟨rfl, rfl⟩ | before'
    · rfl
    · exact absurd same.symm (absent before')
    · exact absurd same (absent before)
    · exact held.one_owner other other' ids ids' before before' same
  · intro id gone
    obtain ⟨there, absent', apart⟩ := held.gone id gone
    have different : id ≠ request.requestId := by
      rintro rfl
      rw [found] at absent'
      cases absent'
    refine ⟨there, (AList.lookup_erase_ne different).trans absent', fun other ids owns' => ?_⟩
    rcases cases_ other ids owns' with ⟨-, rfl⟩ | owns'
    · exact different.symm
    · exact apart other ids owns'
  · intro job id
    have others (other : Thread) :
        (Function.update s.threads thread place other).indexes? = some (id, job) ↔
          (other = thread ∧ request.ids = (id, job)) ∨
            (s.threads other).indexes? = some (id, job) := by
      rcases update_cases s.threads thread other place with ⟨rfl, now⟩ | ⟨other_, now⟩
      · rw [now, indexes, Place.indexes?_none free]
        simp
      · simp [other_]
    -- The entry of the request stands for the thread from now on, and the others stay.
    refine (held.index job id).trans ?_
    simp only [ActiveRequestRegistry.goto, others]
    constructor
    · rintro (⟨other, registered, same⟩ | ⟨other, there⟩)
      · rcases em (id = request.requestId) with rfl | different
        · rw [found] at registered
          cases registered
          exact .inr ⟨thread, .inl ⟨rfl, by rw [← same]; rfl⟩⟩
        · exact .inl ⟨other, (AList.lookup_erase_ne different).trans registered, same⟩
      · exact .inr ⟨other, .inr there⟩
    · rintro (⟨other, registered, same⟩ | ⟨other, ⟨-, same⟩ | there⟩)
      · exact .inl ⟨other, (Keyed.lookup_erase_eq_some_iff.mp registered).2, same⟩
      · obtain ⟨rfl, rfl⟩ := Prod.mk.inj same
        exact .inl ⟨request, found, rfl⟩
      · exact .inr ⟨other, there⟩

theorem Held.deliver {request : ActiveRequest} {outcome : GenerationEvent}
    (before : (s.threads thread).owns? = some request.ids)
    (indexes : (s.threads thread).indexes? = none) (after : place.owns? = none) :
    Held known ({ s with delivered := s.delivered ++ [(request.requestId, outcome)] }.goto thread
      place) := by
  obtain ⟨member, absent⟩ := held.owned thread request.ids before
  have went := held.goto indexes (Place.indexes?_none after) (.inl after)
  have members (id : String)
      (gone : id ∈ (s.delivered ++ [(request.requestId, outcome)]).map Prod.fst) :
      id ∈ s.delivered.map Prod.fst ∨ id = request.requestId := by simpa using gone
  refine ⟨went.registered, went.owned, went.one_owner, ?_, ?_, went.index⟩
  · intro id gone
    rcases members id gone with earlier | rfl
    · exact went.gone id earlier
    · refine ⟨List.mem_map.mpr ⟨request.ids, member, rfl⟩, absent, fun other ids owns same => ?_⟩
      have there := owns_update (.inl after) owns
      obtain rfl := held.one_owner other thread ids request.ids there before same
      have now : (Function.update s.threads other place other).owns? = some ids := owns
      rw [Function.update_self, after] at now
      cases now
  · dsimp only [ActiveRequestRegistry.goto]
    rw [List.map_append, List.nodup_append]
    refine ⟨held.once, by simp, fun id earlier id' now => ?_⟩
    obtain rfl : id' = request.requestId := by simpa using now
    exact ((held.gone id earlier).2.2 thread request.ids before).symm

omit [DecidableEq Thread] in
theorem Held.requestCancellation (id : String) : Held known (s.requestCancellation id) := by
  unfold ActiveRequestRegistry.requestCancellation
  cases found : s.requests.lookup id with
  | none => exact held
  | some request =>
    dsimp only
    split
    next => exact held
    next =>
      obtain ⟨rfl, member⟩ := held.registered id request found
      have lookup (other : String) :
          (s.requests.insert request.requestId { request with cancellationRequested := true }).lookup
              other = none ↔ s.requests.lookup other = none := by
        rcases em (other = request.requestId) with rfl | different
        · rw [AList.lookup_insert, found]
          exact iff_of_false (by simp) (by simp)
        · rw [AList.lookup_insert_ne different]
      refine ⟨?_, ?_, held.one_owner, ?_, held.once, ?_⟩
      · intro other request' there
        rcases Keyed.lookup_insert_eq_some_iff.mp there with ⟨rfl, rfl⟩ | ⟨-, there⟩
        · exact ⟨rfl, member⟩
        · exact held.registered other request' there
      · intro thread ids owns
        obtain ⟨member', absent⟩ := held.owned thread ids owns
        exact ⟨member', (lookup _).mpr absent⟩
      · intro other gone
        obtain ⟨there, absent, apart⟩ := held.gone other gone
        exact ⟨there, (lookup _).mpr absent, apart⟩
      · intro job other
        refine (held.index job other).trans (or_congr_left ?_)
        rcases em (other = request.requestId) with rfl | different
        · rw [AList.lookup_insert, found]
          simp
        · rw [AList.lookup_insert_ne different]

theorem Held.takes (free : (s.threads thread).owns? = none) (id : String)
    (outcome : GenerationEvent) (later : List String) :
    Held known (s.take thread id outcome later) := by
  unfold ActiveRequestRegistry.take
  cases found : s.requests.lookup id with
  | some request => exact held.take free found rfl rfl
  | none => exact held.goto (Place.indexes?_none free) rfl (.inl rfl)

def given : Thread × RegistryMove → List (String × String)
  | (_, .insert request) => [request.ids]
  | _ => []

theorem Held.step {move : Thread × RegistryMove} {t : ActiveRequestRegistry Thread}
    (apart : Apart (known ++ given move)) (taken : s.step move = some t) :
    Held (known ++ given move) t := by
  obtain ⟨thread, move⟩ := move
  have before : Apart known := by
    obtain ⟨requestIds, jobIds⟩ := apart
    rw [List.map_append] at requestIds jobIds
    exact ⟨requestIds.of_append_left, jobIds.of_append_left⟩
  unfold ActiveRequestRegistry.step at taken
  dsimp only at taken
  split at taken
  next request at_ =>
    -- the ids of a new request are none of those known
    cases taken
    obtain ⟨requestIds, jobIds⟩ := apart
    rw [List.map_append, List.nodup_append] at requestIds jobIds
    refine held.begin (by rw [at_]; rfl) (fun there => ?_) (fun there => ?_)
    · exact requestIds.2.2 _ there _ (by simp [given, ActiveRequest.ids]) rfl
    · exact jobIds.2.2 _ there _ (by simp [given, ActiveRequest.ids]) rfl
  next id at_ =>
    simp only [given, List.append_nil]
    cases found : s.requests.lookup id with
    | some request =>
      rw [found] at taken
      cases taken
      exact held.take (by rw [at_]; rfl) found rfl rfl
    | none =>
      rw [found] at taken
      cases taken
      exact held
  next id outcome at_ =>
    cases taken
    simp only [given, List.append_nil]
    exact held.takes (by rw [at_]; rfl) id outcome []
  next id at_ =>
    cases taken
    simp only [given, List.append_nil]
    exact held.requestCancellation id
  next message keys at_ =>
    -- the keys are a snapshot, which no later move changes
    simp only [given, List.append_nil]
    split at taken <;> cases taken
    exact held.goto (by rw [at_]; rfl) rfl (.inl rfl)
  next request at_ =>
    cases taken
    simp only [given, List.append_nil]
    exact held.register at_
  next request at_ =>
    cases taken
    simp only [given, List.append_nil]
    have indexes : (s.threads thread).indexes? = some request.ids := by rw [at_]; rfl
    exact held.unindex before indexes rfl (.inl rfl)
  next request outcome later at_ =>
    cases taken
    simp only [given, List.append_nil]
    have indexes : (s.threads thread).indexes? = some request.ids := by rw [at_]; rfl
    exact held.unindex before indexes rfl (.inr (by rw [at_]; rfl))
  next request outcome later at_ =>
    simp only [given, List.append_nil]
    split at taken <;> cases taken
    · exact held.goto (by rw [at_]; rfl) rfl (.inl rfl)
    · exact held.goto (by rw [at_]; rfl) rfl (.inr (by rw [at_]; rfl))
  next request outcome later at_ =>
    cases taken
    simp only [given, List.append_nil]
    exact held.deliver (by rw [at_]; rfl) (by rw [at_]; rfl) rfl
  next outcome id later at_ =>
    cases taken
    simp only [given, List.append_nil]
    exact held.takes (by rw [at_]; rfl) id outcome later
  next outcome at_ =>
    cases taken
    simp only [given, List.append_nil]
    exact held.goto (by rw [at_]; rfl) rfl (.inl rfl)
  next => cases taken

end

omit [DecidableEq Thread] in
theorem Held.lawful (held : Held known s) : s.Lawful where
  one_terminal requestId := List.nodup_iff_count_le_one.mp held.once requestId
  indexed idle jobId requestId := by
    refine (held.index jobId requestId).trans ⟨?_, .inl⟩
    rintro (registered | ⟨thread, indexes⟩)
    · exact registered
    · rw [idle thread] at indexes
      cases indexes

omit [DecidableEq Thread] in
theorem given_inserted (moves : List (Thread × RegistryMove)) :
    moves.flatMap given = (inserted moves).map ActiveRequest.ids := by
  induction moves with
  | nil => rfl
  | cons move moves ih =>
    obtain ⟨thread, move⟩ := move
    cases move with
    | insert request => simpa [given, inserted] using ih
    | _ => simpa [given, inserted] using ih

theorem held_run {moves : List (Thread × RegistryMove)} (apart : Apart (moves.flatMap given))
    (run : Runs.exec step new moves = some s) : Held (moves.flatMap given) s := by
  induction moves using List.reverseRecOn generalizing s with
  | nil =>
    cases run
    exact held_new
  | append_singleton moves move ih =>
    rw [Runs.exec_append] at run
    obtain ⟨before, earlier, taken⟩ := Option.bind_eq_some_iff.mp run
    rw [Runs.exec_cons_iff] at taken
    obtain ⟨after, taken, last⟩ := taken
    cases last
    rw [List.flatMap_append, List.flatMap_singleton] at apart ⊢
    have first : Apart (moves.flatMap given) := by
      obtain ⟨requestIds, jobIds⟩ := apart
      rw [List.map_append] at requestIds jobIds
      exact ⟨requestIds.of_append_left, jobIds.of_append_left⟩
    exact (ih first earlier).step apart taken

/-- Whatever the threads do with distinct requests, each stream gets one terminal event at most,
and between operations the index is that of the requests. -/
theorem registry_lawful {moves : List (Thread × RegistryMove)} (distinct : Distinct moves)
    (run : Runs.exec step new moves = some s) : s.Lawful := by
  have apart : Apart (moves.flatMap given) := by
    rw [given_inserted]
    constructor
    · rw [List.map_map]
      exact distinct.1
    · rw [List.map_map]
      exact distinct.2
  exact (held_run apart run).lawful

def endedTwice : List (Fin 3 × RegistryMove) :=
  [(0, .insert (.new "gen-1" "job-1")), (0, .proceed), (2, .insert (.new "gen-2" "job-2")),
    (1, .failAll "worker process exited" ["gen-1"]), (0, .markTerminal "gen-1" .done),
    (1, .proceed), (0, .proceed), (2, .proceed), (0, .proceed), (0, .proceed), (0, .proceed),
    (1, .proceed)]

theorem registry_lawful_endedTwice :
    ∃ s, Runs.exec step new endedTwice = some s ∧ s.Lawful ∧
      s.delivered = [("gen-1", .done)] ∧ s.jobIndex.lookup "job-2" = some "gen-2" := by
  have sent : ((Runs.exec step new endedTwice).map fun s =>
      (s.delivered, s.jobIndex.lookup "job-2")) =
        some ([("gen-1", .done)], some "gen-2") := by decide
  obtain ⟨s, run, same⟩ := Option.map_eq_some_iff.mp sent
  exact ⟨s, run, registry_lawful ⟨by decide, by decide⟩ run, congrArg Prod.fst same,
    congrArg Prod.snd same⟩

end ActiveRequestRegistry

end TribunusCompute.Supervisor
