import TribunusCompute.Library.Keyed
import TribunusCompute.Library.Runs
import TribunusCompute.Supervisor.Runtime

/-!
# Calls of `start_generation` against the fault path

A call looks at the phase, registers its request and sends the command. The event reader and the
watchdog mark the worker faulted, fail what is registered by then, and exit. A request that is
registered behind the last of these is never ended. Requests that come before are ended once
each.
-/
namespace TribunusCompute.Supervisor

/-- Where a call of `start_generation` is. -/
inductive CallPlace
  | entered
  /-- Past the look at the phase, at `contains`. -/
  | admitted
  | inserting
  | sending
  /-- The command was not sent. -/
  | removing (e : EngineError)
  | returned (result : Except EngineError Unit)
  deriving DecidableEq

def CallPlace.early : CallPlace → Bool
  | .entered | .admitted | .inserting => true
  | _ => false

def CallPlace.inFlight : CallPlace → Bool
  | .sending | .removing _ => true
  | _ => false

def CallPlace.inserted (place : CallPlace) : Prop :=
  place.inFlight = true ∨ place = .returned (.ok ())

theorem CallPlace.inserted.not_early {place : CallPlace} (inserted : place.inserted) :
    place.early = false := by
  rcases inserted with flies | rfl
  · cases place <;> first | rfl | cases flies
  · rfl

structure Call where
  requestId : String
  place : CallPlace
  terminals : ℕ
  deriving DecidableEq

/-- Where the event reader or the watchdog is. -/
inductive FaultPlace
  /-- In its loop. -/
  | running
  /-- The watchdog is past the terminal event of a request that is out of time. -/
  | killing
  /-- At `fail_all`. -/
  | failing
  /-- In the loop of `fail_all`, with the ids it has still to end. -/
  | draining (later : List String)
  | exited
  deriving DecidableEq, Repr

/-- The supervisor, as far as requests are concerned. The registry gives the number of the call
for a request id. -/
structure Generations where
  phase : WorkerLifecyclePhase
  requests : AList fun _ : String => ℕ
  calls : List Call
  reader : FaultPlace
  watchdog : FaultPlace

/-- What the event reader or the watchdog does next. -/
inductive FaultMove
  /-- `mark_terminal` for a request: a frame ended it, or its time is over. -/
  | endRequest (requestId : String)
  /-- A frame changes the phase. -/
  | store (phase : WorkerLifecyclePhase)
  /-- The worker is gone or goes: `mark_faulted`. -/
  | fault
  /-- `is_faulted` holds. -/
  | notice
  /-- `fail_all` reads the keys, in the order of the hash map. -/
  | collect (keys : List String)
  | proceed
  deriving DecidableEq, Repr

inductive GenerationMove
  | start (requestId : String)
  /-- A call's next access, with the result of the command. -/
  | call (number : ℕ) (sent : Except EngineError Unit)
  | reader (move : FaultMove)
  | watchdog (move : FaultMove)
  deriving DecidableEq

namespace Generations

def launched : Generations := ⟨.absent, ∅, [], .running, .running⟩

def markTerminal (s : Generations) (requestId : String) : Generations :=
  match s.requests.lookup requestId with
  | some number =>
    { s with
      requests := s.requests.erase requestId
      calls := s.calls.modify number fun call => { call with terminals := call.terminals + 1 } }
  | none => s

/-- `fail_all`, up to the exit of its thread. -/
def failAll (s : Generations) : FaultPlace → FaultMove → Option (Generations × FaultPlace)
  | .failing, .collect keys =>
    if keys.Perm s.requests.keys then some (s, .draining keys) else none
  | .draining (requestId :: later), .proceed => some (s.markTerminal requestId, .draining later)
  | .draining [], .proceed => some (s, .exited)
  | _, _ => none

def stepReader (s : Generations) (move : FaultMove) : Option Generations :=
  match s.reader, move with
  | .running, .endRequest requestId => some (s.markTerminal requestId)
  | .running, .store phase => some { s with phase }
  | .running, .fault => some { s with phase := .failed, reader := .failing }
  | .running, .notice => if s.phase = .failed then some { s with reader := .failing } else none
  | place, move => (s.failAll place move).map fun (s, place) => { s with reader := place }

/-- The watchdog exits without `fail_all` where it finds the worker marked, and after a request
that is out of time. -/
def stepWatchdog (s : Generations) (move : FaultMove) : Option Generations :=
  match s.watchdog, move with
  | .running, .endRequest requestId => some { s.markTerminal requestId with watchdog := .killing }
  | .killing, .proceed => some { s with phase := .failed, watchdog := .exited }
  | .running, .fault => some { s with phase := .failed, watchdog := .failing }
  | .running, .notice => if s.phase = .failed then some { s with watchdog := .exited } else none
  | place, move => (s.failAll place move).map fun (s, place) => { s with watchdog := place }

def goto (s : Generations) (number : ℕ) (place : CallPlace) : Generations :=
  { s with calls := s.calls.modify number fun call => { call with place } }

def stepCall (s : Generations) (number : ℕ) (sent : Except EngineError Unit) :
    Option Generations :=
  match s.calls[number]? with
  | none => none
  | some call =>
    match call.place with
    | .entered =>
      match checkReady s.phase with
      | .ok () => some (s.goto number .admitted)
      | .error e => some (s.goto number (.returned (.error e)))
    | .admitted =>
      if call.requestId ∈ s.requests then
        some (s.goto number (.returned (.error ⟨.modelBusy,
          "a generation request is already active: " ++ call.requestId⟩)))
      else some (s.goto number .inserting)
    | .inserting =>
      some ({ s with requests := s.requests.insert call.requestId number }.goto number .sending)
    | .sending =>
      match sent with
      | .ok () => some (s.goto number (.returned (.ok ())))
      | .error e => some (s.goto number (.removing e))
    | .removing e =>
      some ({ s with requests := s.requests.erase call.requestId }.goto number
        (.returned (.error e)))
    | .returned _ => none

def step (s : Generations) : GenerationMove → Option Generations
  | .start requestId => some { s with calls := s.calls ++ [⟨requestId, .entered, 0⟩] }
  | .call number sent => s.stepCall number sent
  | .reader move => s.stepReader move
  | .watchdog move => s.stepWatchdog move

/-- Once both threads have exited and no call is in progress, nothing is registered and each
request that was accepted got one terminal event. -/
def Settled (s : Generations) : Prop :=
  s.reader = .exited → s.watchdog = .exited →
    (∀ call ∈ s.calls, ∃ result, call.place = .returned result) →
    s.requests.keys = [] ∧
      ∀ call ∈ s.calls, call.place = .returned (.ok ()) → call.terminals = 1

/-- Where the move registers a request, the event reader or the watchdog has still to fail what
is registered, and the id belongs to no other request. -/
def insertsCovered (s : Generations) : GenerationMove → Bool
  | .call number _ =>
    match s.calls[number]? with
    | some ⟨requestId, .inserting, _⟩ =>
      (s.reader = .running || s.reader = .failing || s.watchdog = .failing) &&
        requestId ∉ s.requests &&
        s.calls.all fun call => !(call.requestId = requestId && call.place.inFlight)
    | _ => true
  | _ => true

/-! ## What is registered is going to be ended -/

def readerEnds (requestId : String) : FaultPlace → Prop
  | .running | .failing => True
  | .draining later => requestId ∈ later
  | .killing | .exited => False

def watchdogEnds (requestId : String) : FaultPlace → Prop
  | .failing => True
  | .draining later => requestId ∈ later
  | .running | .killing | .exited => False

/-- What holds while every request is registered before the last thread reads the keys. -/
structure Covered (s : Generations) : Prop where
  registered : ∀ requestId number, s.requests.lookup requestId = some number →
    ∃ call, s.calls[number]? = some call ∧ call.requestId = requestId ∧ call.terminals = 0 ∧
      call.place.inserted
  ended : ∀ (number : ℕ) (call : Call), s.calls[number]? = some call → call.place.inserted →
    s.requests.lookup call.requestId ≠ some number → call.terminals = 1
  fresh : ∀ (number : ℕ) (call : Call), s.calls[number]? = some call → call.place.early = true →
    call.terminals = 0
  own : ∀ (number : ℕ) (call : Call), s.calls[number]? = some call → call.place.inFlight = true →
    ∀ other, s.requests.lookup call.requestId = some other → other = number
  drained : ∀ requestId number, s.requests.lookup requestId = some number →
    readerEnds requestId s.reader ∨ watchdogEnds requestId s.watchdog

theorem covered_launched : launched.Covered where
  registered _ _ found := nomatch found
  ended _ _ found := nomatch found
  fresh _ _ found := nomatch found
  own _ _ found := nomatch found
  drained _ _ found := nomatch found

theorem modify_cases {calls : List Call} {f : Call → Call} {number other : ℕ} {call : Call}
    (found : (calls.modify number f)[other]? = some call) :
    (other = number ∧ ∃ old, calls[number]? = some old ∧ call = f old) ∨
      (other ≠ number ∧ calls[other]? = some call) := by
  rcases em (other = number) with rfl | apart
  · rw [List.getElem?_modify_eq] at found
    obtain ⟨old, there, same⟩ := Option.map_eq_some_iff.mp found
    exact .inl ⟨rfl, old, there, same.symm⟩
  · rw [List.getElem?_modify_ne f calls (Ne.symm apart)] at found
    exact .inr ⟨apart, found⟩

variable {s t : Generations}

theorem lookup_markTerminal {requestId other : String} {number : ℕ}
    (found : (s.markTerminal requestId).requests.lookup other = some number) :
    other ≠ requestId ∧ s.requests.lookup other = some number := by
  unfold markTerminal at found
  cases there : s.requests.lookup requestId with
  | none =>
    rw [there] at found
    refine ⟨?_, found⟩
    rintro rfl
    rw [there] at found
    cases found
  | some first =>
    rw [there] at found
    exact Keyed.lookup_erase_eq_some_iff.mp found

theorem markTerminal_threads (s : Generations) (requestId : String) :
    (s.markTerminal requestId).reader = s.reader ∧
      (s.markTerminal requestId).watchdog = s.watchdog := by
  unfold markTerminal
  split <;> exact ⟨rfl, rfl⟩

theorem failAll_cases {place place' : FaultPlace} {move : FaultMove}
    (taken : s.failAll place move = some (t, place')) :
    (∃ keys, place = .failing ∧ t = s ∧ keys.Perm s.requests.keys ∧ place' = .draining keys) ∨
    (∃ requestId later, place = .draining (requestId :: later) ∧ t = s.markTerminal requestId ∧
      place' = .draining later) ∨
    (place = .draining [] ∧ t = s ∧ place' = .exited) := by
  unfold failAll at taken
  split at taken
  next keys =>
    split at taken
    next perm =>
      cases taken
      exact .inl ⟨keys, rfl, rfl, perm, rfl⟩
    next => cases taken
  next requestId later =>
    cases taken
    exact .inr (.inl ⟨requestId, later, rfl, rfl, rfl⟩)
  next =>
    cases taken
    exact .inr (.inr ⟨rfl, rfl, rfl⟩)
  next => cases taken

theorem mem_keys_of_lookup {keys : List String} (perm : keys.Perm s.requests.keys)
    {requestId : String} {number : ℕ} (found : s.requests.lookup requestId = some number) :
    requestId ∈ keys := by
  refine perm.mem_iff.mpr (AList.mem_keys.mp ?_)
  exact AList.lookup_isSome.mp (by rw [found]; rfl)

section
variable (covered : s.Covered)
include covered

theorem Covered.start (requestId : String) :
    Covered { s with calls := s.calls ++ [⟨requestId, .entered, 0⟩] } := by
  have before (number : ℕ) (call : Call)
      (found : (s.calls ++ [⟨requestId, .entered, 0⟩])[number]? = some call) :
      s.calls[number]? = some call ∨ call = ⟨requestId, .entered, 0⟩ := by
    rcases Nat.lt_or_ge number s.calls.length with inside | outside
    · rw [List.getElem?_append_left inside] at found
      exact .inl found
    · rw [List.getElem?_append_right outside, List.getElem?_singleton] at found
      split at found <;> cases found
      exact .inr rfl
  refine ⟨?_, ?_, ?_, ?_, covered.drained⟩
  · intro id number found
    obtain ⟨call, there, rest⟩ := covered.registered id number found
    exact ⟨call, List.getElem?_append_left (List.getElem?_eq_some_iff.mp there).1 ▸ there, rest⟩
  · intro number call found inserted absent
    rcases before number call found with there | rfl
    · exact covered.ended number call there inserted absent
    · rcases inserted with flies | returned
      · cases flies
      · cases returned
  · intro number call found early
    rcases before number call found with there | rfl
    · exact covered.fresh number call there early
    · rfl
  · intro number call found flies
    rcases before number call found with there | rfl
    · exact covered.own number call there flies
    · cases flies

theorem Covered.goto {number : ℕ} {old : Call} (there : s.calls[number]? = some old)
    {place : CallPlace} (inserted : place.inserted ↔ old.place.inserted)
    (flies : place.inFlight = true → old.place.inFlight = true)
    (early : place.early = true → old.place.early = true) :
    Covered (s.goto number place) := by
  have before (other : ℕ) (call : Call) (found : (s.goto number place).calls[other]? = some call) :
      (other = number ∧ call = { old with place }) ∨ s.calls[other]? = some call := by
    rcases modify_cases found with ⟨rfl, old', there', same⟩ | ⟨-, found⟩
    · rw [there] at there'
      cases there'
      exact .inl ⟨rfl, same⟩
    · exact .inr found
  refine ⟨?_, ?_, ?_, ?_, covered.drained⟩
  · intro id other found
    obtain ⟨call, there', same, none_, inserted'⟩ := covered.registered id other found
    rcases em (other = number) with rfl | apart
    · rw [there] at there'
      cases there'
      refine ⟨{ old with place }, ?_, same, none_, inserted.mpr inserted'⟩
      exact (List.getElem?_modify_eq _ _ _).trans (by rw [there]; rfl)
    · exact ⟨call, (List.getElem?_modify_ne _ _ (Ne.symm apart)).trans there', same, none_,
        inserted'⟩
  · intro other call found inserted' absent
    rcases before other call found with ⟨rfl, rfl⟩ | found
    · exact covered.ended other old there (inserted.mp inserted') absent
    · exact covered.ended other call found inserted' absent
  · intro other call found early'
    rcases before other call found with ⟨rfl, rfl⟩ | found
    · exact covered.fresh other old there (early early')
    · exact covered.fresh other call found early'
  · intro other call found flies'
    rcases before other call found with ⟨rfl, rfl⟩ | found
    · exact covered.own other old there (flies flies')
    · exact covered.own other call found flies'

theorem Covered.registered_modify {number : ℕ} {call : Call} (there : s.calls[number]? = some call)
    {id : String} {other : ℕ} (different : id ≠ call.requestId)
    (found : s.requests.lookup id = some other) (f : Call → Call) :
    ∃ call', (s.calls.modify number f)[other]? = some call' ∧ call'.requestId = id ∧
      call'.terminals = 0 ∧ call'.place.inserted := by
  obtain ⟨call', there', same, rest⟩ := covered.registered id other found
  have apart : number ≠ other := by
    rintro rfl
    rw [there] at there'
    cases there'
    exact different same.symm
  exact ⟨call', (List.getElem?_modify_ne _ _ apart).trans there', same, rest⟩

/-- A call registers its request while a thread has still to read the keys. -/
theorem Covered.insert {number : ℕ} {call : Call} (there : s.calls[number]? = some call)
    (at_ : call.place = .inserting)
    (collects : s.reader = .running ∨ s.reader = .failing ∨ s.watchdog = .failing)
    (absent : call.requestId ∉ s.requests)
    (alone : ∀ other ∈ s.calls, other.requestId = call.requestId →
      other.place.inFlight = false) :
    Covered ({ s with requests := s.requests.insert call.requestId number }.goto number
      .sending) := by
  have none_ := AList.lookup_eq_none.mpr absent
  -- each field is about the new entry and its call, or about the others, which stay
  refine ⟨?_, ?_, ?_, ?_, ?_⟩
  · intro id other found
    dsimp only [Generations.goto] at found
    rcases Keyed.lookup_insert_eq_some_iff.mp found with ⟨rfl, rfl⟩ | ⟨different, found⟩
    · refine ⟨{ call with place := .sending }, ?_, rfl,
        covered.fresh number call there (by rw [at_]; rfl), .inl rfl⟩
      exact (List.getElem?_modify_eq _ _ _).trans (by rw [there]; rfl)
    · exact covered.registered_modify there different found _
  · intro other call' found inserted unregistered
    dsimp only [Generations.goto] at unregistered
    rcases modify_cases found with ⟨rfl, old, there', rfl⟩ | ⟨apart, found⟩
    · rw [there] at there'
      cases there'
      exact absurd (AList.lookup_insert s.requests) unregistered
    · apply covered.ended other call' found inserted
      -- a call with the same id was unregistered before, since the id was absent
      rcases em (call'.requestId = call.requestId) with same | different
      · rw [same, none_]
        simp
      · rwa [AList.lookup_insert_ne different] at unregistered
  · intro other call' found early
    rcases modify_cases found with ⟨rfl, old, there', rfl⟩ | ⟨apart, found⟩
    · cases early
    · exact covered.fresh other call' found early
  · -- The entry is that of the call, since no other call with its id is in flight.
    intro other call' found flies last registered
    dsimp only [Generations.goto] at registered
    rcases modify_cases found with ⟨rfl, old, there', rfl⟩ | ⟨apart, found⟩
    · rw [there] at there'
      cases there'
      rw [AList.lookup_insert] at registered
      exact (Option.some.inj registered).symm
    · have different : call'.requestId ≠ call.requestId := by
        intro same
        rw [alone call' (List.mem_of_getElem? found) same] at flies
        cases flies
      rw [AList.lookup_insert_ne different] at registered
      exact covered.own other call' found flies last registered
  · intro id other found
    dsimp only [Generations.goto] at found ⊢
    -- some thread has still to collect the new entry
    rcases Keyed.lookup_insert_eq_some_iff.mp found with ⟨rfl, -⟩ | ⟨-, found⟩
    · rcases collects with at_ | at_ | at_
      · exact .inl (by rw [at_]; trivial)
      · exact .inl (by rw [at_]; trivial)
      · exact .inr (by rw [at_]; trivial)
    · exact covered.drained id other found

theorem Covered.remove {number : ℕ} {call : Call} (there : s.calls[number]? = some call)
    {e : EngineError} (at_ : call.place = .removing e) :
    Covered ({ s with requests := s.requests.erase call.requestId }.goto number
      (.returned (.error e))) := by
  -- the entry under the id is that of this call
  have own := covered.own number call there (by rw [at_]; rfl)
  have kept {id : String} {other : ℕ} :
      (s.requests.erase call.requestId).lookup id = some other →
        id ≠ call.requestId ∧ s.requests.lookup id = some other :=
    Keyed.lookup_erase_eq_some_iff.mp
  refine ⟨?_, ?_, ?_, ?_, fun id other found => covered.drained id other (kept found).2⟩
  · intro id other found
    obtain ⟨different, found⟩ := kept found
    exact covered.registered_modify there different found _
  · intro other call' found inserted unregistered
    dsimp only [Generations.goto] at unregistered
    rcases modify_cases found with ⟨rfl, old, there', rfl⟩ | ⟨apart, found⟩
    · rcases inserted with flies | returned
      · cases flies
      · cases returned
    · apply covered.ended other call' found inserted
      rcases em (call'.requestId = call.requestId) with same | different
      · -- What is registered for the id is the request that is taken back.
        intro registered
        rw [same] at registered
        exact apart (own other registered)
      · rwa [AList.lookup_erase_ne different] at unregistered
  · intro other call' found early
    rcases modify_cases found with ⟨rfl, old, there', rfl⟩ | ⟨apart, found⟩
    · cases early
    · exact covered.fresh other call' found early
  · intro other call' found flies last registered
    rcases modify_cases found with ⟨rfl, old, there', rfl⟩ | ⟨apart, found⟩
    · cases flies
    · exact covered.own other call' found flies last (kept registered).2

theorem Covered.markTerminal (requestId : String) : (s.markTerminal requestId).Covered := by
  unfold Generations.markTerminal
  cases found : s.requests.lookup requestId with
  | none => exact covered
  | some number =>
    obtain ⟨call, there, rfl, none_, inserted⟩ := covered.registered requestId number found
    -- The entries that are left are those of other ids, and as they were.
    have kept {id : String} {other : ℕ} :
        (s.requests.erase call.requestId).lookup id = some other →
          id ≠ call.requestId ∧ s.requests.lookup id = some other :=
      Keyed.lookup_erase_eq_some_iff.mp
    refine ⟨?_, ?_, ?_, ?_, fun id other found => covered.drained id other (kept found).2⟩
    · intro id other found'
      obtain ⟨different, found'⟩ := kept found'
      exact covered.registered_modify there different found' _
    · intro other call' found' inserted' unregistered
      dsimp only at unregistered
      rcases modify_cases found' with ⟨rfl, old, there', rfl⟩ | ⟨apart, found'⟩
      · rw [there] at there'
        cases there'
        exact congrArg (· + 1) none_
      · apply covered.ended other call' found' inserted'
        rcases em (call'.requestId = call.requestId) with same | different
        · rw [same, found]
          intro own
          exact apart (Option.some.inj own).symm
        · rwa [AList.lookup_erase_ne different] at unregistered
    · intro other call' found' early
      rcases modify_cases found' with ⟨rfl, old, there', rfl⟩ | ⟨apart, found'⟩
      · rw [there] at there'
        cases there'
        rw [show _ = false from inserted.not_early] at early
        cases early
      · exact covered.fresh other call' found' early
    · intro other call' found' flies last registered
      obtain ⟨different, registered⟩ := kept registered
      rcases modify_cases found' with ⟨rfl, old, there', rfl⟩ | ⟨apart, found'⟩
      · rw [there] at there'
        cases there'
        exact absurd rfl different
      · exact covered.own other call' found' flies last registered

/-- The threads of the fault path go on, and what is registered is still to be ended. -/
theorem Covered.threads {phase : WorkerLifecyclePhase} {reader watchdog : FaultPlace}
    (drained : ∀ requestId number, s.requests.lookup requestId = some number →
      readerEnds requestId reader ∨ watchdogEnds requestId watchdog) :
    Covered { s with phase, reader, watchdog } :=
  ⟨covered.registered, covered.ended, covered.fresh, covered.own, drained⟩

theorem Covered.stepReader {move : FaultMove} (taken : s.stepReader move = some t) :
    t.Covered := by
  unfold Generations.stepReader at taken
  split at taken
  next =>
    cases taken
    exact covered.markTerminal _
  next at_ =>
    cases taken
    exact covered.threads covered.drained
  next =>
    cases taken
    exact covered.threads fun _ _ _ => .inl trivial
  next =>
    split at taken <;> cases taken
    exact covered.threads fun _ _ _ => .inl trivial
  next place move =>
    obtain ⟨⟨after, place'⟩, drains, same⟩ := Option.map_eq_some_iff.mp taken
    subst same
    rcases failAll_cases drains with ⟨keys, -, rfl, perm, rfl⟩ | ⟨requestId, later, at_, rfl, rfl⟩ |
      ⟨at_, rfl, rfl⟩
    · exact covered.threads fun _ _ found => .inl (mem_keys_of_lookup perm found)
    · refine (covered.markTerminal requestId).threads fun id number found => ?_
      obtain ⟨different, found⟩ := lookup_markTerminal found
      rw [(s.markTerminal_threads requestId).2]
      rcases covered.drained id number found with reader | watchdog
      · rw [at_] at reader
        exact .inl ((List.mem_cons.mp reader).resolve_left different)
      · exact .inr watchdog
    · refine covered.threads fun id number found => ?_
      rcases covered.drained id number found with reader | watchdog
      · rw [at_] at reader
        cases reader
      · exact .inr watchdog

theorem Covered.stepWatchdog {move : FaultMove} (taken : s.stepWatchdog move = some t) :
    t.Covered := by
  have reader_of {place : FaultPlace} (at_ : s.watchdog = place)
      (idle : ∀ id, ¬ watchdogEnds id place) {id : String} {number : ℕ}
      (found : s.requests.lookup id = some number) : readerEnds id s.reader := by
    refine (covered.drained id number found).resolve_right ?_
    rw [at_]
    exact idle id
  unfold Generations.stepWatchdog at taken
  split at taken
  next requestId at_ =>
    cases taken
    refine (covered.markTerminal requestId).threads fun id number found => ?_
    rw [(s.markTerminal_threads requestId).1]
    exact .inl (reader_of at_ (fun _ ends => ends) (lookup_markTerminal found).2)
  next at_ =>
    cases taken
    exact covered.threads fun _ _ found => .inl (reader_of at_ (fun _ ends => ends) found)
  next =>
    cases taken
    exact covered.threads fun _ _ _ => .inr trivial
  next at_ =>
    split at taken <;> cases taken
    exact covered.threads fun _ _ found => .inl (reader_of at_ (fun _ ends => ends) found)
  next place move =>
    obtain ⟨⟨after, place'⟩, drains, same⟩ := Option.map_eq_some_iff.mp taken
    subst same
    rcases failAll_cases drains with ⟨keys, -, rfl, perm, rfl⟩ | ⟨requestId, later, at_, rfl, rfl⟩ |
      ⟨at_, rfl, rfl⟩
    · exact covered.threads fun _ _ found => .inr (mem_keys_of_lookup perm found)
    · refine (covered.markTerminal requestId).threads fun id number found => ?_
      obtain ⟨different, found⟩ := lookup_markTerminal found
      rw [(s.markTerminal_threads requestId).1]
      rcases covered.drained id number found with reader | watchdog
      · exact .inl reader
      · rw [at_] at watchdog
        exact .inr ((List.mem_cons.mp watchdog).resolve_left different)
    · refine covered.threads fun id number found => ?_
      rcases covered.drained id number found with reader | watchdog
      · exact .inl reader
      · rw [at_] at watchdog
        cases watchdog

theorem Covered.stepCall {number : ℕ} {sent : Except EngineError Unit}
    (admitted : s.insertsCovered (.call number sent) = true)
    (taken : s.stepCall number sent = some t) : t.Covered := by
  unfold Generations.stepCall at taken
  split at taken
  next => cases taken
  next call there =>
    split at taken
    next at_ =>
      split at taken <;> cases taken
      · exact covered.goto there (by simp [CallPlace.inserted, CallPlace.inFlight, at_])
          (by simp [CallPlace.inFlight]) (by simp [CallPlace.early, at_])
      · exact covered.goto there (by simp [CallPlace.inserted, CallPlace.inFlight, at_])
          (by simp [CallPlace.inFlight]) (by simp [CallPlace.early])
    next at_ =>
      split at taken <;> cases taken
      · exact covered.goto there (by simp [CallPlace.inserted, CallPlace.inFlight, at_])
          (by simp [CallPlace.inFlight]) (by simp [CallPlace.early])
      · exact covered.goto there (by simp [CallPlace.inserted, CallPlace.inFlight, at_])
          (by simp [CallPlace.inFlight]) (by simp [CallPlace.early, at_])
    next at_ =>
      cases taken
      obtain ⟨requestId, place, terminals⟩ := call
      obtain rfl : place = .inserting := at_
      simp only [insertsCovered, there, Bool.and_eq_true, Bool.or_eq_true, decide_eq_true_eq,
        List.all_eq_true, Bool.not_eq_true', Bool.and_eq_false_iff, decide_eq_false_iff_not]
        at admitted
      -- only the insertion needs that the move is admitted
      obtain ⟨⟨collects, absent⟩, alone⟩ := admitted
      refine covered.insert there rfl ?_ absent fun other member same => ?_
      · rcases collects with (running | failing) | failing
        · exact .inl running
        · exact .inr (.inl failing)
        · exact .inr (.inr failing)
      · exact (alone other member).resolve_left (not_not.mpr same)
    next at_ =>
      split at taken <;> cases taken
      · exact covered.goto there (by simp [CallPlace.inserted, CallPlace.inFlight, at_])
          (by simp [CallPlace.inFlight]) (by simp [CallPlace.early])
      · exact covered.goto there (by simp [CallPlace.inserted, CallPlace.inFlight, at_])
          (by simp [CallPlace.inFlight, at_]) (by simp [CallPlace.early])
    next e at_ =>
      cases taken
      exact covered.remove there at_
    next => cases taken

theorem Covered.step {move : GenerationMove} (admitted : s.insertsCovered move = true)
    (taken : s.step move = some t) : t.Covered := by
  cases move with
  | start requestId =>
    cases taken
    exact covered.start requestId
  | call number sent => exact covered.stepCall admitted taken
  | reader move => exact covered.stepReader taken
  | watchdog move => exact covered.stepWatchdog taken

theorem Covered.settled : s.Settled := by
  intro reader watchdog _
  have none_ (requestId : String) : s.requests.lookup requestId = none := by
    rw [Option.eq_none_iff_forall_not_mem]
    intro number found
    rcases covered.drained requestId number found with ends | ends
    · rw [reader] at ends
      exact ends
    · rw [watchdog] at ends
      exact ends
  constructor
  · rw [List.eq_nil_iff_forall_not_mem]
    intro requestId member
    exact AList.lookup_eq_none.mp (none_ requestId) (AList.mem_keys.mpr member)
  · intro call member returned
    obtain ⟨number, there⟩ := List.mem_iff_getElem?.mp member
    exact covered.ended number call there (.inr returned) (by rw [none_]; simp)

end

/-- In a run whose requests are registered before the fault path reads the keys for the last
time, every accepted request is ended once and none is left. -/
theorem generations_settle {moves : List GenerationMove}
    (guarded : Runs.Guarded step (fun s m => s.insertsCovered m = true) launched moves) :
    Runs.Always step Settled launched moves := by
  have covered : Runs.Always step Covered launched moves :=
    Runs.always_of_guarded step (fun _ _ _ covered => covered.step) covered_launched guarded
  exact Runs.always_mono step (fun _ covered => covered.settled) covered

/-- A first request is completed, a second one fails with the worker, and a third cannot be
sent. -/
theorem generations_settle_together :
    Runs.Always step Settled launched
      [.reader (.store .ready), .start "gen-1", .call 0 (.ok ()), .call 0 (.ok ()),
        .call 0 (.ok ()), .call 0 (.ok ()), .reader (.endRequest "gen-1"), .start "gen-2",
        .start "gen-3", .call 1 (.ok ()), .call 1 (.ok ()), .call 2 (.ok ()), .watchdog .fault,
        .call 1 (.ok ()), .call 2 (.ok ()), .call 2 (.ok ()), .call 1 (.ok ()),
        .call 2 (.error ⟨.workerCrashed, "failed to flush worker stdin: Broken pipe"⟩),
        .watchdog (.collect ["gen-3", "gen-2"]), .reader .notice, .watchdog .proceed,
        .call 2 (.ok ()), .reader (.collect ["gen-2"]), .reader .proceed, .watchdog .proceed,
        .watchdog .proceed, .reader .proceed] :=
  generations_settle (by decide)

/-- A request is registered after both threads have gone, and its command still fits the pipe. -/
theorem late_request_waits :
    ¬ Runs.Always step Settled launched
      [.reader (.store .ready), .start "gen-1", .call 0 (.ok ()), .call 0 (.ok ()),
        .reader .fault, .reader (.collect []), .reader .proceed, .watchdog .notice,
        .call 0 (.ok ()), .call 0 (.ok ())] := by
  intro always
  have last := Runs.always_last step always rfl
  obtain ⟨-, ended⟩ := last rfl rfl fun call member =>
    ⟨.ok (), congrArg Call.place (List.mem_singleton.mp member)⟩
  exact absurd (ended ⟨"gen-1", .returned (.ok ()), 0⟩ (List.mem_singleton.mpr rfl) rfl) (by decide)

end Generations

end TribunusCompute.Supervisor
