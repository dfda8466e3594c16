import Mathlib.Data.List.AList
import TribunusCompute.Library.Runs
import TribunusCompute.Supervisor.Runtime

/-!
# The payloads of the requests that are active when the worker dies

The event reader and the watchdog find the worker dead, each on its own. Only the watchdog
captures the payloads of what is registered, and only where it finds the death first: the event
reader ends every registered request, and the watchdog exits where the worker is marked
faulted. A call of `recover` takes the captured payloads out before the first step that may
fail, and puts none of them back.
-/
namespace TribunusCompute.Supervisor

/-- `CrashRecoveryState`, less the time of the crash, which nothing reads. -/
structure CrashRecoveryState (Value : Type*) where
  pendingPayloads : List Value
  retryCount : ℕ
  deriving DecidableEq, Repr

namespace CrashRecoveryState

variable {Value : Type*}

def new : CrashRecoveryState Value := ⟨[], 0⟩

def maxRetries : ℕ := 3

def drainPayloads (recovery : CrashRecoveryState Value) :
    List Value × CrashRecoveryState Value :=
  (recovery.pendingPayloads, { recovery with pendingPayloads := [] })

end CrashRecoveryState

inductive CrashReader
  /-- At `is_alive`. -/
  | looping
  /-- In `read_next_event`, from before the death. -/
  | reading
  /-- At `fail_all`. -/
  | failing
  /-- In the loop of `fail_all`, with the ids it has still to end. -/
  | draining (later : List String)
  | exited
  deriving DecidableEq, Repr

inductive CrashWatchdog (Value : Type*)
  | asleep
  /-- Past `is_faulted`. -/
  | checking
  /-- Past an `is_alive` from before the death, in the checks of time and memory. -/
  | monitoring
  /-- In `capture_payloads`, past the snapshot. -/
  | storing (payloads : List Value)
  /-- Past the payloads, or past the terminal event of a request that is out of time. -/
  | marking (thenFail : Bool)
  | failing
  | draining (later : List String)
  | exited
  deriving DecidableEq, Repr

/-- Where a call of `recover` is. -/
inductive RecoverPlace (Value : Type*)
  /-- No call is in progress. -/
  | idle
  /-- Past the count of retries. -/
  | counted
  | launching (payloads : List Value)
  | loading (payloads : List Value)
  /-- In the loop, with what is left and what was sent of `reQueued` payloads. -/
  | sending (reQueued : ℕ) (left sent : List Value)
  deriving DecidableEq, Repr

def RecoverPlace.held {Value : Type*} : RecoverPlace Value → List Value
  | .idle | .counted => []
  | .launching payloads | .loading payloads => payloads
  | .sending _ left sent => left ++ sent

def CrashWatchdog.held {Value : Type*} : CrashWatchdog Value → List Value
  | .storing payloads => payloads
  | _ => []

/-- Before the snapshot. -/
def CrashWatchdog.early {Value : Type*} : CrashWatchdog Value → Bool
  | .asleep | .checking | .monitoring => true
  | _ => false

def CrashWatchdog.unstored {Value : Type*} : CrashWatchdog Value → Bool
  | .asleep | .checking | .monitoring | .storing _ => true
  | _ => false

/-- The supervisor and the calls of `recover` from the death of the worker on. -/
structure Crash (Value : Type*) where
  faulted : Bool
  /-- The payload of each registered request. -/
  requests : AList fun _ : String => Value
  reader : CrashReader
  watchdog : CrashWatchdog Value
  /-- The watchdog took its snapshot. -/
  captured : Bool
  recovery : CrashRecoveryState Value
  recover : RecoverPlace Value
  /-- What each call of `recover` returned, the last one at the end: the number of requests. -/
  returned : List (Except EngineError ℕ)
  /-- The payloads sent to the workers of the calls that returned `Ok`. -/
  sent : List Value

/-- What the event reader or the watchdog does next. -/
inductive DetectMove (Value : Type*)
  | proceed
  /-- A frame from before the death, which may end a request, or a request out of time. -/
  | endRequest (requestId : Option String)
  /-- The reading fails, or a limit of time or memory is passed: `mark_faulted`. -/
  | fault
  /-- `snapshot_payloads` reads the payloads, in the order of the hash map. -/
  | snapshot (payloads : List Value)
  /-- `fail_all` reads the keys. -/
  | collect (keys : List String)
  deriving DecidableEq, Repr

inductive CrashMove (Value : Type*)
  | reader (move : DetectMove Value)
  | watchdog (move : DetectMove Value)
  /-- The next step of `recover`, with the result of the launch, the load or the send. -/
  | recover (result : Except EngineError Unit)
  deriving DecidableEq

namespace Crash

variable {Value : Type*}

def payloads (s : Crash Value) : List Value := s.requests.entries.map Sigma.snd

def markTerminal (s : Crash Value) (requestId : String) : Crash Value :=
  { s with requests := s.requests.erase requestId }

def stepReader (s : Crash Value) (move : DetectMove Value) : Option (Crash Value) :=
  match s.reader, move with
  | .looping, .proceed => some { s with faulted := true, reader := .failing }
  | .reading, .endRequest none => some { s with reader := .looping }
  | .reading, .endRequest (some requestId) =>
    some { s.markTerminal requestId with reader := .looping }
  | .reading, .fault => some { s with faulted := true, reader := .failing }
  | .failing, .collect keys =>
    if keys.Perm s.requests.keys then some { s with reader := .draining keys } else none
  | .draining (requestId :: later), .proceed =>
    some { s.markTerminal requestId with reader := .draining later }
  | .draining [], .proceed => some { s with reader := .exited }
  | _, _ => none

def stepWatchdog [DecidableEq Value] (s : Crash Value) (move : DetectMove Value) :
    Option (Crash Value) :=
  match s.watchdog, move with
  | .asleep, .proceed =>
    some { s with watchdog := if s.faulted then .exited else .checking }
  -- The worker is dead: `is_alive` is false, and the payloads are captured.
  | .checking, .snapshot payloads =>
    if payloads.Perm s.payloads then
      some { s with watchdog := .storing payloads, captured := true }
    else none
  | .monitoring, .proceed => some { s with watchdog := .asleep }
  | .monitoring, .fault => some { s with faulted := true, watchdog := .failing }
  | .monitoring, .endRequest (some requestId) =>
    some { s.markTerminal requestId with watchdog := .marking false }
  | .storing payloads, .proceed =>
    some { s with
      recovery := { s.recovery with pendingPayloads := payloads }
      watchdog := .marking true }
  | .marking thenFail, .proceed =>
    some { s with faulted := true, watchdog := if thenFail then .failing else .exited }
  | .failing, .collect keys =>
    if keys.Perm s.requests.keys then some { s with watchdog := .draining keys } else none
  | .draining (requestId :: later), .proceed =>
    some { s.markTerminal requestId with watchdog := .draining later }
  | .draining [], .proceed => some { s with watchdog := .exited }
  | _, _ => none

def limitExceeded (retryCount : ℕ) : EngineError :=
  ⟨.workerCrashed, "worker crash recovery limit (" ++ toString CrashRecoveryState.maxRetries ++
    ") exceeded after " ++ toString retryCount ++ " retries"⟩

/-- A payload that names no request is not sent, and neither is one whose command is refused:
the call goes on in both cases. `requestId?` reads the field `request_id` of a payload, where
it is a string. -/
def stepRecover (requestId? : Value → Option String) (s : Crash Value)
    (result : Except EngineError Unit) : Option (Crash Value) :=
  match s.recover with
  | .idle =>
    if CrashRecoveryState.maxRetries ≤ s.recovery.retryCount then
      some { s with returned := s.returned ++ [.error (limitExceeded s.recovery.retryCount)] }
    else
      some { s with
        recovery := { s.recovery with retryCount := s.recovery.retryCount + 1 }
        recover := .counted }
  | .counted =>
    some { s with
      recovery := s.recovery.drainPayloads.2
      recover := .launching s.recovery.drainPayloads.1 }
  | .launching payloads =>
    match result with
    | .ok () => some { s with recover := .loading payloads }
    | .error e => some { s with recover := .idle, returned := s.returned ++ [.error e] }
  | .loading payloads =>
    match result with
    | .ok () => some { s with recover := .sending payloads.length payloads [] }
    | .error e => some { s with recover := .idle, returned := s.returned ++ [.error e] }
  | .sending reQueued (payload :: left) sent =>
    if (requestId? payload).getD "" = "" then
      some { s with recover := .sending reQueued left sent }
    else
      match result with
      | .ok () => some { s with recover := .sending reQueued left (sent ++ [payload]) }
      | .error _ => some { s with recover := .sending reQueued left sent }
  | .sending reQueued [] sent =>
    some { s with
      recover := .idle
      returned := s.returned ++ [.ok reQueued]
      sent := s.sent ++ sent }

def step [DecidableEq Value] (requestId? : Value → Option String) (s : Crash Value) :
    CrashMove Value → Option (Crash Value)
  | .reader move => s.stepReader move
  | .watchdog move => s.stepWatchdog move
  | .recover result => s.stepRecover requestId? result

/-- The payloads that are not lost: those of the registered requests until the watchdog's
snapshot, and from then on what the watchdog is about to store, what is pending, what a call in
progress took out, and what was sent to the worker of a call that returned `Ok`. -/
def kept (s : Crash Value) : List Value :=
  (if s.captured then [] else s.payloads) ++ s.watchdog.held ++ s.recovery.pendingPayloads ++
    s.recover.held ++ s.sent

def NoneLost (active : List Value) (s : Crash Value) : Prop :=
  ∀ payload ∈ active, payload ∈ s.kept

def ended? (s : Crash Value) : CrashMove Value → Option String
  | .reader (.endRequest requestId) | .watchdog (.endRequest requestId) => requestId
  | .reader .proceed =>
    match s.reader with
    | .draining (requestId :: _) => some requestId
    | _ => none
  | .watchdog .proceed =>
    match s.watchdog with
    | .draining (requestId :: _) => some requestId
    | _ => none
  | _ => none

/-- The step of `recover` loses no payload: no launch and no load fails with payloads taken out,
each payload names its request, and its command is sent. -/
def resends (requestId? : Value → Option String) :
    RecoverPlace Value → Except EngineError Unit → Bool
  | .launching payloads, .error _ | .loading payloads, .error _ => payloads.isEmpty
  | .sending _ (payload :: _) _, .ok () => (requestId? payload).getD "" ≠ ""
  | .sending _ (_ :: _) _, .error _ => false
  | _, _ => true

/-- The payload of the request that ends, if any, is captured, or the request is not
registered. -/
def covers (s : Crash Value) : Option String → Bool
  | some requestId => s.captured || requestId ∉ s.requests
  | none => true

/-- The move ends no registered request before the watchdog's snapshot, and loses no payload
that a call of `recover` took out. -/
def keepsPayloads (requestId? : Value → Option String) (s : Crash Value) :
    CrashMove Value → Bool
  | .recover result => resends requestId? s.recover result
  | move => s.covers (s.ended? move)

/-- The worker is dead, and neither thread has found it so. The event reader may be in the read
of a frame. -/
def atDeath (requests : AList fun _ : String => Value) (reading : Bool)
    (watchdog : CrashWatchdog Value) (retryCount : ℕ) : Crash Value where
  faulted := false
  requests := requests
  reader := if reading then .reading else .looping
  watchdog := watchdog
  captured := false
  recovery := ⟨[], retryCount⟩
  recover := .idle
  returned := []
  sent := []

/-! ## What a move does to the payloads that are kept -/

variable {s t : Crash Value}

theorem payloads_markTerminal_absent {requestId : String} (absent : requestId ∉ s.requests) :
    (s.markTerminal requestId).payloads = s.payloads := by
  have same : s.requests.entries.kerase requestId = s.requests.entries :=
    List.kerase_of_notMem_keys absent
  change (s.requests.entries.kerase requestId).map Sigma.snd = _
  rw [same]
  rfl

theorem length_payloads_markTerminal {requestId : String} (registered : requestId ∈ s.requests) :
    (s.markTerminal requestId).payloads.length + 1 = s.payloads.length := by
  obtain ⟨payload, before, after, -, split_, erased⟩ := List.exists_of_kerase registered
  change ((s.requests.entries.kerase requestId).map Sigma.snd).length + 1 = _
  rw [erased, payloads, split_]
  simp only [List.length_map, List.length_append, List.length_cons]
  omega

theorem stepReader_cases {move : DetectMove Value} (taken : s.stepReader move = some t) :
    t.requests = (s.ended? (.reader move)).elim s.requests s.requests.erase ∧
      t.watchdog = s.watchdog ∧ t.captured = s.captured ∧ t.recovery = s.recovery ∧
      t.recover = s.recover ∧ t.sent = s.sent := by
  unfold stepReader at taken
  split at taken
  next at_ =>
    cases taken
    simp [ended?, at_]
  next => cases taken; simp [ended?]
  next => cases taken; simp [ended?, markTerminal]
  next => cases taken; simp [ended?]
  next =>
    split at taken <;> cases taken
    simp [ended?]
  next at_ => cases taken; simp [ended?, at_, markTerminal]
  next at_ => cases taken; simp [ended?, at_]
  next => cases taken

/-- The watchdog ends requests, takes its snapshot, or stores it. -/
theorem stepWatchdog_cases [DecidableEq Value] {move : DetectMove Value}
    (taken : s.stepWatchdog move = some t) :
    (∃ place, t = { s with
        faulted := t.faulted
        requests := (s.ended? (.watchdog move)).elim s.requests s.requests.erase
        watchdog := place } ∧
      s.watchdog.held = [] ∧ place.held = [] ∧
      (place.early = true → s.watchdog.early = true) ∧
      (place.unstored = true → s.watchdog.unstored = true)) ∨
    (∃ payloads, s.watchdog = .checking ∧ payloads.Perm s.payloads ∧
      t = { s with watchdog := .storing payloads, captured := true } ∧
      s.ended? (.watchdog move) = none) ∨
    (∃ payloads, s.watchdog = .storing payloads ∧
      t = { s with
        recovery := { s.recovery with pendingPayloads := payloads }
        watchdog := .marking true } ∧
      s.ended? (.watchdog move) = none) := by
  unfold stepWatchdog at taken
  split at taken
  next at_ =>
    cases taken
    refine .inl ⟨if s.faulted then .exited else .checking, by simp [ended?, at_], ?_⟩
    rw [at_]
    cases s.faulted <;> exact ⟨rfl, rfl, fun _ => rfl, fun _ => rfl⟩
  next payloads at_ =>
    split at taken
    next perm =>
      cases taken
      exact .inr (.inl ⟨payloads, at_, perm, rfl, rfl⟩)
    next => cases taken
  next at_ =>
    cases taken
    refine .inl ⟨.asleep, by simp [ended?, at_], ?_⟩
    rw [at_]
    exact ⟨rfl, rfl, fun _ => rfl, fun _ => rfl⟩
  next at_ =>
    cases taken
    refine .inl ⟨.failing, by simp [ended?], ?_⟩
    rw [at_]
    exact ⟨rfl, rfl, fun _ => rfl, fun _ => rfl⟩
  next at_ =>
    cases taken
    refine .inl ⟨.marking false, by simp [ended?, markTerminal], ?_⟩
    rw [at_]
    exact ⟨rfl, rfl, fun _ => rfl, fun _ => rfl⟩
  next payloads at_ =>
    cases taken
    exact .inr (.inr ⟨payloads, at_, rfl, by simp [ended?, at_]⟩)
  next thenFail at_ =>
    cases taken
    refine .inl ⟨if thenFail then .failing else .exited, by simp [ended?, at_], ?_⟩
    rw [at_]
    cases thenFail <;> exact ⟨rfl, rfl, nofun, nofun⟩
  next keys at_ =>
    -- the keys are read in any order, and their requests end one by one
    split at taken <;> cases taken
    refine .inl ⟨.draining keys, by simp [ended?], ?_⟩
    rw [at_]
    exact ⟨rfl, rfl, nofun, nofun⟩
  next requestId later at_ =>
    cases taken
    refine .inl ⟨.draining later, by simp [ended?, at_, markTerminal], ?_⟩
    rw [at_]
    exact ⟨rfl, rfl, nofun, nofun⟩
  next at_ =>
    cases taken
    refine .inl ⟨.exited, by simp [ended?, at_], ?_⟩
    rw [at_]
    exact ⟨rfl, rfl, nofun, nofun⟩
  next => cases taken

/-- What is pending, taken out, or sent. -/
def recovered (s : Crash Value) : List Value :=
  s.recovery.pendingPayloads ++ s.recover.held ++ s.sent

/-- A step of `recover` moves payloads from pending to taken out to sent, and drops one exactly
where it does not resend. -/
theorem stepRecover_cases {requestId? : Value → Option String}
    {result : Except EngineError Unit} (taken : s.stepRecover requestId? result = some t) :
    t = { s with
        recovery := t.recovery, recover := t.recover, returned := t.returned, sent := t.sent } ∧
      (s.recovery.pendingPayloads = [] → t.recovery.pendingPayloads = []) ∧
      if resends requestId? s.recover result then t.recovered.Perm s.recovered
      else t.recovered.length < s.recovered.length := by
  unfold stepRecover at taken
  split at taken
  next at_ =>
    split at taken <;> cases taken <;>
      simp [at_, resends, recovered, RecoverPlace.held]
  next at_ =>
    cases taken
    simp [at_, resends, recovered, RecoverPlace.held, CrashRecoveryState.drainPayloads]
  next payloads at_ =>
    cases result with
    | ok =>
      cases taken
      simp [at_, resends, recovered, RecoverPlace.held]
    | error e =>
      cases taken
      cases payloads with
      | nil => simp [at_, resends, recovered, RecoverPlace.held]
      | cons payload later =>
        -- the first payload is dropped
        simp only [at_, resends, recovered, RecoverPlace.held, List.length_append,
          List.length_cons]
        simp
  next payloads at_ =>
    cases result with
    | ok =>
      cases taken
      simp [at_, resends, recovered, RecoverPlace.held]
    | error e =>
      cases taken
      cases payloads with
      | nil => simp [at_, resends, recovered, RecoverPlace.held]
      | cons payload later =>
        -- the first payload is dropped
        simp only [at_, resends, recovered, RecoverPlace.held, List.length_append,
          List.length_cons]
        simp
  next reQueued payload left sent at_ =>
    -- a payload without a request id is passed over, and so lost
    split at taken
    next unnamed =>
      cases taken
      cases result <;> simp [at_, resends, recovered, RecoverPlace.held, unnamed]
    next named =>
      cases result with
      | ok =>
        cases taken
        refine ⟨rfl, id, ?_⟩
        simp only [at_, resends, recovered, RecoverPlace.held]
        rw [if_pos (by simpa using named)]
        have moved : (left ++ (sent ++ [payload])).Perm (payload :: left ++ sent) := by
          rw [← List.append_assoc]
          exact List.perm_append_singleton payload (left ++ sent)
        exact (moved.append_left _).append_right _
      | error e =>
        cases taken
        simp [at_, resends, recovered, RecoverPlace.held]
  next reQueued sent at_ =>
    cases taken
    simpa [at_, resends, recovered, RecoverPlace.held] using
      (@List.perm_append_comm _ s.sent sent).append_left s.recovery.pendingPayloads

/-! ## What is kept, along a run -/

theorem kept_eq (s : Crash Value) :
    s.kept = (if s.captured then [] else s.payloads) ++ s.watchdog.held ++ s.recovered := by
  simp only [kept, recovered, List.append_assoc]

/-- Nothing is lost, and the watchdog stores its snapshot over no payload. -/
structure Intact (active : List Value) (s : Crash Value) : Prop where
  kept : s.kept.Perm active
  uncaptured : s.watchdog.early = true → s.captured = false
  unstored : s.watchdog.unstored = true → s.recovery.pendingPayloads = []

theorem Intact.noneLost {active : List Value} (intact : s.Intact active) : s.NoneLost active :=
  fun _ member => intact.kept.mem_iff.mpr member

theorem not_noneLost {active : List Value} (distinct : active.Nodup)
    (fewer : s.kept.length < active.length) : ¬ s.NoneLost active := fun noneLost =>
  absurd (List.subperm_of_subset distinct noneLost).length_le (Nat.not_le.mpr fewer)

/-- A request that ends takes a payload with it exactly where it is registered and its payload
is not captured. -/
theorem kept_end {requestId : Option String}
    (requests : t.requests = requestId.elim s.requests s.requests.erase)
    (captured : t.captured = s.captured) (held : t.watchdog.held = s.watchdog.held)
    (recovered : t.recovered = s.recovered) :
    if s.covers requestId then t.kept = s.kept else t.kept.length < s.kept.length := by
  rw [kept_eq, kept_eq, captured, held, recovered]
  cases there : s.captured with
  | true => cases requestId <;> simp [covers, there]
  | false =>
    have ends (id : String) (same : t.requests = s.requests.erase id) :
        t.payloads = (s.markTerminal id).payloads := by
      rw [payloads, same]
      rfl
    cases requestId with
    | none =>
      have same : t.payloads = s.payloads := by
        rw [payloads, requests]
        rfl
      simp [covers, same]
    | some id =>
      rcases em (id ∈ s.requests) with registered | absent
      · have fewer := length_payloads_markTerminal registered
        rw [← ends id requests] at fewer
        rw [if_neg (by simp [covers, there, registered])]
        simp only [Bool.false_eq_true, if_false, List.length_append]
        omega
      · have same := payloads_markTerminal_absent absent
        rw [← ends id requests] at same
        simp [covers, absent, same]

theorem intact_atDeath (requests : AList fun _ : String => Value) (reading : Bool)
    (watchdog : CrashWatchdog Value) (early : watchdog.early = true) (retryCount : ℕ) :
    (atDeath requests reading watchdog retryCount).Intact
      (atDeath requests reading watchdog retryCount).payloads where
  kept := by
    have held : watchdog.held = [] := by
      cases watchdog with
      | storing => cases early
      | _ => rfl
    simp [Crash.kept, atDeath, held, RecoverPlace.held]
  uncaptured _ := rfl
  unstored _ := rfl

theorem nodup_payloads {requestId? : Value → Option String} (s : Crash Value)
    (named : ∀ entry ∈ s.requests.entries, requestId? entry.2 = some entry.1) :
    s.payloads.Nodup := by
  apply List.Nodup.of_map requestId?
  have ids : s.payloads.map requestId? = s.requests.keys.map some := by
    simp only [payloads, AList.keys, List.keys, List.map_map]
    exact List.map_congr_left named
  rw [ids]
  exact s.requests.keys_nodup.map fun _ _ same => Option.some.inj same

variable [DecidableEq Value] {requestId? : Value → Option String} {move : CrashMove Value}
  {active : List Value}

/-- One move: the payloads that are kept stay so where it keeps them, and one goes where it does
not. -/
theorem Intact.step (intact : s.Intact active) (taken : s.step requestId? move = some t) :
    if s.keepsPayloads requestId? move then t.Intact active
    else t.kept.length < s.kept.length := by
  cases move with
  | reader move =>
    obtain ⟨requests, watchdog, captured, recovery, recover, sent⟩ := stepReader_cases taken
    have kept := kept_end requests captured (by rw [watchdog])
      (by rw [recovered, recovered, recovery, recover, sent])
    change if s.covers (s.ended? (.reader move)) then _ else _
    split
    next covered =>
      rw [if_pos covered] at kept
      exact ⟨kept ▸ intact.kept, by rw [watchdog, captured]; exact intact.uncaptured,
        by rw [watchdog, recovery]; exact intact.unstored⟩
    next lost =>
      rw [if_neg lost] at kept
      exact kept
  | watchdog move =>
    -- It ends a request like the reader, or moves the payloads to its snapshot and to the state.
    change if s.covers (s.ended? (.watchdog move)) then _ else _
    rcases stepWatchdog_cases taken with
      ⟨place, after, held, held', early, unstored⟩ | ⟨payloads, at_, perm, rfl, none_⟩ |
      ⟨payloads, at_, rfl, none_⟩
    · have kept : if s.covers (s.ended? (.watchdog move)) then t.kept = s.kept
          else t.kept.length < s.kept.length := by
        apply kept_end <;> rw [after]
        · exact held'.trans held.symm
        · rfl
      split
      next covered =>
        rw [if_pos covered] at kept
        refine ⟨kept ▸ intact.kept, ?_, ?_⟩ <;> rw [after]
        · exact fun is_ => intact.uncaptured (early is_)
        · exact fun is_ => intact.unstored (unstored is_)
      next lost =>
        rw [if_neg lost] at kept
        exact kept
    · rw [none_]
      have before := intact.kept
      have uncaptured := intact.uncaptured (by rw [at_]; rfl)
      rw [kept_eq, at_, uncaptured] at before
      refine ⟨?_, nofun, fun _ => intact.unstored (by rw [at_]; rfl)⟩
      apply List.Perm.trans _ before
      rw [kept_eq]
      exact (perm.append_right s.recovered).trans (by simp [CrashWatchdog.held])
    · -- What the snapshot replaces was empty before.
      rw [none_]
      have before := intact.kept
      have nothing := intact.unstored (by rw [at_]; rfl)
      refine ⟨?_, nofun, nofun⟩
      rw [Crash.kept, at_, nothing] at before
      simpa [Crash.kept, CrashWatchdog.held, Crash.payloads] using before
  | recover result =>
    obtain ⟨after, empty, rest⟩ := stepRecover_cases taken
    have watchdog : t.watchdog = s.watchdog := by rw [after]
    have captured : t.captured = s.captured := by rw [after]
    have payloads : t.payloads = s.payloads := by rw [after]; rfl
    change if resends requestId? s.recover result then _ else _
    split
    next resent =>
      rw [if_pos resent] at rest
      refine ⟨?_, ?_, ?_⟩
      · have before := intact.kept
        rw [kept_eq] at before ⊢
        rw [watchdog, captured, payloads]
        exact (rest.append_left _).trans before
      · rw [watchdog, captured]
        exact intact.uncaptured
      · rw [watchdog]
        exact fun is_ => empty (intact.unstored is_)
    next lost =>
      rw [if_neg lost] at rest
      rw [kept_eq, kept_eq, watchdog, captured, payloads]
      simp only [List.length_append]
      omega

/-- Along a run from the death of the worker on, none of the active requests' payloads is lost
exactly where each move keeps the payloads: no request ends before the watchdog's snapshot, and
each call of `recover` that takes payloads out launches, loads and sends them all. -/
theorem noneLost_iff_keepsPayloads (requests : AList fun _ : String => Value)
    (named : ∀ entry ∈ requests.entries, requestId? entry.2 = some entry.1)
    (reading : Bool) (watchdog : CrashWatchdog Value) (early : watchdog.early = true)
    (retryCount : ℕ) (moves : List (CrashMove Value)) (last : Crash Value)
    (run : Runs.exec (Crash.step requestId?) (atDeath requests reading watchdog retryCount)
      moves = some last) :
    Runs.Always (Crash.step requestId?)
        (NoneLost (atDeath requests reading watchdog retryCount).payloads)
        (atDeath requests reading watchdog retryCount) moves ↔
      Runs.Guarded (Crash.step requestId?) (fun s move => keepsPayloads requestId? s move = true)
        (atDeath requests reading watchdog retryCount) moves := by
  have distinct : (atDeath requests reading watchdog retryCount).payloads.Nodup :=
    nodup_payloads _ named
  apply Runs.always_iff_guarded (Crash.step requestId?) (fun s intact => intact.noneLost) _ _
    (intact_atDeath requests reading watchdog early retryCount) run
  · intro s move t intact keeps taken
    have next := intact.step taken
    rwa [if_pos keeps] at next
  · intro s move t intact taken noneLost
    by_contra loses
    have next := intact.step taken
    rw [if_neg loses] at next
    -- One payload fewer is kept than there are active requests.
    rw [intact.kept.length_eq] at next
    exact not_noneLost distinct next noneLost

/-- The watchdog finds the worker dead first; the second call of `recover` sends the payload. -/
theorem noneLost_iff_keepsPayloads_recovered :
    Runs.Always (Crash.step some) (NoneLost ["request-1"])
      (atDeath (AList.singleton "request-1" "request-1") false .asleep 0)
      [.watchdog .proceed, .watchdog (.snapshot ["request-1"]), .reader .proceed,
        .watchdog .proceed, .reader (.collect ["request-1"]), .reader .proceed,
        .recover (.ok ()), .recover (.ok ()), .recover (.ok ()), .recover (.ok ()),
        .recover (.ok ()), .recover (.ok ())] :=
  (noneLost_iff_keepsPayloads (AList.singleton "request-1" "request-1") (by simp) false .asleep
    rfl 0 _ _ rfl).mpr (by decide)

/-- The watchdog captures the payload of the only request. The launch of the first call of
`recover` fails, and the payload is gone when the call returns. -/
theorem failed_launch_loses_payload :
    ∃ last : Crash String,
      Runs.exec (Crash.step some)
        (atDeath (AList.singleton "request-1" "request-1") false .asleep 0)
        [.watchdog .proceed, .watchdog (.snapshot ["request-1"]), .watchdog .proceed,
          .recover (.ok ()), .recover (.ok ()),
          .recover (.error ⟨.workerLaunchFailed, "failed to spawn worker"⟩)] = some last ∧
      last.recover = .idle ∧
      last.returned = [.error ⟨.workerLaunchFailed, "failed to spawn worker"⟩] ∧
      last.recovery.pendingPayloads = [] ∧ last.sent = [] ∧
      ¬ last.NoneLost ["request-1"] := by
  refine ⟨_, rfl, rfl, rfl, rfl, rfl, ?_⟩
  intro noneLost
  exact List.not_mem_nil (noneLost "request-1" List.mem_cons_self)

end Crash

end TribunusCompute.Supervisor
