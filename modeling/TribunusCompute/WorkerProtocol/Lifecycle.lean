import TribunusCompute.WorkerProtocol.Validator
import Mathlib.Data.List.Infix
import Mathlib.Data.List.Nodup

/-!
# Request lifecycles across whole runs of the validator

A request is started and ended at most once, and never counted in flight and
ended at the same time, as long as no event arrives late for a closed request.
The validator keeps closed ids apart from the ids in flight but only looks in
the latter for a duplicate start, and looks there first for a late terminal
event.
-/
namespace TribunusCompute.WorkerProtocol

inductive Call
  | host (frame : Frame)
  | worker (frame : Frame)
  deriving DecidableEq, Repr

def Call.frame : Call → Frame
  | .host frame => frame
  | .worker frame => frame

def Call.event? : Call → Option (WorkerEvent × String)
  | .worker { messageKind := .workerEvent event, requestId := some reqId, .. } =>
    some (event, reqId)
  | _ => none

namespace ProtocolValidator

def check (v : ProtocolValidator) : Call → Except FrameValidationError ProtocolValidator
  | .host frame => v.validateHostCommand frame
  | .worker frame => v.validateWorkerEvent frame

/-- A rejected frame leaves the validator as it was. -/
def after (v : ProtocolValidator) (c : Call) : ProtocolValidator :=
  match v.check c with
  | .ok v' => v'
  | .error _ => v

def afterAll (v : ProtocolValidator) (calls : List Call) : ProtocolValidator :=
  calls.foldl after v

/-- The call is accepted, and presents an event of the kind for the request. -/
def counts (kind : WorkerEvent → Bool) (reqId : String) (v : ProtocolValidator) (c : Call) : Bool :=
  match c.event? with
  | some (event, r) => kind event && r == reqId && (v.check c).isOk
  | none => false

def accepted (kind : WorkerEvent → Bool) (reqId : String) : ProtocolValidator → List Call → Nat
  | _, [] => 0
  | v, c :: cs => (counts kind reqId v c).toNat + accepted kind reqId (v.after c) cs

def starts (reqId : String) (v : ProtocolValidator) (calls : List Call) : Nat :=
  accepted (· == .generationStarted) reqId v calls

def terminals (reqId : String) (v : ProtocolValidator) (calls : List Call) : Nat :=
  accepted WorkerEvent.isTerminal reqId v calls

end ProtocolValidator

open ProtocolValidator

/-- What a run of a fresh validator must satisfy. -/
structure LifecycleLaw (workerId : String) (calls : List Call) : Prop where
  never_both : ∀ done, done <+: calls → ∀ reqId,
    ¬ (reqId ∈ ((new workerId).afterAll done).knownRequests ∧
      reqId ∈ ((new workerId).afterAll done).terminalRequests)
  no_restart : ∀ done c, done ++ [c] <+: calls → ∀ reqId,
    0 < (new workerId).terminals reqId done → c.event? = some (.generationStarted, reqId) →
    ∃ e, ((new workerId).afterAll done).check c = .error e
  late_terminal : ∀ done c, done ++ [c] <+: calls → ∀ reqId event,
    0 < (new workerId).terminals reqId done → event.isTerminal = true →
    c.event? = some (event, reqId) →
    ((new workerId).afterAll done).check c = .error .terminalAfterClose
  one_start : ∀ reqId, (new workerId).starts reqId calls ≤ 1
  one_terminal : ∀ reqId, (new workerId).terminals reqId calls ≤ 1

/-- No event arrives late: once an id is closed, no terminal event names it, and no
`GenerationStarted` that passes the baseline checks does. -/
def NoLateEvent (workerId : String) (calls : List Call) : Prop :=
  ∀ done c, done ++ [c] <+: calls → ∀ event reqId,
    reqId ∈ ((new workerId).afterAll done).terminalRequests → c.event? = some (event, reqId) →
    event.isTerminal = false ∧
      (event = .generationStarted →
        ((new workerId).afterAll done).validateBaseline c.frame ≠ .ok ())

/-! ## What one call can do -/

theorem afterAll_append (v : ProtocolValidator) (calls : List Call) (c : Call) :
    v.afterAll (calls ++ [c]) = (v.afterAll calls).after c := by
  simp [afterAll]

theorem accepted_append (kind : WorkerEvent → Bool) (reqId : String) (v : ProtocolValidator)
    (calls : List Call) (c : Call) :
    accepted kind reqId v (calls ++ [c]) =
      accepted kind reqId v calls + (counts kind reqId (v.afterAll calls) c).toNat := by
  induction calls generalizing v with
  | nil => simp [accepted, afterAll]
  | cons d calls ih =>
    simp only [List.cons_append, accepted, ih, afterAll, List.foldl_cons, Nat.add_assoc]

theorem event?_eq_some_iff {c : Call} {event : WorkerEvent} {reqId : String} :
    c.event? = some (event, reqId) ↔
      ∃ frame, c = .worker frame ∧ frame.messageKind = .workerEvent event ∧
        frame.requestId = some reqId := by
  constructor
  · intro h
    unfold Call.event? at h
    split at h
    next => cases h; exact ⟨_, rfl, rfl, rfl⟩
    next => cases h
  · rintro ⟨⟨_, _, _, _, _⟩, rfl, rfl, rfl⟩
    rfl

/-- An event that names a request is accepted when the baseline checks and the bookkeeping
accept it. -/
theorem check_event (v : ProtocolValidator) {c : Call} {event : WorkerEvent} {reqId : String}
    (h : c.event? = some (event, reqId)) :
    v.check c = (v.validateBaseline c.frame).bind fun _ =>
      (v.recordEvent event reqId).map ProtocolValidator.advance := by
  obtain ⟨frame, rfl, kind, named⟩ := event?_eq_some_iff.mp h
  simp only [check, validateWorkerEvent, Call.frame, kind, named, bind, Except.bind, pure,
    Except.pure]
  cases v.validateBaseline frame with
  | error e => rfl
  | ok u => cases v.recordEvent event reqId <;> rfl

theorem recordEvent_other (v : ProtocolValidator) {event : WorkerEvent} (reqId : String)
    (start : event ≠ .generationStarted) (terminal : event.isTerminal = false) :
    v.recordEvent event reqId = .ok v := by
  cases event <;> first | rfl | (exfalso; exact start rfl) | simp [WorkerEvent.isTerminal] at terminal

theorem recordEvent_terminal (v : ProtocolValidator) {event : WorkerEvent} (reqId : String)
    (terminal : event.isTerminal = true) :
    v.recordEvent event reqId =
      if reqId ∉ v.knownRequests then .error .unknownRequest
      else if reqId ∈ v.terminalRequests then .error .terminalAfterClose
      else .ok { v with
        knownRequests := v.knownRequests.filter (· ≠ reqId)
        terminalRequests := v.terminalRequests ++ [reqId] } := by
  cases event <;> first | rfl | simp [WorkerEvent.isTerminal] at terminal

/-- A call that presents no event of a request never moves one. -/
theorem check_silent (v v' : ProtocolValidator) {c : Call} (silent : c.event? = none)
    (h : v.check c = .ok v') :
    v'.knownRequests = v.knownRequests ∧ v'.terminalRequests = v.terminalRequests := by
  cases c with
  | host frame =>
    simp only [check, validateHostCommand, bind, Except.bind, pure, Except.pure, throw,
      throwThe, MonadExceptOf.throw] at h
    cases hb : v.validateBaseline frame <;> rw [hb] at h
    · cases h
    · cases hk : frame.messageKind with
      | workerEvent event => rw [hk] at h; cases h
      | hostCommand cmd =>
        simp only [hk] at h
        cases hr : frame.requestId with
        | none => rw [hr] at h; cases h; exact ⟨rfl, rfl⟩
        | some reqId =>
          simp only [hr] at h
          cases hc : v.checkHostRequest cmd reqId <;> rw [hc] at h <;> cases h
          exact ⟨rfl, rfl⟩
  | worker frame =>
    simp only [check, validateWorkerEvent, bind, Except.bind, pure, Except.pure, throw,
      throwThe, MonadExceptOf.throw] at h
    cases hb : v.validateBaseline frame <;> rw [hb] at h
    · cases h
    · cases hk : frame.messageKind with
      | hostCommand cmd => rw [hk] at h; cases h
      | workerEvent event =>
        simp only [hk] at h
        cases hr : frame.requestId with
        | none => rw [hr] at h; cases h; exact ⟨rfl, rfl⟩
        | some reqId =>
          rw [event?_eq_some_iff.mpr ⟨frame, rfl, hk, hr⟩] at silent
          cases silent

theorem check_cases {v v' : ProtocolValidator} {c : Call} (h : v.check c = .ok v') :
    ((∀ event reqId, c.event? = some (event, reqId) →
        event ≠ .generationStarted ∧ event.isTerminal = false) ∧
      v'.knownRequests = v.knownRequests ∧ v'.terminalRequests = v.terminalRequests) ∨
    (∃ reqId, c.event? = some (.generationStarted, reqId) ∧ reqId ∉ v.knownRequests ∧
      v'.knownRequests = v.knownRequests ++ [reqId] ∧
      v'.terminalRequests = v.terminalRequests) ∨
    (∃ event reqId, c.event? = some (event, reqId) ∧ event.isTerminal = true ∧
      reqId ∈ v.knownRequests ∧ reqId ∉ v.terminalRequests ∧
      v'.knownRequests = v.knownRequests.filter (· ≠ reqId) ∧
      v'.terminalRequests = v.terminalRequests ++ [reqId]) := by
  cases named : c.event? with
  | none =>
    left
    refine ⟨fun _ _ found => ?_, check_silent v v' named h⟩
    cases found
  | some pair =>
    obtain ⟨event, reqId⟩ := pair
    rw [check_event v named] at h
    -- The baseline comes first; behind it only the kind of the event decides.
    cases hb : v.validateBaseline c.frame <;> rw [hb] at h
    · cases h
    by_cases terminal : event.isTerminal = true
    · right; right
      rw [recordEvent_terminal v reqId terminal] at h
      by_cases known : reqId ∈ v.knownRequests
      · by_cases closed : reqId ∈ v.terminalRequests
        · simp [known, closed, Except.bind, Except.map] at h
        · simp only [known, closed, not_true_eq_false, if_false, Except.bind, Except.map,
            Except.ok.injEq] at h
          subst h
          exact ⟨event, reqId, rfl, terminal, known, closed, rfl, rfl⟩
      · simp [known, Except.bind, Except.map] at h
    · have other : event.isTerminal = false := by simpa using terminal
      by_cases start : event = .generationStarted
      · right; left
        subst start
        by_cases known : reqId ∈ v.knownRequests
        · simp [recordEvent, known, Except.bind, Except.map] at h
        · simp only [recordEvent, known, if_false, Except.bind, Except.map,
            Except.ok.injEq] at h
          subst h
          exact ⟨reqId, rfl, known, rfl, rfl⟩
      · left
        rw [recordEvent_other v reqId start other] at h
        simp only [Except.bind, Except.map, Except.ok.injEq] at h
        subst h
        refine ⟨?_, rfl, rfl⟩
        intro event' reqId' same
        cases same
        exact ⟨start, other⟩

theorem counts_iff {kind : WorkerEvent → Bool} {reqId : String} {v : ProtocolValidator}
    {c : Call} : counts kind reqId v c = true ↔
      ∃ event, c.event? = some (event, reqId) ∧ kind event = true ∧ ∃ v', v.check c = .ok v' := by
  unfold counts
  cases hc : v.check c with
  | error e => cases h : c.event? <;> simp [Except.isOk, Except.toBool]
  | ok v' =>
    cases h : c.event? with
    | none => simp
    | some pair =>
      obtain ⟨event, r⟩ := pair
      simp only [Except.isOk, Except.toBool, Bool.and_true, Bool.and_eq_true, beq_iff_eq,
        Option.some.injEq, Prod.mk.injEq, Except.ok.injEq, exists_eq', and_true]
      constructor
      · rintro ⟨yes, rfl⟩
        exact ⟨event, ⟨rfl, rfl⟩, yes⟩
      · rintro ⟨event', ⟨rfl, rfl⟩, yes⟩
        exact ⟨yes, rfl⟩

theorem after_error {v : ProtocolValidator} {c : Call} {e : FrameValidationError}
    (h : v.check c = .error e) : v.after c = v := by
  simp only [ProtocolValidator.after, h]

theorem after_ok {v v' : ProtocolValidator} {c : Call} (h : v.check c = .ok v') :
    v.after c = v' := by
  simp only [ProtocolValidator.after, h]

theorem counts_eq_false {kind : WorkerEvent → Bool} {reqId : String} {v : ProtocolValidator}
    {c : Call}
    (other : ∀ event v', c.event? = some (event, reqId) → v.check c = .ok v' → kind event = false) :
    counts kind reqId v c = false := by
  apply Bool.eq_false_iff.mpr
  intro yes
  obtain ⟨event, named, matches_kind, v', h⟩ := counts_iff.mp yes
  rw [other event v' named h] at matches_kind
  cases matches_kind

/-! ## Terminal events -/

/-- The closed ids are the ids of the accepted terminal events, each once. -/
theorem terminals_step (v : ProtocolValidator) (c : Call) (reqId : String)
    (nodup : v.terminalRequests.Nodup) :
    (v.after c).terminalRequests.Nodup ∧
      (v.after c).terminalRequests.count reqId =
        v.terminalRequests.count reqId + (counts WorkerEvent.isTerminal reqId v c).toNat := by
  cases h : v.check c with
  | error e =>
    rw [after_error h, counts_eq_false (fun _ _ _ ok => by rw [h] at ok; cases ok)]
    exact ⟨nodup, rfl⟩
  | ok v' =>
    rw [after_ok h]
    rcases check_cases h with ⟨other, -, same⟩ | ⟨r, named, -, -, same⟩ |
      ⟨event, r, named, terminal, -, fresh, -, added⟩
    · rw [same, counts_eq_false (fun event _ named _ => (other event reqId named).2)]
      exact ⟨nodup, rfl⟩
    · have silent : counts WorkerEvent.isTerminal reqId v c = false := by
        apply counts_eq_false
        intro event _ named' _
        rw [named] at named'
        cases named'
        rfl
      rw [same, silent]
      exact ⟨nodup, rfl⟩
    · rw [added]
      refine ⟨List.nodup_append.mpr ⟨nodup, by simp, ?_⟩, ?_⟩
      · intro a ha b hb
        rw [List.mem_singleton.mp hb]
        rintro rfl
        exact fresh ha
      · rw [List.count_append]
        by_cases same : r = reqId
        · subst same
          have yes : counts WorkerEvent.isTerminal r v c = true :=
            counts_iff.mpr ⟨event, named, terminal, v', h⟩
          simp [yes]
        · have no : counts WorkerEvent.isTerminal reqId v c = false := by
            apply counts_eq_false
            intro event' _ named' _
            rw [named] at named'
            cases named'
            exact absurd rfl same
          simp [no, same]

theorem terminals_eq_count (workerId reqId : String) (calls : List Call) :
    ((new workerId).afterAll calls).terminalRequests.Nodup ∧
      (new workerId).terminals reqId calls =
        ((new workerId).afterAll calls).terminalRequests.count reqId := by
  induction calls using List.reverseRecOn with
  | nil => exact ⟨List.nodup_nil, rfl⟩
  | append_singleton calls c ih =>
    obtain ⟨nodup, counted⟩ := ih
    have step := terminals_step ((new workerId).afterAll calls) c reqId nodup
    rw [afterAll_append]
    refine ⟨step.1, ?_⟩
    rw [step.2, ← counted]
    exact accepted_append _ _ _ _ _

theorem closed_iff (workerId reqId : String) (calls : List Call) :
    0 < (new workerId).terminals reqId calls ↔
      reqId ∈ ((new workerId).afterAll calls).terminalRequests := by
  rw [(terminals_eq_count workerId reqId calls).2, List.count_pos_iff]

/-! ## Starts, while no event is late -/

/-- What every state of a run without late events satisfies. -/
structure Tracked (workerId : String) (calls : List Call) : Prop where
  apart : ∀ reqId, reqId ∈ ((new workerId).afterAll calls).knownRequests →
    reqId ∉ ((new workerId).afterAll calls).terminalRequests
  once : ∀ reqId, (new workerId).starts reqId calls ≤ 1
  seen : ∀ reqId, 0 < (new workerId).starts reqId calls →
    reqId ∈ ((new workerId).afterAll calls).knownRequests ∨
      reqId ∈ ((new workerId).afterAll calls).terminalRequests

theorem NoLateEvent.of_append {workerId : String} {calls more : List Call}
    (h : NoLateEvent workerId (calls ++ more)) : NoLateEvent workerId calls :=
  fun done c before => h done c (before.trans (List.prefix_append calls more))

private theorem starts_append (workerId reqId : String) (calls : List Call) (c : Call) :
    (new workerId).starts reqId (calls ++ [c]) = (new workerId).starts reqId calls +
      (counts (· == .generationStarted) reqId ((new workerId).afterAll calls) c).toNat :=
  accepted_append _ _ _ _ _

theorem tracked_of_noLateEvent (workerId : String) (calls : List Call)
    (quiet : NoLateEvent workerId calls) : Tracked workerId calls := by
  induction calls using List.reverseRecOn with
  | nil =>
    exact ⟨fun _ h => by simp [afterAll, new] at h, fun _ => by simp [starts, accepted],
      fun _ h => by simp [starts, accepted] at h⟩
  | append_singleton calls c ih =>
    have before := ih quiet.of_append
    have admitted := quiet calls c (List.prefix_refl _)
    cases h : ((new workerId).afterAll calls).check c with
    | error e =>
      -- A refused frame changes neither the lists nor the counts.
      have silent : ∀ reqId, counts (· == .generationStarted) reqId
          ((new workerId).afterAll calls) c = false :=
        fun reqId => counts_eq_false fun _ _ _ ok => by rw [h] at ok; cases ok
      refine ⟨?_, ?_, ?_⟩ <;> intro reqId <;>
        simp only [afterAll_append, after_error h, starts_append, silent, Bool.toNat_false,
          Nat.add_zero]
      · exact before.apart reqId
      · exact before.once reqId
      · exact before.seen reqId
    | ok v' =>
      rcases check_cases h with ⟨other, knownEq, closedEq⟩ | ⟨r, named, fresh, knownEq, closedEq⟩ |
        ⟨event, r, named, terminal, known, -, knownEq, closedEq⟩
      · have silent : ∀ reqId, counts (· == .generationStarted) reqId
            ((new workerId).afterAll calls) c = false :=
          fun reqId => counts_eq_false fun event _ named _ => by
            simpa using (other event reqId named).1
        refine ⟨?_, ?_, ?_⟩ <;> intro reqId <;>
          simp only [afterAll_append, after_ok h, starts_append, silent, Bool.toNat_false,
            Nat.add_zero, knownEq, closedEq]
        · exact before.apart reqId
        · exact before.once reqId
        · exact before.seen reqId
      · -- An accepted start passed the baseline, so its id is not closed.
        have open_ : r ∉ ((new workerId).afterAll calls).terminalRequests := by
          intro closed
          apply (admitted _ r closed named).2 rfl
          rw [check_event _ named] at h
          cases hb : ((new workerId).afterAll calls).validateBaseline c.frame with
          | error e => rw [hb] at h; cases h
          | ok u => rfl
        have counted : ∀ reqId, counts (· == .generationStarted) reqId
            ((new workerId).afterAll calls) c = decide (r = reqId) := by
          intro reqId
          by_cases same : r = reqId
          · subst same
            rw [decide_eq_true rfl]
            exact counts_iff.mpr ⟨_, named, rfl, v', h⟩
          · rw [decide_eq_false same]
            apply counts_eq_false
            intro event _ named' _
            rw [named] at named'
            cases named'
            exact absurd rfl same
        have never : (new workerId).starts r calls = 0 := by
          apply Nat.eq_zero_of_not_pos
          intro started
          exact (before.seen r started).elim fresh open_
        refine ⟨?_, ?_, ?_⟩ <;> intro reqId <;>
          simp only [afterAll_append, after_ok h, starts_append, counted, knownEq, closedEq,
            List.mem_append, List.mem_singleton]
        · rintro (old | rfl)
          · exact before.apart reqId old
          · exact open_
        · -- The id was in neither list, so this is its first start.
          by_cases same : r = reqId
          · subst same
            simp [never]
          · simpa [same] using before.once reqId
        · by_cases same : r = reqId
          · intro _
            exact Or.inl (Or.inr same.symm)
          · simp only [decide_eq_false same, Bool.toNat_false, Nat.add_zero]
            intro started
            rcases before.seen reqId started with old | old
            · exact Or.inl (Or.inl old)
            · exact Or.inr old
      · -- A terminal event is no start, and moves its id from the known to the closed.
        have silent : ∀ reqId, counts (· == .generationStarted) reqId
            ((new workerId).afterAll calls) c = false := by
          intro reqId
          apply counts_eq_false
          intro event' _ named' _
          rw [named] at named'
          cases named'
          cases event <;> first | rfl | simp [WorkerEvent.isTerminal] at terminal
        refine ⟨?_, ?_, ?_⟩ <;> intro reqId <;>
          simp only [afterAll_append, after_ok h, starts_append, silent, Bool.toNat_false,
            Nat.add_zero, knownEq, closedEq, List.mem_append, List.mem_singleton, List.mem_filter,
            decide_eq_true_eq]
        · rintro ⟨old, different⟩ (closed | same)
          · exact before.apart reqId old closed
          · exact different same
        · exact before.once reqId
        · intro started
          by_cases same : reqId = r
          · exact Or.inr (Or.inr same)
          · rcases before.seen reqId started with old | old
            · exact Or.inl ⟨old, same⟩
            · exact Or.inr (Or.inl old)

/-! ## The law, and exactly when it holds -/

theorem lifecycle_of_noLateEvent (workerId : String) (calls : List Call)
    (quiet : NoLateEvent workerId calls) : LifecycleLaw workerId calls := by
  have ofPrefix : ∀ {done}, done <+: calls → NoLateEvent workerId done :=
    fun before d c h => quiet d c (h.trans before)
  refine ⟨?_, ?_, ?_, (tracked_of_noLateEvent workerId calls quiet).once, ?_⟩
  · intro done before reqId both
    exact (tracked_of_noLateEvent workerId done (ofPrefix before)).apart reqId both.1 both.2
  · intro done c before reqId closed named
    rw [closed_iff] at closed
    have rejected := (quiet done c before _ reqId closed named).2 rfl
    rw [check_event _ named]
    cases hb : ((new workerId).afterAll done).validateBaseline c.frame with
    | error e => exact ⟨e, rfl⟩
    | ok u => exact absurd hb rejected
  · intro done c before reqId event closed terminal named
    rw [closed_iff] at closed
    have other := (quiet done c before event reqId closed named).1
    rw [terminal] at other
    cases other
  · intro reqId
    obtain ⟨nodup, counted⟩ := terminals_eq_count workerId reqId calls
    rw [counted]
    exact List.nodup_iff_count_le_one.mp nodup reqId

/-- A terminal event for an id that is not in flight never reaches the check that reports
`TerminalAfterClose`. -/
theorem late_terminal_error (v : ProtocolValidator) {c : Call} {event : WorkerEvent}
    {reqId : String} (named : c.event? = some (event, reqId)) (terminal : event.isTerminal = true)
    (idle : reqId ∉ v.knownRequests) : v.check c ≠ .error .terminalAfterClose := by
  rw [check_event v named, recordEvent_terminal v reqId terminal, if_pos idle]
  unfold validateBaseline
  split_ifs <;> simp [Except.bind, Except.map]

/-- A start for an id that is not in flight is accepted as soon as the baseline checks pass. -/
theorem late_start_accepted (v : ProtocolValidator) {c : Call} {reqId : String}
    (named : c.event? = some (.generationStarted, reqId)) (idle : reqId ∉ v.knownRequests)
    (baseline : v.validateBaseline c.frame = .ok ()) : ∃ v', v.check c = .ok v' := by
  rw [check_event v named, baseline]
  simp [recordEvent, idle, Except.bind, Except.map]

/-- The runs that keep the lifecycle law are exactly those without late events. -/
theorem lifecycle_iff (workerId : String) (calls : List Call) :
    LifecycleLaw workerId calls ↔ NoLateEvent workerId calls := by
  refine ⟨fun law => ?_, lifecycle_of_noLateEvent workerId calls⟩
  intro done c before event reqId closed named
  have idle : reqId ∉ ((new workerId).afterAll done).knownRequests := fun known =>
    law.never_both done ((List.prefix_append done [c]).trans before) reqId ⟨known, closed⟩
  have ended : 0 < (new workerId).terminals reqId done := (closed_iff workerId reqId done).mpr closed
  constructor
  · apply Bool.eq_false_iff.mpr
    intro terminal
    exact late_terminal_error _ named terminal idle
      (law.late_terminal done c before reqId event ended terminal named)
  · rintro rfl baseline
    obtain ⟨v', accepted⟩ := late_start_accepted _ named idle baseline
    obtain ⟨e, rejected⟩ := law.no_restart done c before reqId ended named
    rw [accepted] at rejected
    cases rejected

def eventFrame (seq : UInt64) (event : WorkerEvent) : Frame :=
  { version := v1_0, workerInstanceId := "wkr-003", sequenceNumber := seq,
    requestId := some "gen-xyz", messageKind := .workerEvent event }

def restartedRun : List Call :=
  [.worker (eventFrame 0 .generationStarted), .worker (eventFrame 1 .generationCompleted),
    .worker (eventFrame 2 .generationStarted)]

theorem restartedRun_breaks_law : ¬ LifecycleLaw "wkr-003" restartedRun := by
  intro law
  have twice : (new "wkr-003").starts "gen-xyz" restartedRun = 2 := by decide
  have once := law.one_start "gen-xyz"
  omega

end TribunusCompute.WorkerProtocol
