import TribunusCompute.WorkerProtocol.Inference

/-!
# The host's view of the events

The host validates every event frame. It accepts all that the three threads write, in
the order in which they write it, as long as no generation is found cancelled before its
start: such a generation is ended without ever having been started.
-/
namespace TribunusCompute.WorkerProtocol

/-- The requests the host knows while the inference thread is in a phase. -/
def Phase.started : Phase → List String
  | .running gen => [gen.requestId]
  | .resting | .admitted _ | .active _ | .closing | .clearing => []

namespace Worker

def hostView (s : Worker) : Except FrameValidationError ProtocolValidator :=
  s.events.foldlM ProtocolValidator.validateWorkerEvent (.new s.workerId)

def Accepted (s : Worker) : Prop := ∃ v, s.hostView = .ok v

/-- The inference thread is at the check before the start of a generation. -/
def admits (s : Worker) : Bool :=
  match s.pc with
  | .admission _ => true
  | _ => false

/-- No generation is found cancelled before its start. -/
def StartsUncancelled (s : Worker) : WorkerStep → Prop
  | .inference _ => s.admits → s.cancel = false
  | _ => True

instance (s : Worker) (e : WorkerStep) : Decidable (s.StartsUncancelled e) :=
  match e with
  | .inference _ => inferInstanceAs (Decidable (s.admits → s.cancel = false))
  | .read _ | .readError | .command | .heartbeat => isTrue trivial

/-! ## One event -/

theorem hostView_writeEvent (s : Worker) (event : WorkerEvent) (requestId : Option String) :
    (s.writeEvent event requestId).hostView = s.hostView >>= fun v =>
      v.validateWorkerEvent
        (newWorkerEvent s.workerId s.nextSeq (requestId.getD "") event) := by
  rw [hostView, writeEvent, List.foldlM_append]
  simp [hostView]

/-- The host has seen all events and knows which request is running. -/
structure Seen (s : Worker) (v : ProtocolValidator) : Prop where
  view : s.hostView = .ok v
  seq : v.nextExpectedSeq = s.nextSeq
  workerId : v.expectedWorkerId = s.workerId

theorem validate_next {s : Worker} {v : ProtocolValidator} (seen : s.Seen v) (event : WorkerEvent)
    (requestId : String) :
    v.validateWorkerEvent (newWorkerEvent s.workerId s.nextSeq requestId event) =
      (v.recordEvent event requestId).map (·.advance) := by
  have baseline : v.validateBaseline (newWorkerEvent s.workerId s.nextSeq requestId event) =
      .ok () := by
    simp [ProtocolValidator.validateBaseline, newWorkerEvent, seen.seq, seen.workerId]
  rw [ProtocolValidator.validateWorkerEvent, baseline]
  cases recorded : v.recordEvent event requestId <;>
    simp [newWorkerEvent, recorded, bind, Except.bind, pure, Except.pure, Except.map]

theorem recordEvent_frame {v v' : ProtocolValidator} {event : WorkerEvent} {requestId : String}
    (recorded : v.recordEvent event requestId = .ok v') :
    v'.nextExpectedSeq = v.nextExpectedSeq ∧ v'.expectedWorkerId = v.expectedWorkerId := by
  unfold ProtocolValidator.recordEvent at recorded
  split at recorded
  · split at recorded <;> cases recorded
    exact ⟨rfl, rfl⟩
  all_goals
    first
    | cases recorded; exact ⟨rfl, rfl⟩
    | split at recorded
      · cases recorded
      · split at recorded <;> cases recorded
        exact ⟨rfl, rfl⟩

theorem seen_writeEvent {s : Worker} {v v' : ProtocolValidator} (seen : s.Seen v)
    {event : WorkerEvent} (requestId : Option String)
    (recorded : v.recordEvent event (requestId.getD "") = .ok v') :
    (s.writeEvent event requestId).Seen v'.advance := by
  obtain ⟨seq, workerId⟩ := recordEvent_frame recorded
  constructor
  · rw [hostView_writeEvent, seen.view]
    change v.validateWorkerEvent _ = _
    rw [validate_next seen, recorded]
    rfl
  · rw [ProtocolValidator.advance, seq, seen.seq]
    rfl
  · exact workerId.trans seen.workerId

theorem recordEvent_routine {v : ProtocolValidator} {event : WorkerEvent}
    (routine : event.isRoutine) (requestId : String) : v.recordEvent event requestId = .ok v := by
  cases event <;> first | rfl | cases routine

theorem recordEvent_started {v : ProtocolValidator} {requestId : String}
    (unknown : v.knownRequests = []) :
    v.recordEvent .generationStarted requestId =
      .ok { v with knownRequests := [requestId] } := by
  simp [ProtocolValidator.recordEvent, unknown]

theorem recordEvent_terminal {v : ProtocolValidator} {event : WorkerEvent} {requestId : String}
    (terminal : event.isTerminal) (known : v.knownRequests = [requestId])
    (open_ : requestId ∉ v.terminalRequests) :
    v.recordEvent event requestId =
      .ok { v with
        knownRequests := []
        terminalRequests := v.terminalRequests ++ [requestId] } := by
  cases event with
  | generationCompleted | generationCancelled | generationFailed =>
    simp [ProtocolValidator.recordEvent, known, open_]
  | _ => cases terminal

/-! ## The invariant -/

/-- The host knows the request that is running, and the requests that have ended are no longer in
hand. -/
structure Followed (s : Worker) : Prop where
  inv : s.Inv
  view : ∃ v, s.Seen v ∧ v.knownRequests = s.pc.phase.started ∧
    ∀ id ∈ v.terminalRequests, id ∈ s.taken ∧
      ∀ gen, s.pc.phase.gen? = some gen → gen.requestId ≠ id

theorem followed_new (workerId : String) : (new workerId).Followed where
  inv := inv_new workerId
  view := ⟨.new workerId, ⟨rfl, rfl, rfl⟩, rfl, fun _ member => absurd member List.not_mem_nil⟩

theorem Followed.accepted {s : Worker} (followed : s.Followed) : s.Accepted := by
  obtain ⟨v, seen, -⟩ := followed.view
  exact ⟨v, seen.view⟩

theorem followed_inferred {s t : Worker} (followed : s.Followed) (inv : t.Inv)
    (inferred : s.Inferred t) {result : Option UInt32}
    (uncancelled : s.StartsUncancelled (.inference result)) : t.Followed := by
  obtain ⟨v, seen, known, ended⟩ := followed.view
  cases inferred with
  | quiet pc model shutdown phase =>
    refine ⟨inv, v, ⟨seen.view, seen.seq, seen.workerId⟩, ?_, ?_⟩
    · simp only [phase]
      exact known
    · simp only [phase]
      exact ended
  | routine event requestId pc routine phase =>
    obtain ⟨view, seq, workerId⟩ := seen_writeEvent seen requestId (recordEvent_routine routine _)
    refine ⟨inv, v.advance, ⟨view, seq, workerId⟩, ?_, ?_⟩
    · simp only [phase]
      exact known
    · simp only [phase]
      exact ended
  | handled cmd channel pc model shutdown idle head other phase =>
    have none_ : v.knownRequests = [] := by
      rw [known, idle]
      rfl
    refine ⟨inv, v, ⟨seen.view, seen.seq, seen.workerId⟩, ?_, fun id member => ?_⟩
    · rcases phase with rest | closing
      · simp only [rest]
        exact none_
      · simp only [closing]
        exact none_
    · refine ⟨(ended id member).1, fun gen here => ?_⟩
      rcases phase with rest | closing
      · simp [rest, Phase.gen?] at here
      · simp [closing, Phase.gen?] at here
  | refused gen channel idle head unloaded =>
    refine ⟨inv, v, ⟨seen.view, seen.seq, seen.workerId⟩, known, fun id member => ?_⟩
    exact ⟨List.mem_append_left _ (ended id member).1, (ended id member).2⟩
  | admitted gen channel idle head loaded =>
    refine ⟨inv, v, ⟨seen.view, seen.seq, seen.workerId⟩, ?_, fun id member => ?_⟩
    · rw [known, idle]
      rfl
    · refine ⟨List.mem_append_left _ (ended id member).1, ?_⟩
      rintro other ⟨⟩ same
      -- What has ended was taken before, and each generation is asked for once.
      have distinct := followed.inv.distinct
      rw [head, starts_cons] at distinct
      have apart := List.disjoint_of_nodup_append distinct.of_append_left
      exact apart (same ▸ (ended id member).1) List.mem_cons_self
  | cancelledEarly gen pc flag =>
    have clear : s.cancel = false := uncancelled (by rw [admits, pc])
    exact absurd (flag.symm.trans clear) (by simp)
  | activated gen pc =>
    refine ⟨inv, v, ⟨seen.view, seen.seq, seen.workerId⟩, ?_, fun id member => ?_⟩
    · rw [known, pc]
      rfl
    · refine ⟨(ended id member).1, ?_⟩
      rintro other ⟨⟩
      exact (ended id member).2 gen (by rw [pc]; rfl)
  | started gen pc =>
    have none_ : v.knownRequests = [] := by
      rw [known, pc]
      rfl
    obtain ⟨view, seq, workerId⟩ := seen_writeEvent seen (some gen.requestId)
      (recordEvent_started none_)
    refine ⟨inv, _, ⟨view, seq, workerId⟩, rfl, fun id member => ?_⟩
    refine ⟨(ended id member).1, ?_⟩
    rintro other ⟨⟩
    exact (ended id member).2 gen (by rw [pc]; rfl)
  | ended gen event running terminal flag =>
    have one : v.knownRequests = [gen.requestId] := by
      rw [known, running]
      rfl
    have here : s.pc.phase.gen? = some gen := by
      rw [running]
      rfl
    have open_ : gen.requestId ∉ v.terminalRequests := fun member =>
      (ended gen.requestId member).2 gen here rfl
    obtain ⟨view, seq, workerId⟩ := seen_writeEvent seen (some gen.requestId)
      (recordEvent_terminal terminal one open_)
    refine ⟨inv, _, ⟨view, seq, workerId⟩, rfl, fun id member => ⟨?_, Phase.emptyHanded rfl⟩⟩
    rcases List.mem_append.mp member with old | new
    · exact (ended id old).1
    · rw [List.mem_singleton.mp new]
      exact followed.inv.inHand gen here
  | reset unloading pc =>
    refine ⟨inv, v, ⟨seen.view, seen.seq, seen.workerId⟩, ?_, fun id member => ?_⟩
    · rw [known, pc]
      rfl
    · exact ⟨(ended id member).1, Phase.emptyHanded rfl⟩
  | cleared again pc =>
    refine ⟨inv, v, ⟨seen.view, seen.seq, seen.workerId⟩, ?_, fun id member => ?_⟩
    · rw [known, pc]
      cases again <;> rfl
    · refine ⟨(ended id member).1, ?_⟩
      cases again <;> exact Phase.emptyHanded rfl

theorem followed_step {s t : Worker} {e : WorkerStep} (followed : s.Followed)
    (uncancelled : s.StartsUncancelled e) (taken : s.step e = some t) : t.Followed := by
  obtain ⟨inv, ⟨result, rfl, inferred⟩ | ⟨-, aside⟩⟩ := step_spec followed.inv taken
  · exact followed_inferred followed inv inferred uncancelled
  · obtain ⟨v, seen, known, ended⟩ := followed.view
    rcases aside.written with ⟨events, seq⟩ | ⟨event, routine, events, seq⟩
    · refine ⟨inv, v, ⟨?_, ?_, ?_⟩, ?_, ?_⟩
      · rw [hostView, events, aside.workerId]
        exact seen.view
      · rw [seq]
        exact seen.seq
      · rw [aside.workerId]
        exact seen.workerId
      · rw [aside.pc]
        exact known
      · rw [aside.pc, aside.taken]
        exact ended
    · obtain ⟨view, seq', workerId⟩ :=
        seen_writeEvent seen none (recordEvent_routine routine _)
      refine ⟨inv, v.advance, ⟨?_, ?_, ?_⟩, ?_, ?_⟩
      · rw [hostView, events, aside.workerId]
        exact view
      · rw [seq]
        exact seq'
      · rw [aside.workerId]
        exact workerId
      · rw [aside.pc]
        exact known
      · rw [aside.pc, aside.taken]
        exact ended

/-- The host rejects the end of a generation that it has not seen start. -/
theorem startsUncancelled_of_accepted {s t : Worker} {e : WorkerStep} (followed : s.Followed)
    (taken : s.step e = some t) (accepted : t.Accepted) : s.StartsUncancelled e := by
  cases e with
  | inference result =>
    intro admits
    by_contra flag
    have flag : s.cancel = true := by simpa using flag
    obtain ⟨gen, here⟩ : ∃ gen, s.pc = .admission gen := by
      cases here : s.pc with
      | admission gen => exact ⟨gen, rfl⟩
      | _ => simp [Worker.admits, here] at admits
    obtain ⟨v, seen, known, -⟩ := followed.view
    have none_ : v.knownRequests = [] := by
      rw [known, here]
      rfl
    simp only [step, infer, here, flag, if_true, Option.some.injEq] at taken
    subst taken
    obtain ⟨v', view⟩ := accepted
    have rejected : (s.writeEvent .generationCancelled (some gen.requestId)).hostView =
        .error .unknownRequest := by
      rw [hostView_writeEvent, seen.view]
      change v.validateWorkerEvent _ = _
      rw [validate_next seen]
      simp [ProtocolValidator.recordEvent, none_, Except.map]
    exact absurd (view.symm.trans rejected) (by simp)
  | read | readError | command | heartbeat => trivial

theorem accepted_iff_of_followed {s t : Worker} {steps : List WorkerStep} (followed : s.Followed)
    (run : Runs.exec step s steps = some t) :
    Runs.Always step Accepted s steps ↔ Runs.Guarded step StartsUncancelled s steps :=
  Runs.always_iff_guarded step (fun _ followed => followed.accepted)
    (fun _ _ _ followed uncancelled taken => followed_step followed uncancelled taken)
    (fun _ _ _ followed taken accepted => startsUncancelled_of_accepted followed taken accepted)
    followed run

/-- In every run, the host accepts all events of the worker exactly if no generation is found
cancelled before its start. -/
theorem accepted_iff_startsUncancelled (workerId : String) (steps : List WorkerStep) (t : Worker)
    (run : Runs.exec step (new workerId) steps = some t) :
    Runs.Always step Accepted (new workerId) steps ↔
      Runs.Guarded step StartsUncancelled (new workerId) steps :=
  accepted_iff_of_followed (followed_new workerId) run

/-- A generation is cancelled while it runs. -/
theorem accepted_cancelledRunning :
    Runs.Always step Accepted (new "worker")
      (loadSteps ++ [.read (hostFrame 1 .startGeneration (.startGeneration "gen-1" 4)), .command] ++
        List.replicate 11 (.inference (some 7)) ++
        [.read (hostFrame 2 .cancelGeneration (.request "gen-1")), .command, .heartbeat, .heartbeat,
          .inference (some 7), .inference (some 7)]) := by
  have runs : (Runs.exec step (new "worker")
      (loadSteps ++ [.read (hostFrame 1 .startGeneration (.startGeneration "gen-1" 4)), .command] ++
        List.replicate 11 (.inference (some 7)) ++
        [.read (hostFrame 2 .cancelGeneration (.request "gen-1")), .command, .heartbeat, .heartbeat,
          .inference (some 7), .inference (some 7)])).isSome = true := by decide +kernel
  obtain ⟨t, run⟩ := Option.isSome_iff_exists.mp runs
  exact (accepted_iff_startsUncancelled "worker" _ t run).mpr (by decide +kernel)

/-- The cancellation arrives before the inference thread takes the generation. -/
theorem cancelled_before_start_is_rejected :
    ¬ Runs.Always step Accepted (new "worker")
      (loadSteps ++ [.read (hostFrame 1 .startGeneration (.startGeneration "gen-1" 4)), .command,
        .read (hostFrame 2 .cancelGeneration (.request "gen-1")), .command,
        .inference none, .inference none]) := by
  have runs : (Runs.exec step (new "worker")
      (loadSteps ++ [.read (hostFrame 1 .startGeneration (.startGeneration "gen-1" 4)), .command,
        .read (hostFrame 2 .cancelGeneration (.request "gen-1")), .command,
        .inference none, .inference none])).isSome = true := by decide +kernel
  obtain ⟨t, run⟩ := Option.isSome_iff_exists.mp runs
  rw [accepted_iff_of_followed (followed_new "worker") run]
  decide +kernel

end Worker

end TribunusCompute.WorkerProtocol
