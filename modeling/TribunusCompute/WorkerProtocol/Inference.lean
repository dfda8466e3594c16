import Mathlib.Data.List.Nodup
import TribunusCompute.WorkerProtocol.Worker

/-!
# What a step of the inference thread can do

The thread rests, has admitted a generation, has made it the active request, runs it,
closes it, or clears the cancellation flag. A generation that has been taken leaves these phases through one of three
doors: the model is not loaded, the cancellation flag is found set before the start, or
a terminal event is written.
-/
namespace TribunusCompute.WorkerProtocol

inductive Phase
  | resting
  | admitted (gen : Generation)
  | active (gen : Generation)
  | running (gen : Generation)
  | closing
  | clearing
  deriving DecidableEq, Repr

def Phase.gen? : Phase → Option Generation
  | .admitted gen | .active gen | .running gen => some gen
  | .resting | .closing | .clearing => none

def InferencePc.phase : InferencePc → Phase
  | .idle | .loading | .announcing _ | .loadFailed | .exited => .resting
  | .busy gen | .admission gen | .activating gen => .admitted gen
  | .starting gen => .active gen
  | .started gen | .prefillStarting gen | .prefilling gen | .prefilled gen
  | .prefillCompleting gen | .firstToken gen | .decodeHead gen _ | .decoding gen _
  | .decoded gen _ _ | .emitting gen _ _ | .completing gen => .running gen
  | .resetting _ => .closing
  | .clearing _ => .clearing

def WorkerEvent.isRoutine (event : WorkerEvent) : Bool :=
  event ≠ .generationStarted && !event.isTerminal

def InferencePc.Orderly : InferencePc → Prop
  | .busy _ => False
  | .announcing events => ∀ event ∈ events, event.isRoutine
  | _ => True

theorem Phase.emptyHanded {phase : Phase} (none_ : phase.gen? = none) {P : Generation → Prop} :
    ∀ gen, phase.gen? = some gen → P gen :=
  fun _ here => absurd (none_.symm.trans here) (by simp)

def Frame.endsRequest (frame : Frame) (id : String) : Bool :=
  match frame.messageKind with
  | .workerEvent event => event.isTerminal && frame.requestId = some id
  | .hostCommand _ => false

namespace Worker

/-- How many terminal events of the request have been written. -/
def ends (s : Worker) (id : String) : ℕ := s.events.countP (·.endsRequest id)

theorem ends_writeEvent (s : Worker) (event : WorkerEvent) (requestId : Option String)
    (id : String) :
    (s.writeEvent event requestId).ends id =
      s.ends id + if event.isTerminal && requestId.getD "" = id then 1 else 0 := by
  simp [ends, writeEvent, newWorkerEvent, Frame.endsRequest, List.countP_append, List.countP_cons]

theorem ends_routine (s : Worker) {event : WorkerEvent} (routine : event.isRoutine)
    (requestId : Option String) (id : String) :
    (s.writeEvent event requestId).ends id = s.ends id := by
  have silent : event.isTerminal = false := by
    simp only [WorkerEvent.isRoutine, Bool.and_eq_true, Bool.not_eq_true'] at routine
    exact routine.2
  rw [ends_writeEvent, silent]
  rfl

/-- The ways in which the inference thread gets from `s` to another state. -/
inductive Inferred (s : Worker) : Worker → Prop
  | quiet (pc : InferencePc) (model shutdown : Bool) (phase : pc.phase = s.pc.phase) :
      Inferred s { s with pc := pc, model := model, shutdown := shutdown }
  | routine (event : WorkerEvent) (requestId : Option String) (pc : InferencePc)
      (routine : event.isRoutine) (phase : pc.phase = s.pc.phase) :
      Inferred s { s.writeEvent event requestId with pc := pc }
  | handled (cmd : InferenceCommand) (channel : List InferenceCommand) (pc : InferencePc)
      (model shutdown : Bool) (idle : s.pc = .idle) (head : s.channel = cmd :: channel)
      (other : starts [cmd] = []) (phase : pc.phase = .resting ∨ pc.phase = .closing) :
      Inferred s { s with channel := channel, pc := pc, model := model, shutdown := shutdown }
  | refused (gen : Generation) (channel : List InferenceCommand) (idle : s.pc = .idle)
      (head : s.channel = .startGeneration gen :: channel) (unloaded : s.model = false) :
      Inferred s
        { s with
          channel := channel
          taken := s.taken ++ [gen.requestId]
          due := if s.shutdown then s.due else s.due ++ [gen.requestId] }
  | admitted (gen : Generation) (channel : List InferenceCommand) (idle : s.pc = .idle)
      (head : s.channel = .startGeneration gen :: channel) (loaded : s.model = true) :
      Inferred s
        { s with
          channel := channel
          taken := s.taken ++ [gen.requestId]
          due := if s.shutdown then s.due else s.due ++ [gen.requestId]
          pc := .admission gen }
  | cancelledEarly (gen : Generation) (pc : s.pc = .admission gen) (flag : s.cancel = true) :
      Inferred s { s.writeEvent .generationCancelled (some gen.requestId) with pc := .idle }
  | activated (gen : Generation) (pc : s.pc = .activating gen) :
      Inferred s { s with activeRequest := some gen.requestId, pc := .starting gen }
  | started (gen : Generation) (pc : s.pc = .starting gen) :
      Inferred s { s.writeEvent .generationStarted (some gen.requestId) with pc := .started gen }
  | ended (gen : Generation) (event : WorkerEvent) (running : s.pc.phase = .running gen)
      (terminal : event.isTerminal) (flag : event = .generationCancelled → s.cancel = true) :
      Inferred s { s.writeEvent event (some gen.requestId) with pc := .resetting false }
  | reset (unloading : Bool) (pc : s.pc = .resetting unloading) :
      Inferred s { s with activeRequest := none, pc := .clearing unloading }
  | cleared (again : Bool) (pc : s.pc = .clearing again) :
      Inferred s { s with cancel := false, pc := if again then .clearing false else .idle }

/-- No session is ever in the way of another generation, and a load announces nothing about
requests. -/
structure Orderly (s : Worker) : Prop where
  session : s.session = false
  pc : s.pc.Orderly

theorem checkCancelled_spec {s : Worker} (orderly : s.Orderly) {gen : Generation}
    {next : InferencePc} (running : s.pc.phase = .running gen)
    (phase : next.phase = .running gen) (next_ : next.Orderly) :
    s.Inferred (s.checkCancelled gen next) ∧ (s.checkCancelled gen next).Orderly := by
  unfold checkCancelled
  split
  next flag =>
    exact ⟨.ended gen .generationCancelled running rfl fun _ => flag, orderly.session, trivial⟩
  next =>
    exact ⟨.quiet next s.model s.shutdown (phase.trans running.symm), orderly.session, next_⟩

theorem take_spec {s : Worker} (orderly : s.Orderly) {cmd : InferenceCommand}
    {channel : List InferenceCommand} (idle : s.pc = .idle) (head : s.channel = cmd :: channel) :
    s.Inferred ({ s with channel := channel }.take cmd) ∧
      ({ s with channel := channel }.take cmd).Orderly := by
  have rest : s.pc.phase = .resting := by
    rw [idle]
    rfl
  cases cmd with
  | shutdown =>
    exact ⟨.handled _ channel .exited s.model true idle head rfl (.inl rfl), orderly.session, trivial⟩
  | unloadModel =>
    exact ⟨.handled _ channel (.resetting true) false s.shutdown idle head rfl (.inr rfl),
      orderly.session, trivial⟩
  | cancelGeneration =>
    exact ⟨.handled _ channel s.pc s.model s.shutdown idle head rfl (.inl rest),
      orderly.session, orderly.pc⟩
  | loadModel =>
    exact ⟨.handled _ channel .loading s.model s.shutdown idle head rfl (.inl rfl),
      orderly.session, trivial⟩
  | startGeneration gen =>
    cases model : s.model with
    | false =>
      have refused := Inferred.refused gen channel idle head model
      simp only [take, Bool.not_false, if_true]
      exact ⟨by simpa [model] using refused, orderly.session, orderly.pc⟩
    | true =>
      have admitted := Inferred.admitted gen channel idle head model
      simp only [take, orderly.session, Bool.not_true, Bool.false_eq_true, if_false]
      exact ⟨by simpa [model, orderly.session] using admitted, rfl, trivial⟩

theorem infer_spec {s t : Worker} (orderly : s.Orderly) {result : Option UInt32}
    (taken : s.infer result = some t) : s.Inferred t ∧ t.Orderly := by
  unfold infer at taken
  have phase {pc : InferencePc} (here : s.pc = pc) : s.pc.phase = pc.phase := by rw [here]
  cases here : s.pc with
  | idle =>
    rw [here] at taken
    dsimp only at taken
    split at taken
    next cmd channel head =>
      obtain rfl := Option.some.inj taken
      have took := take_spec orderly here head
      rwa [here] at took
    next =>
      -- An empty channel is waited at until the command thread has gone.
      split at taken
      next => cases taken
      next =>
        obtain rfl := Option.some.inj taken
        exact ⟨.quiet .exited s.model s.shutdown (phase here).symm, orderly.session, trivial⟩
  | loading =>
    rw [here] at taken
    dsimp only at taken
    split at taken
    next =>
      obtain rfl := Option.some.inj taken
      exact ⟨.quiet _ true s.shutdown (phase here).symm, orderly.session,
        show ∀ event ∈ loadEvents, event.isRoutine = true by decide⟩
    next =>
      obtain rfl := Option.some.inj taken
      exact ⟨.routine .workerFatal none .loadFailed rfl (phase here).symm, orderly.session, trivial⟩
  | announcing events =>
    rw [here] at taken
    cases events with
    | nil =>
      obtain rfl := Option.some.inj taken
      exact ⟨.quiet .idle s.model s.shutdown (phase here).symm, orderly.session, trivial⟩
    | cons event events =>
      obtain rfl := Option.some.inj taken
      have announces : ∀ e ∈ event :: events, e.isRoutine = true := by
        have announces := orderly.pc
        rwa [here] at announces
      exact ⟨.routine event none _ (announces event List.mem_cons_self) (phase here).symm,
        orderly.session, fun e member => announces e (List.mem_cons_of_mem _ member)⟩
  | loadFailed =>
    rw [here] at taken
    obtain rfl := Option.some.inj taken
    exact ⟨.quiet .exited s.model true (phase here).symm, orderly.session, trivial⟩
  | busy gen =>
    -- No session is ever kept, so no generation is refused for one.
    have busy := orderly.pc
    rw [here] at busy
    cases busy
  | admission gen =>
    rw [here] at taken
    dsimp only at taken
    split at taken
    next flag =>
      obtain rfl := Option.some.inj taken
      exact ⟨.cancelledEarly gen here flag, orderly.session, trivial⟩
    next =>
      obtain rfl := Option.some.inj taken
      exact ⟨.quiet _ s.model s.shutdown (phase here).symm, orderly.session, trivial⟩
  | activating gen =>
    rw [here] at taken
    obtain rfl := Option.some.inj taken
    exact ⟨.activated gen here, orderly.session, trivial⟩
  | starting gen =>
    rw [here] at taken
    obtain rfl := Option.some.inj taken
    exact ⟨.started gen here, orderly.session, trivial⟩
  | started gen | prefilled gen | decoded gen pos token =>
    rw [here] at taken
    obtain rfl := Option.some.inj taken
    exact checkCancelled_spec orderly (phase here) rfl trivial
  | prefillStarting gen | prefillCompleting gen | firstToken gen =>
    rw [here] at taken
    obtain rfl := Option.some.inj taken
    exact ⟨.routine _ _ _ rfl (phase here).symm, orderly.session, trivial⟩
  | prefilling gen | decoding gen pos =>
    rw [here] at taken
    dsimp only at taken
    split at taken
    next =>
      obtain rfl := Option.some.inj taken
      exact ⟨.quiet _ s.model s.shutdown (phase here).symm, orderly.session, trivial⟩
    next =>
      obtain rfl := Option.some.inj taken
      exact ⟨.ended gen _ (phase here) rfl nofun, orderly.session, trivial⟩
  | decodeHead gen pos =>
    rw [here] at taken
    dsimp only at taken
    split at taken
    next =>
      obtain rfl := Option.some.inj taken
      exact checkCancelled_spec orderly (phase here) rfl trivial
    next =>
      obtain rfl := Option.some.inj taken
      exact ⟨.quiet _ s.model s.shutdown (phase here).symm, orderly.session, trivial⟩
  | emitting gen pos token =>
    rw [here] at taken
    obtain rfl := Option.some.inj taken
    dsimp only
    -- The end of the text leads to another place, where the generation is running all the same.
    split
    · exact ⟨.routine _ _ _ rfl (phase here).symm, orderly.session, trivial⟩
    · exact ⟨.routine _ _ _ rfl (phase here).symm, orderly.session, trivial⟩
  | completing gen =>
    rw [here] at taken
    obtain rfl := Option.some.inj taken
    exact ⟨.ended gen _ (phase here) rfl nofun, orderly.session, trivial⟩
  | resetting unloading =>
    rw [here] at taken
    obtain rfl := Option.some.inj taken
    exact ⟨.reset unloading here, orderly.session, trivial⟩
  | clearing again =>
    rw [here] at taken
    obtain rfl := Option.some.inj taken
    refine ⟨.cleared again here, orderly.session, ?_⟩
    cases again <;> trivial
  | exited =>
    rw [here] at taken
    cases taken

/-! ## Requests in the system -/

/-- Each generation asked for is at one place on its way to the inference thread, and only those
taken from the channel have ended. -/
structure Inv (s : Worker) : Prop where
  orderly : s.Orderly
  writes : ∀ event, .write event ∈ s.todo → event.isRoutine
  distinct : (s.taken ++ starts s.channel ++ pendingStarts s.todo).Nodup
  asked : ∀ id ∈ s.taken ++ starts s.channel ++ pendingStarts s.todo, id ∈ s.requested
  inHand : ∀ gen, s.pc.phase.gen? = some gen → gen.requestId ∈ s.taken
  ended : ∀ id, 0 < s.ends id → id ∈ s.taken

theorem inv_new (workerId : String) : (new workerId).Inv where
  orderly := ⟨rfl, trivial⟩
  writes := fun _ member => absurd member List.not_mem_nil
  distinct := List.nodup_nil
  asked := fun _ member => absurd member List.not_mem_nil
  inHand := nofun
  ended := fun _ positive => absurd positive (Nat.lt_irrefl 0)

/-- What a step of another thread leaves to the inference thread, and adds to the events. -/
structure Aside (s t : Worker) : Prop where
  workerId : t.workerId = s.workerId
  model : t.model = s.model
  session : t.session = s.session
  pc : t.pc = s.pc
  taken : t.taken = s.taken
  due : t.due = s.due
  written : t.events = s.events ∧ t.nextSeq = s.nextSeq ∨
    ∃ event, event.isRoutine ∧ t.events = (s.writeEvent event none).events ∧
      t.nextSeq = s.nextSeq + 1

theorem Aside.ends {s t : Worker} (aside : s.Aside t) (id : String) : t.ends id = s.ends id := by
  rcases aside.written with ⟨same, -⟩ | ⟨event, routine, same, -⟩
  · rw [Worker.ends, same]
    rfl
  · rw [Worker.ends, same]
    exact s.ends_routine routine none id

theorem aside_command {s : Worker} (writes : ∀ event, .write event ∈ s.todo → event.isRoutine)
    {action : CommandAction} {todo : List CommandAction} (head : s.todo = action :: todo) :
    s.Aside ({ s with todo := todo }.act action) := by
  cases action with
  | write event =>
    have routine : event.isRoutine := writes event (head ▸ List.mem_cons_self)
    exact ⟨rfl, rfl, rfl, rfl, rfl, rfl, .inr ⟨event, routine, rfl, rfl⟩⟩
  | storeCancel | send cmd | storeShutdown | stop =>
    exact ⟨rfl, rfl, rfl, rfl, rfl, rfl, .inl ⟨rfl, rfl⟩⟩

theorem aside_heartbeat {s t : Worker} (taken : s.heartbeatStep = some t) : s.Aside t := by
  unfold heartbeatStep at taken
  split at taken
  · obtain rfl := Option.some.inj taken
    exact ⟨rfl, rfl, rfl, rfl, rfl, rfl, .inl ⟨rfl, rfl⟩⟩
  · obtain rfl := Option.some.inj taken
    exact ⟨rfl, rfl, rfl, rfl, rfl, rfl, .inr ⟨.heartbeat, rfl, rfl, rfl⟩⟩
  · cases taken

theorem handleFrame_cases (v : ProtocolValidator) (c : CommandFrame) :
    (handleFrame v c).2 = [] ∨
      (handleFrame v c).2 = [.write .workerFatal, .storeShutdown, .stop] ∨
      ∃ cmd, c.frame.messageKind = .hostCommand cmd ∧
        (handleFrame v c).2 = commandActions c.payload cmd := by
  unfold handleFrame
  split
  · exact .inl rfl
  split
  · exact .inl rfl
  next cmd kind =>
    split
    · exact .inr (.inl rfl)
    · exact .inr (.inr ⟨cmd, kind, rfl⟩)

/-- What the command thread is told to write is about no request. -/
theorem handleFrame_writes (v : ProtocolValidator) (c : CommandFrame) {event : WorkerEvent}
    (member : .write event ∈ (handleFrame v c).2) : event.isRoutine := by
  have fatal (member : .write event ∈ [CommandAction.write .workerFatal, .storeShutdown, .stop]) :
      event.isRoutine := by
    obtain rfl : event = .workerFatal := by simpa using member
    rfl
  rcases handleFrame_cases v c with ignored | rejected | ⟨cmd, -, accepted⟩
  · rw [ignored] at member
    cases member
  · rw [rejected] at member
    exact fatal member
  · rw [accepted] at member
    cases cmd with
    | hello | unloadModel | ping =>
      obtain rfl : event = _ := by simpa [commandActions] using member
      rfl
    | loadModel =>
      cases payload : c.payload with
      | policySnapshot => simp [commandActions, payload] at member
      | startGeneration | request | other =>
        rw [payload] at member
        exact fatal member
    | startGeneration => cases payload : c.payload <;> simp [commandActions, payload] at member
    | cancelGeneration | shutdown | memoryPressure => simp [commandActions] at member

/-- At most one generation is asked for by a frame. -/
theorem pendingStarts_handleFrame (v : ProtocolValidator) (c : CommandFrame) :
    (pendingStarts (handleFrame v c).2).Nodup := by
  rcases handleFrame_cases v c with ignored | rejected | ⟨cmd, -, accepted⟩
  · rw [ignored]
    exact List.nodup_nil
  · rw [rejected]
    exact List.nodup_nil
  · rw [accepted]
    cases cmd with
    | loadModel | startGeneration =>
      cases payload : c.payload <;> simp [commandActions, pendingStarts, starts]
    | hello | cancelGeneration | unloadModel | ping | shutdown | memoryPressure =>
      exact List.nodup_nil

theorem inv_read {s t : Worker} (inv : s.Inv) {c : CommandFrame}
    (taken : s.step (.read c) = some t) : t.Inv := by
  unfold step at taken
  dsimp only at taken
  split at taken
  next may =>
    obtain ⟨-, done, fresh⟩ := may
    obtain rfl := Option.some.inj taken
    have distinct := inv.distinct
    have asked := inv.asked
    rw [done] at distinct asked
    simp only [pendingStarts, List.flatMap_nil, List.append_nil] at distinct asked
    refine ⟨⟨inv.orderly.session, inv.orderly.pc⟩, fun event => handleFrame_writes _ c, ?_, ?_,
      inv.inHand, inv.ended⟩
    · refine List.nodup_append'.mpr ⟨distinct, pendingStarts_handleFrame _ c, fun id old new => ?_⟩
      exact fresh id new (asked id old)
    · intro id member
      rcases List.mem_append.mp member with old | new
      · exact List.mem_append_left _ (asked id old)
      · exact List.mem_append_right _ new
  next => cases taken

theorem inv_command {s : Worker} (inv : s.Inv) {action : CommandAction}
    {todo : List CommandAction} (head : s.todo = action :: todo) :
    Inv ({ s with todo := todo }.act action) := by
  have aside := aside_command inv.writes head
  have forwarded : starts ({ s with todo := todo }.act action).channel ++ pendingStarts todo =
      starts s.channel ++ pendingStarts s.todo := by
    rw [head]
    cases action with
    | send cmd => simp [act, starts, pendingStarts]
    | write event | storeCancel | storeShutdown | stop => rfl
  have same : ({ s with todo := todo }.act action).todo = todo ∧
      ({ s with todo := todo }.act action).requested = s.requested := by
    cases action <;> exact ⟨rfl, rfl⟩
  refine ⟨⟨aside.session.trans inv.orderly.session, ?_⟩, ?_, ?_, ?_, ?_, ?_⟩
  · rw [aside.pc]
    exact inv.orderly.pc
  · intro event member
    rw [same.1] at member
    exact inv.writes event (head ▸ List.mem_cons_of_mem _ member)
  · rw [aside.taken, same.1, List.append_assoc, forwarded, ← List.append_assoc]
    exact inv.distinct
  · rw [aside.taken, same.1, same.2, List.append_assoc, forwarded, ← List.append_assoc]
    exact inv.asked
  · rw [aside.pc, aside.taken]
    exact inv.inHand
  · intro id positive
    rw [aside.taken]
    exact inv.ended id (aside.ends id ▸ positive)

theorem starts_cons (gen : Generation) (channel : List InferenceCommand) :
    starts (.startGeneration gen :: channel) = gen.requestId :: starts channel := rfl

theorem ends_terminal (s : Worker) {event : WorkerEvent} (gen : Generation) {id : String}
    (positive : 0 < (s.writeEvent event (some gen.requestId)).ends id) :
    0 < s.ends id ∨ gen.requestId = id := by
  rw [ends_writeEvent] at positive
  by_cases same : gen.requestId = id
  · exact .inr same
  · simp only [Option.getD_some, same, decide_false, Bool.and_false, Bool.false_eq_true,
      if_false, Nat.add_zero] at positive
    exact .inl positive

theorem inv_inferred {s t : Worker} (inv : s.Inv) (orderly : t.Orderly) (inferred : s.Inferred t) :
    t.Inv := by
  cases inferred with
  | quiet pc model shutdown phase =>
    refine ⟨orderly, inv.writes, inv.distinct, inv.asked, ?_, inv.ended⟩
    simp only [phase]
    exact inv.inHand
  | routine event requestId pc routine phase =>
    refine ⟨orderly, inv.writes, inv.distinct, inv.asked, ?_, fun id positive => ?_⟩
    · simp only [phase]
      exact inv.inHand
    · exact inv.ended id ((s.ends_routine routine requestId id) ▸ positive)
  | handled cmd channel pc model shutdown idle head other phase =>
    have same : starts s.channel = starts channel := by
      have split_ : starts s.channel = starts [cmd] ++ starts channel := by
        rw [head]
        simp [starts]
      rw [split_, other, List.nil_append]
    refine ⟨orderly, inv.writes, same ▸ inv.distinct, same ▸ inv.asked, ?_, inv.ended⟩
    intro gen here
    rcases phase with rest | closing
    · simp [rest, Phase.gen?] at here
    · simp [closing, Phase.gen?] at here
  | refused gen channel idle head unloaded =>
    -- What leaves the channel is counted as taken, whatever becomes of it.
    have moved : s.taken ++ [gen.requestId] ++ starts channel = s.taken ++ starts s.channel := by
      rw [head, starts_cons, List.append_assoc]
      rfl
    refine ⟨orderly, inv.writes, moved ▸ inv.distinct, moved ▸ inv.asked, ?_, ?_⟩
    · intro other here
      exact List.mem_append_left _ (inv.inHand other here)
    · exact fun id positive => List.mem_append_left _ (inv.ended id positive)
  | admitted gen channel idle head loaded =>
    have moved : s.taken ++ [gen.requestId] ++ starts channel = s.taken ++ starts s.channel := by
      rw [head, starts_cons, List.append_assoc]
      rfl
    refine ⟨orderly, inv.writes, moved ▸ inv.distinct, moved ▸ inv.asked, ?_, ?_⟩
    · rintro other ⟨⟩
      exact List.mem_append_right _ List.mem_cons_self
    · exact fun id positive => List.mem_append_left _ (inv.ended id positive)
  | cancelledEarly gen pc flag =>
    -- The generation that ends here was in hand, and so taken from the channel before.
    refine ⟨orderly, inv.writes, inv.distinct, inv.asked, nofun, fun id positive => ?_⟩
    rcases ends_terminal s gen positive with old | rfl
    · exact inv.ended id old
    · exact inv.inHand gen (by rw [pc]; rfl)
  | activated gen pc =>
    refine ⟨orderly, inv.writes, inv.distinct, inv.asked, ?_, inv.ended⟩
    rintro other ⟨⟩
    exact inv.inHand gen (by rw [pc]; rfl)
  | started gen pc =>
    refine ⟨orderly, inv.writes, inv.distinct, inv.asked, ?_, fun id positive => ?_⟩
    · rintro other ⟨⟩
      exact inv.inHand gen (by rw [pc]; rfl)
    · rcases ends_terminal s gen positive with old | rfl
      · exact inv.ended id old
      · exact inv.inHand gen (by rw [pc]; rfl)
  | ended gen event running terminal flag =>
    refine ⟨orderly, inv.writes, inv.distinct, inv.asked, nofun, fun id positive => ?_⟩
    rcases ends_terminal s gen positive with old | rfl
    · exact inv.ended id old
    · exact inv.inHand gen (by rw [running]; rfl)
  | reset unloading pc =>
    exact ⟨orderly, inv.writes, inv.distinct, inv.asked, nofun, inv.ended⟩
  | cleared again pc =>
    refine ⟨orderly, inv.writes, inv.distinct, inv.asked, ?_, inv.ended⟩
    cases again <;> exact nofun

theorem step_spec {s t : Worker} {e : WorkerStep} (inv : s.Inv) (taken : s.step e = some t) :
    t.Inv ∧ ((∃ result, e = .inference result ∧ s.Inferred t) ∨
      (∀ result, e ≠ .inference result) ∧ s.Aside t) := by
  cases e with
  | read c =>
    refine ⟨inv_read inv taken, .inr ⟨nofun, ?_⟩⟩
    unfold step at taken
    dsimp only at taken
    split at taken
    · obtain rfl := Option.some.inj taken
      exact ⟨rfl, rfl, rfl, rfl, rfl, rfl, .inl ⟨rfl, rfl⟩⟩
    · cases taken
  | readError =>
    unfold step at taken
    dsimp only at taken
    split at taken
    next may =>
      -- The thread stops reading with nothing left to do.
      obtain rfl := Option.some.inj taken
      have distinct := inv.distinct
      have asked := inv.asked
      rw [may.2] at distinct asked
      refine ⟨⟨⟨inv.orderly.session, inv.orderly.pc⟩, ?_, distinct, asked, inv.inHand, inv.ended⟩,
        .inr ⟨nofun, rfl, rfl, rfl, rfl, rfl, rfl, .inl ⟨rfl, rfl⟩⟩⟩
      intro event member
      simp at member
    next => cases taken
  | command =>
    unfold step at taken
    dsimp only at taken
    split at taken
    next => cases taken
    next action todo head =>
      obtain rfl := Option.some.inj taken
      exact ⟨inv_command inv head, .inr ⟨nofun, aside_command inv.writes head⟩⟩
  | inference result =>
    obtain ⟨inferred, orderly⟩ := infer_spec inv.orderly taken
    exact ⟨inv_inferred inv orderly inferred, .inl ⟨result, rfl, inferred⟩⟩
  | heartbeat =>
    have aside := aside_heartbeat taken
    refine ⟨?_, .inr ⟨nofun, aside⟩⟩
    have same : t.todo = s.todo ∧ t.channel = s.channel ∧ t.requested = s.requested := by
      change s.heartbeatStep = some t at taken
      unfold heartbeatStep at taken
      split at taken
      · obtain rfl := Option.some.inj taken
        exact ⟨rfl, rfl, rfl⟩
      · obtain rfl := Option.some.inj taken
        exact ⟨rfl, rfl, rfl⟩
      · cases taken
    obtain ⟨todo, channel, requested⟩ := same
    refine ⟨⟨aside.session.trans inv.orderly.session, ?_⟩, ?_, ?_, ?_, ?_, fun id positive => ?_⟩
    · rw [aside.pc]
      exact inv.orderly.pc
    · rw [todo]
      exact inv.writes
    · rw [aside.taken, channel, todo]
      exact inv.distinct
    · rw [aside.taken, channel, todo, requested]
      exact inv.asked
    · rw [aside.pc, aside.taken]
      exact inv.inHand
    · rw [aside.taken]
      exact inv.ended id (aside.ends id ▸ positive)

end Worker

end TribunusCompute.WorkerProtocol
