import TribunusCompute.WorkerProtocol.Inference

/-!
# Which generation a cancellation ends

The cancellation flag names no request. A flag that is raised while the request it is
meant for is the active one is cleared before the next generation is admitted, so it
ends no other. At any other moment it may.
-/
namespace TribunusCompute.WorkerProtocol

def Phase.Activates (id : String) : Phase → Prop
  | .active gen | .running gen => gen.requestId = id
  | .closing => True
  | .resting | .admitted _ | .clearing => False

/-- Where the flag may be set: it is about to be cleared, or the generation that will see it has
been named. -/
def Phase.Flagged (cancels : List String) : Phase → Prop
  | .active gen | .running gen => gen.requestId ∈ cancels
  | .closing | .clearing => True
  | .resting | .admitted _ => False

theorem Phase.Flagged.mono {cancels more : List String} {phase : Phase}
    (flagged : phase.Flagged cancels) (grows : ∀ id ∈ cancels, id ∈ more) :
    phase.Flagged more := by
  cases phase with
  | active gen | running gen => exact grows _ flagged
  | closing | clearing => trivial
  | resting | admitted gen => exact flagged

namespace Worker

def CancelledByName (s : Worker) : Prop :=
  ∀ frame ∈ s.events, frame.messageKind = .workerEvent .generationCancelled →
    ∀ id, frame.requestId = some id → id ∈ s.cancels

/-- The flag is raised while a request that the cancellation names is the active one. -/
def CancelsActive (s : Worker) : WorkerStep → Prop
  | .command => s.todo.head? = some .storeCancel →
      ∃ c ∈ s.frame, ∃ id ∈ c.names, s.activeRequest = some id
  | _ => True

instance (s : Worker) (e : WorkerStep) : Decidable (s.CancelsActive e) :=
  match e with
  | .command => inferInstanceAs <| Decidable <| s.todo.head? = some .storeCancel →
      ∃ c ∈ s.frame, ∃ id ∈ c.names, s.activeRequest = some id
  | .read _ | .readError | .inference _ | .heartbeat => isTrue trivial

/-- Who may be cancelled has been named. -/
structure Named (s : Worker) : Prop where
  inv : s.Inv
  events : s.CancelledByName
  active : ∀ id, s.activeRequest = some id → s.pc.phase.Activates id
  flag : s.cancel = true → s.pc.phase.Flagged s.cancels
  announced : .storeCancel ∈ s.todo → ∀ c ∈ s.frame, ∀ id ∈ c.names, id ∈ s.cancels

theorem named_new (workerId : String) : (new workerId).Named where
  inv := inv_new workerId
  events := fun _ member => absurd member List.not_mem_nil
  active := nofun
  flag := nofun
  announced := fun member => absurd member List.not_mem_nil

theorem cancelledByName_writeEvent {s : Worker} (law : s.CancelledByName) {event : WorkerEvent}
    {requestId : Option String}
    (named : event = .generationCancelled → requestId.getD "" ∈ s.cancels) :
    (s.writeEvent event requestId).CancelledByName := by
  intro frame member kind id names
  rcases List.mem_append.mp member with old | new
  · exact law frame old kind id names
  · obtain rfl := List.mem_singleton.mp new
    cases kind
    cases names
    exact named rfl

theorem routine_ne_cancelled {event : WorkerEvent} (routine : event.isRoutine) :
    event ≠ .generationCancelled := by
  rintro rfl
  cases routine

theorem named_inferred {s t : Worker} (named : s.Named) (inv : t.Inv) (inferred : s.Inferred t) :
    t.Named := by
  have rest (idle : s.pc = .idle) : s.cancel = false ∧ s.activeRequest = none := by
    constructor
    · by_contra flag
      have flagged := named.flag (by simpa using flag)
      rw [idle] at flagged
      exact flagged
    · cases active : s.activeRequest with
      | none => rfl
      | some id =>
        have activates := named.active id active
        rw [idle] at activates
        exact activates.elim
  cases inferred with
  | quiet pc model shutdown phase =>
    refine ⟨inv, named.events, ?_, ?_, named.announced⟩
    · simp only [phase]
      exact named.active
    · simp only [phase]
      exact named.flag
  | routine event requestId pc routine phase =>
    refine ⟨inv, ?_, ?_, ?_, named.announced⟩
    · exact cancelledByName_writeEvent named.events fun cancelled =>
        absurd cancelled (routine_ne_cancelled routine)
    · simp only [phase]
      exact named.active
    · simp only [phase]
      exact named.flag
  | handled cmd channel pc model shutdown idle head other phase
  | admitted gen channel idle head loaded =>
    obtain ⟨clear, inactive⟩ := rest idle
    refine ⟨inv, named.events, fun id active => ?_, fun flag => ?_, named.announced⟩
    · exact absurd (inactive.symm.trans active) (by simp)
    · exact absurd (clear.symm.trans flag) (by simp)
  | refused gen channel idle head unloaded =>
    exact ⟨inv, named.events, named.active, named.flag, named.announced⟩
  | cancelledEarly gen pc flag =>
    -- The flag is never set here.
    have flagged := named.flag flag
    rw [pc] at flagged
    exact flagged.elim
  | activated gen pc =>
    refine ⟨inv, named.events, ?_, fun flag => ?_, named.announced⟩
    · rintro id ⟨⟩
      rfl
    · have flagged := named.flag flag
      rw [pc] at flagged
      exact flagged.elim
  | started gen pc =>
    refine ⟨inv, cancelledByName_writeEvent named.events nofun, fun id active => ?_, fun flag => ?_,
      named.announced⟩
    · have activates := named.active id active
      rwa [pc] at activates
    · have flagged := named.flag flag
      rwa [pc] at flagged
  | ended gen event running terminal flag =>
    refine ⟨inv, ?_, fun _ _ => trivial, fun _ => trivial, named.announced⟩
    refine cancelledByName_writeEvent named.events fun cancelled => ?_
    have flagged := named.flag (flag cancelled)
    rwa [running] at flagged
  | reset unloading pc =>
    exact ⟨inv, named.events, nofun, fun _ => trivial, named.announced⟩
  | cleared again pc =>
    refine ⟨inv, named.events, fun id active => ?_, nofun, named.announced⟩
    have activates := named.active id active
    rw [pc] at activates
    exact activates.elim

theorem named_read {s t : Worker} (named : s.Named) (inv : t.Inv) {c : CommandFrame}
    (taken : s.step (.read c) = some t) : t.Named := by
  unfold step at taken
  dsimp only at taken
  split at taken
  next may =>
    obtain rfl := Option.some.inj taken
    have grows : ∀ id ∈ s.cancels, id ∈
        if .storeCancel ∈ (handleFrame s.validator c).2 then s.cancels ++ c.names else s.cancels := by
      intro id old
      split
      · exact List.mem_append_left _ old
      · exact old
    refine ⟨inv, ?_, named.active, fun flag => (named.flag flag).mono grows, ?_⟩
    · intro frame member kind id names
      exact grows id (named.events frame member kind id names)
    · rintro stores c ⟨⟩ id names
      dsimp only
      rw [if_pos stores]
      exact List.mem_append_right _ names
  next => cases taken

/-- Raising the flag for the active request names the generation that will see it. -/
theorem named_command {s : Worker} (named : s.Named) {action : CommandAction}
    {todo : List CommandAction} (head : s.todo = action :: todo)
    (inv : Inv ({ s with todo := todo }.act action)) (active : s.CancelsActive .command) :
    Named ({ s with todo := todo }.act action) := by
  have later (stores : .storeCancel ∈ todo) : ∀ c ∈ s.frame, ∀ id ∈ c.names, id ∈ s.cancels :=
    named.announced (head ▸ List.mem_cons_of_mem _ stores)
  cases action with
  | write event =>
    have routine : event.isRoutine := named.inv.writes event (head ▸ List.mem_cons_self)
    refine ⟨inv, ?_, named.active, named.flag, later⟩
    exact cancelledByName_writeEvent named.events fun cancelled =>
      absurd cancelled (routine_ne_cancelled routine)
  | storeCancel =>
    refine ⟨inv, named.events, named.active, fun _ => ?_, later⟩
    obtain ⟨c, frame, id, names, here⟩ := active (by rw [head]; rfl)
    have known := named.announced (head ▸ List.mem_cons_self) c frame id names
    have activates := named.active id here
    change s.pc.phase.Flagged s.cancels
    cases phase : s.pc.phase with
    | active gen | running gen =>
      rw [phase] at activates
      change gen.requestId ∈ s.cancels
      rw [activates]
      exact known
    | closing | clearing => trivial
    | resting | admitted gen =>
      rw [phase] at activates
      exact activates.elim
  | send cmd | storeShutdown | stop => exact ⟨inv, named.events, named.active, named.flag, later⟩

theorem named_step {s t : Worker} {e : WorkerStep} (named : s.Named) (active : s.CancelsActive e)
    (taken : s.step e = some t) : t.Named := by
  obtain ⟨inv, inferred | -⟩ := step_spec named.inv taken
  · obtain ⟨result, -, inferred⟩ := inferred
    exact named_inferred named inv inferred
  · cases e with
    | read c => exact named_read named inv taken
    | readError =>
      unfold step at taken
      dsimp only at taken
      split at taken
      · obtain rfl := Option.some.inj taken
        exact ⟨inv, named.events, named.active, named.flag, fun stores => by simp at stores⟩
      · cases taken
    | command =>
      unfold step at taken
      dsimp only at taken
      split at taken
      next => cases taken
      next action todo head =>
        obtain rfl := Option.some.inj taken
        exact named_command named head inv active
    | inference result =>
      obtain ⟨inferred, -⟩ := infer_spec named.inv.orderly taken
      exact named_inferred named inv inferred
    | heartbeat =>
      change s.heartbeatStep = some t at taken
      unfold heartbeatStep at taken
      split at taken
      · obtain rfl := Option.some.inj taken
        exact ⟨inv, named.events, named.active, named.flag, named.announced⟩
      · obtain rfl := Option.some.inj taken
        exact ⟨inv, cancelledByName_writeEvent named.events nofun, named.active, named.flag,
          named.announced⟩
      · cases taken

/-- In every run in which the flag is only raised while a request that the cancellation names is
the active one, no cancellation ends another generation. -/
theorem cancelledByName_of_cancelsActive (workerId : String) (steps : List WorkerStep)
    (active : Runs.Guarded step CancelsActive (new workerId) steps) :
    Runs.Always step CancelledByName (new workerId) steps :=
  Runs.always_mono step (fun _ named => named.events)
    (Runs.always_of_guarded step (fun _ _ _ named active taken => named_step named active taken)
      (named_new workerId) active)

/-- A generation is cancelled while it runs, and the next one is not. -/
theorem cancelledByName_cancelledRunning :
    Runs.Always step CancelledByName (new "worker")
      (loadSteps ++ [.read (hostFrame 1 .startGeneration (.startGeneration "gen-1" 4)), .command,
        .read (hostFrame 2 .startGeneration (.startGeneration "gen-2" 4)), .command] ++
        List.replicate 11 (.inference (some 7)) ++
        [.read (hostFrame 3 .cancelGeneration (.request "gen-1")), .command] ++
        List.replicate 9 (.inference (some 7))) :=
  cancelledByName_of_cancelsActive "worker" _ (by decide +kernel)

/-- The first of two generations is cancelled before it starts, and the second is reported
cancelled too. -/
theorem early_cancellation_ends_another :
    ∃ s, Runs.exec step (new "worker")
        (loadSteps ++ [.read (hostFrame 1 .startGeneration (.startGeneration "gen-1" 4)), .command,
          .read (hostFrame 2 .startGeneration (.startGeneration "gen-2" 4)), .command,
          .read (hostFrame 3 .cancelGeneration (.request "gen-1")), .command] ++
          List.replicate 4 (.inference none)) = some s ∧
      ¬ s.CancelledByName := by
  refine ⟨_, rfl, fun law => ?_⟩
  have cancelled := law (newWorkerEvent "worker" 9 "gen-2" .generationCancelled) (by decide) rfl
    "gen-2" rfl
  exact absurd cancelled (by decide)

end Worker

end TribunusCompute.WorkerProtocol
