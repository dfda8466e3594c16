import TribunusCompute.Library.Runs
import TribunusCompute.Supervisor.Runtime

/-!
# The threads that store the phase

The event reader, the watchdog and a caller of `load_model` and `unload_model`, each a place in
its code. A move takes one of them past one read or write of what they share. Two results hold
while stores of the phase do not cross: a fault is final as long as no other phase is stored
where it stands, and a load answers for itself as long as the phase is not `Ready` when its
command goes out.
-/
namespace TribunusCompute.Supervisor

open WorkerProtocol

/-- Where `run_event_reader` is in its loop. -/
inductive ReaderPlace
  /-- At `is_alive`. -/
  | head
  /-- At `is_faulted`. -/
  | alive
  /-- In `read_next_event`. -/
  | reading
  | dispatching (frame : LifecycleFrame)
  /-- Past the look at the epoch, before `set_phase`. -/
  | storing (frame : LifecycleFrame) (phase : WorkerLifecyclePhase)
  /-- At `fail_all`. -/
  | failing
  | exited
  deriving DecidableEq, Repr

/-- Where `run_watchdog` is in its loop. -/
inductive WatchdogPlace
  | sleeping
  /-- Past `is_faulted`, at the checks of process, heartbeat, memory and deadlines. -/
  | checking
  /-- Past `mark_faulted`. -/
  | failing
  | exited
  deriving DecidableEq, Repr

/-- Where the calls of `load_model` and `unload_model` are. -/
inductive CallerPlace
  | idle
  | entered
  /-- Building the payload, which counts the epoch up. -/
  | building
  | sending (epoch : UInt64)
  /-- At the head of the polling loop: the deadline and `is_faulted`. -/
  | polling (epoch : UInt64)
  /-- At the read of the phase. -/
  | looking (epoch : UInt64)
  /-- At `is_alive`. -/
  | probing (epoch : UInt64)
  | returned (result : Except EngineError Unit)
  | unloading
  /-- `unload_model` has seen the worker end, or killed it. -/
  | unloaded
  deriving DecidableEq

def CallerPlace.epoch? : CallerPlace → Option UInt64
  | .polling epoch | .looking epoch | .probing epoch => some epoch
  | _ => none

structure Threads where
  runtime : WorkerRuntimeState
  /-- The worker process has not ended. -/
  alive : Bool
  reader : ReaderPlace
  watchdog : WatchdogPlace
  caller : CallerPlace
  /-- `mark_faulted` has been called. -/
  marked : Bool
  /-- Since the last `LoadModel` went out, a `ModelReady` with its epoch or none was
  dispatched. -/
  confirmed : Bool
  deriving DecidableEq

/-- What `launch_and_handshake` returns. -/
def launched : Threads :=
  ⟨.new, true, .head, .sleeping, .idle, false, false⟩

/-- A thread moves past one access of the shared state. -/
inductive Move
  /-- The process ends. -/
  | exit
  /-- With what `read_next_event` returns, if it is there. -/
  | reader (frame : Option LifecycleFrame)
  /-- With what the checks find. -/
  | watchdog (fault : Bool)
  | load
  | unload
  /-- With whether the deadline of a load is over, and how a command is sent. -/
  | caller (late : Bool) (sent : Except EngineError Unit)
  deriving DecidableEq

namespace Threads

def markFaulted (s : Threads) : Threads :=
  { s with runtime := s.runtime.markFaulted, marked := true }

def confirms (s : Threads) (frame : LifecycleFrame) : Bool :=
  frame.event = .modelReady ∧ (frame.loadEpoch = 0 ∨ s.caller.epoch? = some frame.loadEpoch)

def stepReader (s : Threads) (frame? : Option LifecycleFrame) : Option Threads :=
  match s.reader with
  | .head =>
    if s.alive then some { s with reader := .alive }
    else some { s.markFaulted with reader := .failing }
  | .alive =>
    if s.runtime.isFaulted then some { s with reader := .failing }
    else some { s with reader := .reading }
  | .reading =>
    match frame? with
    | some frame => some { s with reader := .dispatching frame }
    | none => some { s.markFaulted with reader := .failing }
  | .dispatching frame =>
    match frame.phase? s.runtime.loadEpoch with
    | some phase => some { s with reader := .storing frame phase }
    | none => some { s with reader := .head }
  | .storing frame phase =>
    if frame.event = .workerFatal then some { s.markFaulted with reader := .failing }
    else some { s with
      runtime := s.runtime.setPhase phase
      reader := .head
      confirmed := s.confirmed || s.confirms frame }
  | .failing => some { s with reader := .exited }
  | .exited => none

/-- Whatever the checks find, the worker has ended or is killed before `mark_faulted`. -/
def stepWatchdog (s : Threads) (fault : Bool) : Option Threads :=
  match s.watchdog with
  | .sleeping =>
    if s.runtime.isFaulted then some { s with watchdog := .exited }
    else some { s with watchdog := .checking }
  | .checking =>
    if fault then some { s.markFaulted with watchdog := .failing }
    else some { s with watchdog := .sleeping }
  | .failing => some { s with watchdog := .exited }
  | .exited => none

def stepCaller (s : Threads) (late : Bool) (sent : Except EngineError Unit) : Option Threads :=
  match s.caller with
  | .idle => none
  | .entered =>
    if s.runtime.isFaulted then
      some { s with caller := .returned (.error ⟨.workerCrashed, "worker is faulted"⟩) }
    else some { s with caller := .building }
  | .building =>
    let (epoch, runtime) := s.runtime.incrementLoadEpoch
    some { s with runtime, caller := .sending epoch }
  | .sending epoch =>
    match sent with
    | .ok () => some { s with caller := .polling epoch, confirmed := false }
    | .error e => some { s with caller := .returned (.error e) }
  | .polling epoch =>
    if late then
      some { s with caller := .returned (.error ⟨.workerUnresponsive, "model load timed out"⟩) }
    else if s.runtime.isFaulted then
      some { s with
        caller := .returned (.error ⟨.workerCrashed, "worker faulted during model load"⟩) }
    else some { s with caller := .looking epoch }
  | .looking epoch =>
    if s.runtime.phase = .ready then some { s with caller := .returned (.ok ()) }
    else some { s with caller := .probing epoch }
  | .probing epoch =>
    if s.alive then some { s with caller := .polling epoch }
    else
      some { s.markFaulted with
        caller := .returned (.error ⟨.workerCrashed, "worker exited during model load"⟩) }
  | .returned _ => some { s with caller := .idle }
  | .unloading =>
    if s.runtime.isFaulted then some { s with caller := .idle }
    else some { s with caller := .unloaded }
  | .unloaded => some { s with runtime := s.runtime.setPhase .absent, caller := .idle }

def step (s : Threads) : Move → Option Threads
  | .exit => some { s with alive := false }
  | .reader frame? => s.stepReader frame?
  | .watchdog fault => s.stepWatchdog fault
  | .load => if s.caller = .idle then some { s with caller := .entered } else none
  | .unload => if s.caller = .idle then some { s with caller := .unloading } else none
  | .caller late sent => s.stepCaller late sent

/-- The phase the next move of a thread stores, other than by `mark_faulted`. -/
def stores (s : Threads) : Move → Option WorkerLifecyclePhase
  | .reader _ =>
    match s.reader with
    | .storing frame phase => if frame.event = .workerFatal then none else some phase
    | _ => none
  | .caller _ _ => if s.caller = .unloaded then some .absent else none
  | _ => none

/-! ## What a move does to the phase -/

variable {s t : Threads}

theorem step_phase {m : Move} (taken : s.step m = some t) :
    (t.runtime.phase = .failed ∧ t.marked = true) ∨
    (∃ phase, s.stores m = some phase ∧ t.runtime.phase = phase ∧ t.marked = s.marked) ∨
    (t.runtime.phase = s.runtime.phase ∧ t.marked = s.marked) := by
  cases m with
  | exit =>
    cases taken
    exact .inr (.inr ⟨rfl, rfl⟩)
  | reader frame? =>
    simp only [step, stepReader] at taken
    cases at_ : s.reader with
    | head =>
      rw [at_] at taken
      dsimp only at taken
      split at taken <;> cases taken
      · exact .inr (.inr ⟨rfl, rfl⟩)
      · exact .inl ⟨rfl, rfl⟩
    | alive =>
      rw [at_] at taken
      dsimp only at taken
      split at taken <;> cases taken <;> exact .inr (.inr ⟨rfl, rfl⟩)
    | reading =>
      rw [at_] at taken
      dsimp only at taken
      split at taken <;> cases taken
      · exact .inr (.inr ⟨rfl, rfl⟩)
      · exact .inl ⟨rfl, rfl⟩
    | dispatching frame =>
      rw [at_] at taken
      dsimp only at taken
      split at taken <;> cases taken <;> exact .inr (.inr ⟨rfl, rfl⟩)
    | storing frame phase =>
      -- A fatal frame marks the worker, and its phase is not stored.
      rw [at_] at taken
      dsimp only at taken
      split at taken
      next =>
        cases taken
        exact .inl ⟨rfl, rfl⟩
      next other =>
        cases taken
        exact .inr (.inl ⟨phase, by simp [stores, at_, other], rfl, rfl⟩)
    | failing =>
      rw [at_] at taken
      cases taken
      exact .inr (.inr ⟨rfl, rfl⟩)
    | exited =>
      rw [at_] at taken
      cases taken
  | watchdog fault =>
    simp only [step, stepWatchdog] at taken
    cases at_ : s.watchdog with
    | sleeping =>
      rw [at_] at taken
      dsimp only at taken
      split at taken <;> cases taken <;> exact .inr (.inr ⟨rfl, rfl⟩)
    | checking =>
      rw [at_] at taken
      dsimp only at taken
      split at taken <;> cases taken
      · exact .inl ⟨rfl, rfl⟩
      · exact .inr (.inr ⟨rfl, rfl⟩)
    | failing =>
      rw [at_] at taken
      cases taken
      exact .inr (.inr ⟨rfl, rfl⟩)
    | exited =>
      rw [at_] at taken
      cases taken
  | load | unload =>
    simp only [step] at taken
    split at taken <;> cases taken
    exact .inr (.inr ⟨rfl, rfl⟩)
  | caller late sent =>
    simp only [step, stepCaller] at taken
    cases at_ : s.caller with
    | idle =>
      rw [at_] at taken
      cases taken
    | entered | sending epoch | looking epoch | unloading =>
      rw [at_] at taken
      dsimp only at taken
      split at taken <;> cases taken <;> exact .inr (.inr ⟨rfl, rfl⟩)
    | building =>
      -- The epoch of the load is counted, and the phase is as it was.
      rw [at_] at taken
      cases taken
      exact .inr (.inr ⟨rfl, rfl⟩)
    | polling epoch =>
      rw [at_] at taken
      dsimp only at taken
      split at taken
      next =>
        cases taken
        exact .inr (.inr ⟨rfl, rfl⟩)
      next => split at taken <;> cases taken <;> exact .inr (.inr ⟨rfl, rfl⟩)
    | probing epoch =>
      rw [at_] at taken
      dsimp only at taken
      split at taken <;> cases taken
      · exact .inr (.inr ⟨rfl, rfl⟩)
      · exact .inl ⟨rfl, rfl⟩
    | returned result =>
      rw [at_] at taken
      cases taken
      exact .inr (.inr ⟨rfl, rfl⟩)
    | unloaded =>
      -- The last step of an unload stores the only phase that does not come from the reader.
      rw [at_] at taken
      cases taken
      exact .inr (.inl ⟨.absent, by simp [stores, at_], rfl, rfl⟩)

/-! ## A fault is final -/

/-- Once the worker is marked faulted, the phase does not read `Ready`, and `start_generation`
turns requests away. -/
def Final (s : Threads) : Prop :=
  s.marked = true → s.runtime.phase ≠ .ready ∧ ∃ e, checkReady s.runtime.phase = .error e

/-- The move does not store a phase where `Failed` stands. -/
def KeepsFault (s : Threads) (m : Move) : Prop :=
  (s.stores m).isSome → s.runtime.phase ≠ .failed

instance (s : Threads) (m : Move) : Decidable (s.KeepsFault m) :=
  inferInstanceAs (Decidable (_ → _))

theorem failed_of_step {m : Move} (failed : s.marked = true → s.runtime.phase = .failed)
    (keeps : s.KeepsFault m) (taken : s.step m = some t) :
    t.marked = true → t.runtime.phase = .failed := by
  intro marked
  rcases step_phase taken with ⟨now, -⟩ | ⟨phase, stored, -, same⟩ | ⟨same, before⟩
  · exact now
  · rw [same] at marked
    exact absurd (failed marked) (keeps (by simp [stored]))
  · rw [before] at marked
    rw [same]
    exact failed marked

theorem final_of_failed (failed : s.marked = true → s.runtime.phase = .failed) : s.Final := by
  intro marked
  rw [failed marked]
  exact ⟨by decide, _, rfl⟩

/-- In a run whose moves store no phase over `Failed`, a fault is final. -/
theorem fault_is_final {moves : List Move}
    (guarded : Runs.Guarded step KeepsFault launched moves) :
    Runs.Always step Final launched moves := by
  have failed : Runs.Always step (fun s => s.marked = true → s.runtime.phase = .failed) launched
      moves :=
    Runs.always_of_guarded step (fun _ _ _ => failed_of_step) (fun marked => nomatch marked)
      guarded
  exact Runs.always_mono step (fun _ => final_of_failed) failed

/-- The model gets ready, and the watchdog kills the worker between two frames. -/
theorem fault_is_final_between_frames :
    Runs.Always step Final launched
      [.reader none, .reader none, .reader (some ⟨.modelReady, 0⟩), .reader none, .reader none,
        .watchdog false, .watchdog true, .reader none, .reader none, .reader none,
        .watchdog false] :=
  fault_is_final (by decide)

/-- The reader waits for a frame when the watchdog kills the worker, and the frame is a
`ModelReady`. -/
theorem ready_after_fault :
    ¬ Runs.Always step Final launched
      [.reader none, .reader none, .watchdog false, .watchdog true,
        .reader (some ⟨.modelReady, 0⟩), .reader none, .reader none] := by
  intro always
  have last := Runs.always_last step always rfl
  exact (last rfl).1 rfl

/-! ## A load answers for itself -/

/-- A `load_model` that returned `Ok` was confirmed after its command went out. -/
def Answered (s : Threads) : Prop := s.caller = .returned (.ok ()) → s.confirmed = true

/-- Where the move sends a `LoadModel`, the phase is not `Ready`, and the reader is not about to
make it so for the frame of an earlier load. -/
def sendsUnready (s : Threads) : Move → Bool
  | .caller _ (.ok ()) =>
    match s.caller with
    | .sending epoch =>
      s.runtime.phase ≠ .ready &&
        match s.reader with
        | .storing frame .ready => frame.loadEpoch = 0 ∨ frame.loadEpoch = epoch
        | _ => true
    | _ => true
  | _ => true

theorem sendsUnready_sending {late : Bool} {epoch : UInt64} (sends : s.caller = .sending epoch)
    (unready : s.sendsUnready (.caller late (.ok ())) = true) :
    s.runtime.phase ≠ .ready ∧ ∀ frame, s.reader = .storing frame .ready →
      frame.loadEpoch = 0 ∨ frame.loadEpoch = epoch := by
  rw [sendsUnready, sends, Bool.and_eq_true] at unready
  obtain ⟨phase, frames⟩ := unready
  refine ⟨by simpa using phase, fun frame storing => ?_⟩
  rw [storing] at frames
  simpa using frames

/-- What holds while loads follow one another. -/
structure Loading (s : Threads) : Prop where
  storing : ∀ frame phase, s.reader = .storing frame phase →
    ∃ epoch, frame.phase? epoch = some phase
  sending : ∀ epoch, s.caller = .sending epoch → s.runtime.loadEpoch = epoch
  current : ∀ epoch, s.caller.epoch? = some epoch → s.runtime.loadEpoch = epoch
  ready : s.caller.epoch?.isSome → s.runtime.phase = .ready → s.confirmed = true
  stored : ∀ epoch, s.caller.epoch? = some epoch → ∀ frame, s.reader = .storing frame .ready →
    frame.loadEpoch = 0 ∨ frame.loadEpoch = epoch
  answered : s.Answered

theorem loading_launched : launched.Loading where
  storing _ _ at_ := nomatch at_
  sending _ at_ := nomatch at_
  current _ at_ := nomatch at_
  ready at_ := nomatch at_
  stored _ at_ := nomatch at_
  answered at_ := nomatch at_

section
variable (loading : s.Loading)
include loading

/-- The reader moves to a place where it stores nothing, and what it shares stays, but that the
worker may be marked faulted. -/
theorem Loading.reader {place : ReaderPlace} (away : ∀ frame phase, place ≠ .storing frame phase) :
    Loading { s with reader := place } where
  storing frame phase at_ := absurd at_ (away frame phase)
  sending := loading.sending
  current := loading.current
  ready := loading.ready
  stored _ _ frame at_ := absurd at_ (away frame .ready)
  answered := loading.answered

theorem Loading.markFaulted : s.markFaulted.Loading where
  storing := loading.storing
  sending := loading.sending
  current := loading.current
  ready _ ready := nomatch ready
  stored := loading.stored
  answered := loading.answered

theorem Loading.stepReader {frame? : Option LifecycleFrame} (taken : s.stepReader frame? = some t) :
    t.Loading := by
  unfold Threads.stepReader at taken
  split at taken
  -- what the reader does between frames, and how it fails, tells the caller nothing
  next =>
    split at taken <;> cases taken
    · exact loading.reader (by simp)
    · exact loading.markFaulted.reader (by simp)
  next => split at taken <;> cases taken <;> exact loading.reader (by simp)
  next =>
    split at taken <;> cases taken
    · exact loading.reader (by simp)
    · exact loading.markFaulted.reader (by simp)
  next frame at_ =>
    split at taken
    -- the phase it is about to store is that of the frame
    next phase dispatched =>
      cases taken
      refine ⟨?_, loading.sending, loading.current, loading.ready, ?_, loading.answered⟩
      · intro frame' phase' same
        cases same
        exact ⟨_, dispatched⟩
      · intro epoch waits frame' same
        cases same
        rw [loading.current epoch waits] at dispatched
        exact ((LifecycleFrame.phase?_ready_iff _ epoch).mp dispatched).2
    next =>
      cases taken
      exact loading.reader (by simp)
  next frame phase at_ =>
    split at taken
    next =>
      cases taken
      exact loading.markFaulted.reader (by simp)
    next =>
      cases taken
      refine ⟨fun _ _ same => (nomatch same), loading.sending, loading.current, ?_,
        fun _ _ _ same => (nomatch same), fun returned => ?_⟩
      · -- The frame that makes the phase `Ready` is of the load that waits.
        intro waits ready
        obtain rfl : phase = .ready := ready
        obtain ⟨epoch, waits⟩ := Option.isSome_iff_exists.mp waits
        obtain ⟨found, dispatched⟩ := loading.storing frame .ready at_
        have event := ((frame.phase?_ready_iff found).mp dispatched).1
        have own : frame.loadEpoch = 0 ∨ s.caller.epoch? = some frame.loadEpoch := by
          rcases loading.stored epoch waits frame at_ with none_ | same
          · exact .inl none_
          · exact .inr (by rw [same]; exact waits)
        simp [confirms, event, own]
      · simp [loading.answered returned]
  next =>
    cases taken
    exact loading.reader (by simp)
  next => cases taken

theorem Loading.caller {place : CallerPlace} (out : place.epoch? = none)
    (sending : ∀ epoch, place ≠ .sending epoch) (returned : place ≠ .returned (.ok ())) :
    Loading { s with caller := place } where
  storing := loading.storing
  sending epoch at_ := absurd at_ (sending epoch)
  current epoch waits := by
    rw [show ({ s with caller := place } : Threads).caller.epoch? = none from out] at waits
    cases waits
  ready waits := by
    rw [show ({ s with caller := place } : Threads).caller.epoch? = none from out] at waits
    cases waits
  stored epoch waits := by
    rw [show ({ s with caller := place } : Threads).caller.epoch? = none from out] at waits
    cases waits
  answered at_ := absurd at_ returned

theorem Loading.waits {place : CallerPlace} {epoch : UInt64} (before : s.caller.epoch? = some epoch)
    (after : place.epoch? = some epoch) : Loading { s with caller := place } where
  storing := loading.storing
  sending other at_ := by
    rw [show place = .sending other from at_] at after
    cases after
  current other waits := loading.current other (before.trans (after.symm.trans waits))
  ready _ := loading.ready (by simp [before])
  stored other waits := loading.stored other (before.trans (after.symm.trans waits))
  answered at_ := by
    rw [show place = .returned (.ok ()) from at_] at after
    cases after

theorem Loading.stepCaller {late : Bool} {sent : Except EngineError Unit}
    (unready : s.sendsUnready (.caller late sent) = true)
    (taken : s.stepCaller late sent = some t) : t.Loading := by
  unfold Threads.stepCaller at taken
  split at taken
  next => cases taken
  next => split at taken <;> cases taken <;> exact loading.caller rfl (by simp) (by simp)
  next =>
    cases taken
    refine ⟨loading.storing, fun epoch same => ?_, fun _ same => (nomatch same),
      fun same => (nomatch same), fun _ same => (nomatch same), fun same => (nomatch same)⟩
    cases same
    rfl
  next epoch sends =>
    -- a load begins to wait in no `Ready` phase, and with no frame at hand that makes it one
    split at taken
    next =>
      cases taken
      obtain ⟨phase, frames⟩ := sendsUnready_sending sends unready
      refine ⟨loading.storing, fun _ same => (nomatch same), ?_, fun _ ready => absurd ready phase,
        ?_, fun same => (nomatch same)⟩
      · intro other same
        cases same
        exact loading.sending epoch sends
      · intro other same
        cases same
        exact frames
    next =>
      cases taken
      exact loading.caller rfl (by simp) (by simp)
  next epoch waits =>
    split at taken
    next =>
      cases taken
      exact loading.caller rfl (by simp) (by simp)
    next =>
      split at taken <;> cases taken
      · exact loading.caller rfl (by simp) (by simp)
      · exact loading.waits (by rw [waits]; rfl) rfl
  next epoch waits =>
    split at taken
    next ready =>
      -- the phase that is found was stored while the load waited
      cases taken
      have confirmed := loading.ready (by rw [waits]; rfl) ready
      refine ⟨loading.storing, fun _ same => (nomatch same), fun _ same => (nomatch same),
        fun same => (nomatch same), fun _ same => (nomatch same), fun _ => confirmed⟩
    next =>
      cases taken
      exact loading.waits (by rw [waits]; rfl) rfl
  next epoch waits =>
    split at taken <;> cases taken
    · exact loading.waits (by rw [waits]; rfl) rfl
    · exact loading.markFaulted.caller rfl (by simp) (by simp)
  next =>
    cases taken
    exact loading.caller rfl (by simp) (by simp)
  next => split at taken <;> cases taken <;> exact loading.caller rfl (by simp) (by simp)
  next =>
    cases taken
    refine ⟨loading.storing, fun _ same => (nomatch same), fun _ same => (nomatch same),
      fun same => (nomatch same), fun _ same => (nomatch same), fun same => (nomatch same)⟩

theorem Loading.step {m : Move} (unready : s.sendsUnready m = true) (taken : s.step m = some t) :
    t.Loading := by
  cases m with
  | exit =>
    cases taken
    exact ⟨loading.storing, loading.sending, loading.current, loading.ready, loading.stored,
      loading.answered⟩
  | reader frame? => exact loading.stepReader taken
  | watchdog fault =>
    simp only [Threads.step, stepWatchdog] at taken
    have marked := loading.markFaulted
    split at taken
    next =>
      split at taken <;> cases taken <;>
        exact ⟨loading.storing, loading.sending, loading.current, loading.ready, loading.stored,
          loading.answered⟩
    next =>
      split at taken <;> cases taken
      · exact ⟨marked.storing, marked.sending, marked.current, marked.ready, marked.stored,
          marked.answered⟩
      · exact ⟨loading.storing, loading.sending, loading.current, loading.ready, loading.stored,
          loading.answered⟩
    next =>
      cases taken
      exact ⟨loading.storing, loading.sending, loading.current, loading.ready, loading.stored,
        loading.answered⟩
    next => cases taken
  | load | unload =>
    simp only [Threads.step] at taken
    split at taken <;> cases taken
    exact loading.caller rfl (by simp) (by simp)
  | caller late sent => exact loading.stepCaller unready taken

end

/-- In a run whose loads send their commands while the phase is not `Ready`, each that returns
`Ok` was confirmed. -/
theorem load_answers_for_itself {moves : List Move}
    (guarded : Runs.Guarded Threads.step (fun s m => s.sendsUnready m = true) launched moves) :
    Runs.Always Threads.step Answered launched moves := by
  have loading : Runs.Always Threads.step Loading launched moves :=
    Runs.always_of_guarded Threads.step (fun _ _ _ loading => loading.step) loading_launched guarded
  exact Runs.always_mono Threads.step (fun _ loading => loading.answered) loading

def firstLoad : List Move :=
  [.load, .caller false (.ok ()), .caller false (.ok ()), .caller false (.ok ()), .reader none,
    .reader none, .reader (some ⟨.modelReady, 1⟩), .reader none, .reader none,
    .caller false (.ok ()), .caller false (.ok ())]

/-- The worker unloads the model before the second load. -/
theorem load_answers_for_itself_again :
    Runs.Always Threads.step Answered launched
      (firstLoad ++ [.caller false (.ok ()), .reader none, .reader none,
        .reader (some ⟨.modelUnloaded, 0⟩), .reader none, .reader none, .load,
        .caller false (.ok ()), .caller false (.ok ()), .caller false (.ok ()),
        .caller false (.ok ()), .caller false (.ok ())]) :=
  load_answers_for_itself (by decide +kernel)

/-- A second load finds the phase of the first. -/
theorem second_load_unanswered :
    ¬ Runs.Always Threads.step Answered launched
      (firstLoad ++ [.caller false (.ok ()), .load, .caller false (.ok ()),
        .caller false (.ok ()), .caller false (.ok ()), .caller false (.ok ()),
        .caller false (.ok ())]) := by
  intro always
  have last := Runs.always_last Threads.step always rfl
  exact absurd (last rfl) (by decide)

end Threads

end TribunusCompute.Supervisor
