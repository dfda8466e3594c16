import TribunusCompute.WorkerProtocol.Validator

/-!
# The runtime state the supervisor's threads share

`WorkerRuntimeState` of `worker_supervisor.rs`: a phase and a load epoch, each an atomic of its
own. Any thread stores any phase over any other. The event reader stores the phases of the
model, with a look at the epoch before the last one only.
-/
namespace TribunusCompute.Supervisor

open WorkerProtocol

inductive EngineErrorCode
  | invalidRequest
  | policyRejected
  | modelNotLoaded
  | modelBusy
  | modelIntegrityFailed
  | modelAdmissionRejected
  | workerLaunchFailed
  | workerHandshakeFailed
  | workerProtocolViolation
  | workerCrashed
  | workerUnresponsive
  | workerRestartLimitExceeded
  | deadlineExceeded
  | memoryLimitExceeded
  | cancelled
  | consumerDisconnected
  | inferenceFailed
  | numericalFailure
  | internalInvariantViolation
  deriving DecidableEq, Repr

structure EngineError where
  code : EngineErrorCode
  message : String
  deriving DecidableEq, Repr

inductive WorkerLifecyclePhase
  | absent
  | spawning
  | handshaking
  | loading
  | warming
  | ready
  | failed
  | stopped
  deriving DecidableEq, Repr

/-- The source keeps the phase by its number; only numbers of phases are ever stored. -/
structure WorkerRuntimeState where
  phase : WorkerLifecyclePhase
  loadEpoch : UInt64
  deriving DecidableEq, Repr

namespace WorkerRuntimeState

def new : WorkerRuntimeState := ⟨.absent, 0⟩

def markFaulted (runtime : WorkerRuntimeState) : WorkerRuntimeState :=
  { runtime with phase := .failed }

def isFaulted (runtime : WorkerRuntimeState) : Bool := runtime.phase = .failed

def setPhase (runtime : WorkerRuntimeState) (phase : WorkerLifecyclePhase) :
    WorkerRuntimeState :=
  { runtime with phase }

/-- The epoch after it is counted up, on a `u64`, is that of the load. -/
def incrementLoadEpoch (runtime : WorkerRuntimeState) : UInt64 × WorkerRuntimeState :=
  (runtime.loadEpoch + 1, { runtime with loadEpoch := runtime.loadEpoch + 1 })

end WorkerRuntimeState

/-- What the event reader looks at in a validated frame for the phase; an epoch that the payload
does not give is `0`. -/
structure LifecycleFrame where
  event : WorkerEvent
  loadEpoch : UInt64
  deriving DecidableEq, Repr

/-- `load_epoch` of the frame is of another load than the current one. -/
def LifecycleFrame.stale (frame : LifecycleFrame) (current : UInt64) : Bool :=
  frame.loadEpoch ≠ 0 ∧ frame.loadEpoch ≠ current

/-- The phase the event reader stores for a frame, at the epoch it finds. Only a stale
`ModelReady` is dropped; a stale `RoutesValidated` is noted and stored. -/
def LifecycleFrame.phase? (frame : LifecycleFrame) (current : UInt64) :
    Option WorkerLifecyclePhase :=
  match frame.event with
  | .workerFatal => some .failed
  | .routesValidated => some .warming
  | .modelReady => if frame.stale current then none else some .ready
  | .modelUnloaded => some .absent
  | _ => none

/-- Only a `ModelReady` that is not stale makes the phase `Ready`. -/
theorem LifecycleFrame.phase?_ready_iff (frame : LifecycleFrame) (current : UInt64) :
    frame.phase? current = some .ready ↔
      frame.event = .modelReady ∧ (frame.loadEpoch = 0 ∨ frame.loadEpoch = current) := by
  obtain ⟨event, epoch⟩ := frame
  cases event with
  | modelReady =>
    by_cases none_ : epoch = 0 <;> by_cases same : epoch = current <;>
      simp [LifecycleFrame.phase?, LifecycleFrame.stale, none_, same]
  | _ => simp [LifecycleFrame.phase?]

/-- The first check of `start_generation`. -/
def checkReady : WorkerLifecyclePhase → Except EngineError Unit
  | .ready => .ok ()
  | .loading | .warming => .error ⟨.modelNotLoaded, "model loading in progress"⟩
  | _ => .error ⟨.modelNotLoaded, "model not loaded"⟩

end TribunusCompute.Supervisor
