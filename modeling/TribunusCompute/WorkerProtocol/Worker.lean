import TribunusCompute.Library.Runs
import TribunusCompute.WorkerProtocol.Validator

/-!
# The worker process

`tribunus-compute-worker.rs`: the command thread reads frames and forwards them, the
inference thread executes commands one at a time, the heartbeat thread reports. They
share one event writer, a cancellation flag, a shutdown flag and a channel. A step is
one access to what is shared, with the local work around it; no check reads an event's
payload, so events are modelled without it.
-/
namespace TribunusCompute.WorkerProtocol

/-! ## Commands -/

/-- What the command thread reads of a command's payload. The prompt only goes into the
prefill, whose outcome is arbitrary. -/
inductive CommandPayload
  | policySnapshot
  | startGeneration (requestId : String) (maxOutputTokens : UInt32)
  | request (requestId : String)
  | other
  deriving DecidableEq, Repr

structure CommandFrame where
  frame : Frame
  payload : CommandPayload
  deriving DecidableEq, Repr

def CommandFrame.names (c : CommandFrame) : List String :=
  c.frame.requestId.toList ++
    match c.payload with
    | .startGeneration requestId _ | .request requestId => [requestId]
    | .policySnapshot | .other => []

structure Generation where
  requestId : String
  maxOutputTokens : UInt32
  deriving DecidableEq, Repr

inductive InferenceCommand
  | loadModel
  | startGeneration (gen : Generation)
  | cancelGeneration
  | unloadModel
  | shutdown
  deriving DecidableEq, Repr

inductive CommandAction
  | write (event : WorkerEvent)
  | storeCancel
  | send (cmd : InferenceCommand)
  | storeShutdown
  | stop
  deriving DecidableEq, Repr

def commandActions (payload : CommandPayload) : HostCommand → List CommandAction
  | .hello => [.write .helloAck]
  | .loadModel =>
    match payload with
    | .policySnapshot => [.send .loadModel]
    | _ => [.write .workerFatal, .storeShutdown, .stop]
  | .startGeneration =>
    match payload with
    | .startGeneration requestId maxOutputTokens =>
      [.send (.startGeneration ⟨requestId, maxOutputTokens⟩)]
    | _ => []
  | .cancelGeneration => [.storeCancel, .send .cancelGeneration]
  | .unloadModel => [.write .modelUnloaded, .send .unloadModel]
  | .ping => [.write .heartbeat]
  | .shutdown => [.send .shutdown, .storeShutdown, .stop]
  | .memoryPressure => []

/-- One round of the command thread's loop: the validator after it, and what is to be done. -/
def handleFrame (v : ProtocolValidator) (c : CommandFrame) :
    ProtocolValidator × List CommandAction :=
  if c.frame.version ≠ v1_0 then (v, [])
  else
    match c.frame.messageKind with
    | .workerEvent _ => (v, [])
    | .hostCommand cmd =>
      match v.validateHostCommand c.frame with
      | .error _ => (v, [.write .workerFatal, .storeShutdown, .stop])
      | .ok v => (v, commandActions c.payload cmd)

/-! ## The inference thread -/

def defaultEosToken : UInt32 := 1

def loadEvents : List WorkerEvent :=
  [.modelLoaded, .computeImageBound, .anePrepared, .gpuPrepared, .cpuPrepared, .kvArenaReady,
    .routesValidated, .modelReady]

inductive InferencePc
  | idle
  | loading
  | announcing (events : List WorkerEvent)
  | loadFailed
  | busy (gen : Generation)
  | admission (gen : Generation)
  | activating (gen : Generation)
  | starting (gen : Generation)
  | started (gen : Generation)
  | prefillStarting (gen : Generation)
  | prefilling (gen : Generation)
  | prefilled (gen : Generation)
  | prefillCompleting (gen : Generation)
  | firstToken (gen : Generation)
  | decodeHead (gen : Generation) (pos : ℕ)
  | decoding (gen : Generation) (pos : ℕ)
  | decoded (gen : Generation) (pos : ℕ) (token : UInt32)
  | emitting (gen : Generation) (pos : ℕ) (token : UInt32)
  | completing (gen : Generation)
  | resetting (unloading : Bool)
  | clearing (again : Bool)
  | exited
  deriving DecidableEq, Repr

inductive HeartbeatPc
  | checking
  | sleeping
  | exited
  deriving DecidableEq, Repr

/-- The threads, what they share, and the history: the generations asked for, those taken from
the channel, those taken while the worker was not shutting down, and the requests named by the
cancellations received. -/
structure Worker where
  workerId : String
  nextSeq : UInt64
  events : List Frame
  cancel : Bool
  activeRequest : Option String
  shutdown : Bool
  channel : List InferenceCommand
  validator : ProtocolValidator
  frame : Option CommandFrame
  todo : List CommandAction
  reading : Bool
  model : Bool
  session : Bool
  pc : InferencePc
  heartbeat : HeartbeatPc
  requested : List String
  taken : List String
  due : List String
  cancels : List String

namespace Worker

def new (workerId : String) : Worker where
  workerId := workerId
  nextSeq := 0
  events := []
  cancel := false
  activeRequest := none
  shutdown := false
  channel := []
  validator := .new workerId
  frame := none
  todo := []
  reading := true
  model := false
  session := false
  pc := .idle
  heartbeat := .checking
  requested := []
  taken := []
  due := []
  cancels := []

def newWorkerEvent (workerId : String) (seq : UInt64) (requestId : String) (event : WorkerEvent) :
    Frame where
  version := v1_0
  workerInstanceId := workerId
  sequenceNumber := seq
  requestId := some requestId
  messageKind := .workerEvent event

/-- `write_event`: number and write are one step, under the lock. -/
def writeEvent (s : Worker) (event : WorkerEvent) (requestId : Option String) : Worker :=
  { s with
    nextSeq := s.nextSeq + 1
    events := s.events ++ [newWorkerEvent s.workerId s.nextSeq (requestId.getD "") event] }

/-! ### Generating -/

/-- A check of the cancellation flag. Only this thread clears the flag, so a check that finds it
set is one step with the event it writes. -/
def checkCancelled (s : Worker) (gen : Generation) (next : InferencePc) : Worker :=
  if s.cancel then
    { s.writeEvent .generationCancelled (some gen.requestId) with pc := .resetting false }
  else { s with pc := next }

/-- The command at the head of the channel. No path sets `session`, so the stores that clear it
are left out. -/
def take (s : Worker) : InferenceCommand → Worker
  | .shutdown => { s with shutdown := true, pc := .exited }
  | .unloadModel => { s with model := false, pc := .resetting true }
  | .cancelGeneration => s
  | .loadModel => { s with pc := .loading }
  | .startGeneration gen =>
    let s :=
      { s with
        taken := s.taken ++ [gen.requestId]
        due := if s.shutdown then s.due else s.due ++ [gen.requestId] }
    if !s.model then s
    else if s.session then { s with pc := .busy gen }
    else { s with pc := .admission gen }

/-- One step of the inference thread; `result` is what the load, the prefill or a decode step
gives, and no other step reads it. -/
def infer (s : Worker) (result : Option UInt32) : Option Worker :=
  match s.pc with
  | .idle =>
    match s.channel with
    | cmd :: channel => some ({ s with channel := channel }.take cmd)
    | [] => if s.reading then none else some { s with pc := .exited }
  | .loading =>
    match result with
    | some _ => some { s with model := true, pc := .announcing loadEvents }
    | none => some { s.writeEvent .workerFatal none with pc := .loadFailed }
  | .announcing [] => some { s with pc := .idle }
  | .announcing (event :: events) =>
    some { s.writeEvent event none with pc := .announcing events }
  | .loadFailed => some { s with shutdown := true, pc := .exited }
  | .busy gen => some { s.writeEvent .generationFailed (some gen.requestId) with pc := .idle }
  -- A second load of the flag goes into the session of the model, whose outcomes are arbitrary.
  | .admission gen =>
    if s.cancel then
      some { s.writeEvent .generationCancelled (some gen.requestId) with pc := .idle }
    else some { s with pc := .activating gen }
  | .activating gen =>
    some { s with activeRequest := some gen.requestId, pc := .starting gen }
  | .starting gen =>
    some { s.writeEvent .generationStarted (some gen.requestId) with pc := .started gen }
  | .started gen => some (s.checkCancelled gen (.prefillStarting gen))
  | .prefillStarting gen =>
    some { s.writeEvent .prefillStarted (some gen.requestId) with pc := .prefilling gen }
  | .prefilling gen =>
    match result with
    | some _ => some { s with pc := .prefilled gen }
    | none =>
      some { s.writeEvent .generationFailed (some gen.requestId) with pc := .resetting false }
  | .prefilled gen => some (s.checkCancelled gen (.prefillCompleting gen))
  | .prefillCompleting gen =>
    some { s.writeEvent .prefillCompleted (some gen.requestId) with pc := .firstToken gen }
  | .firstToken gen =>
    some { s.writeEvent .token (some gen.requestId) with pc := .decodeHead gen 1 }
  | .decodeHead gen pos =>
    if pos < gen.maxOutputTokens.toNat then some (s.checkCancelled gen (.decoding gen pos))
    else some { s with pc := .completing gen }
  | .decoding gen pos =>
    match result with
    | some token => some { s with pc := .decoded gen pos token }
    | none =>
      some { s.writeEvent .generationFailed (some gen.requestId) with pc := .resetting false }
  | .decoded gen pos token => some (s.checkCancelled gen (.emitting gen pos token))
  | .emitting gen pos token =>
    let next := if token = defaultEosToken then .completing gen else .decodeHead gen (pos + 1)
    some { s.writeEvent .token (some gen.requestId) with pc := next }
  | .completing gen =>
    some { s.writeEvent .generationCompleted (some gen.requestId) with pc := .resetting false }
  -- `reset` takes the active request away before it clears the flag, and an unload clears the
  -- flag once more.
  | .resetting unloading =>
    some { s with activeRequest := none, pc := .clearing unloading }
  | .clearing again =>
    some { s with cancel := false, pc := if again then .clearing false else .idle }
  | .exited => none

/-! ### The other threads -/

def heartbeatStep (s : Worker) : Option Worker :=
  match s.heartbeat with
  | .checking => some { s with heartbeat := if s.shutdown then .exited else .sleeping }
  | .sleeping => some { s.writeEvent .heartbeat none with heartbeat := .checking }
  | .exited => none

/-- The first of the things the command thread has to do. A send to an inference thread that has
exited fails, and nobody sees the difference. -/
def act (s : Worker) : CommandAction → Worker
  | .write event => s.writeEvent event none
  | .storeCancel => { s with cancel := true }
  | .send cmd => { s with channel := s.channel ++ [cmd] }
  | .storeShutdown => { s with shutdown := true }
  | .stop => { s with reading := false }

end Worker

def starts (cmds : List InferenceCommand) : List String :=
  cmds.flatMap fun
    | .startGeneration gen => [gen.requestId]
    | _ => []

def pendingStarts (todo : List CommandAction) : List String :=
  todo.flatMap fun
    | .send cmd => starts [cmd]
    | _ => []

/-- One thread takes a step; the command thread may also get a frame to read, or no more. -/
inductive WorkerStep
  | read (c : CommandFrame)
  | readError
  | command
  | inference (result : Option UInt32)
  | heartbeat
  deriving DecidableEq, Repr

namespace Worker

/-- `none` where the thread cannot step. A host asks for each generation once. -/
def step (s : Worker) : WorkerStep → Option Worker
  | .read c =>
    let (validator, todo) := handleFrame s.validator c
    if s.reading ∧ s.todo = [] ∧ ∀ id ∈ pendingStarts todo, id ∉ s.requested then
      some { s with
        validator := validator
        frame := some c
        todo := todo
        requested := s.requested ++ pendingStarts todo
        cancels := if .storeCancel ∈ todo then s.cancels ++ c.names else s.cancels }
    else none
  | .readError =>
    if s.reading ∧ s.todo = [] then some { s with todo := [.storeShutdown, .stop] } else none
  | .command =>
    match s.todo with
    | [] => none
    | action :: todo => some ({ s with todo := todo }.act action)
  | .inference result => s.infer result
  | .heartbeat => s.heartbeatStep

/-- A command of the host in a frame that the command thread accepts as number `seq`. -/
def hostFrame (seq : UInt64) (cmd : HostCommand) (payload : CommandPayload) : CommandFrame where
  frame :=
    { version := v1_0
      workerInstanceId := "worker"
      sequenceNumber := seq
      requestId := none
      messageKind := .hostCommand cmd }
  payload := payload

def loadSteps : List WorkerStep :=
  [.read (hostFrame 0 .loadModel .policySnapshot), .command] ++
    List.replicate 11 (.inference (some 7))

end Worker

end TribunusCompute.WorkerProtocol
