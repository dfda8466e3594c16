import Mathlib.Data.List.Basic

/-!
# The stateful validator of the host–worker protocol

`worker_protocol.rs`: frames, and the `ProtocolValidator` that tracks which
requests are in flight and which have ended. No check reads a frame's payload,
so frames are modelled without it.
-/
namespace TribunusCompute.WorkerProtocol

structure ProtocolVersion where
  major : UInt16
  minor : UInt16
  deriving DecidableEq, Repr

def v1_0 : ProtocolVersion := { major := 1, minor := 0 }

inductive HostCommand
  | hello
  | loadModel
  | startGeneration
  | cancelGeneration
  | unloadModel
  | ping
  | shutdown
  | memoryPressure
  deriving DecidableEq, Repr

inductive WorkerEvent
  | helloAck
  | modelLoadStarted
  | modelLoaded
  | computeImageBound
  | anePrepared
  | gpuPrepared
  | cpuPrepared
  | kvArenaReady
  | routesValidated
  | modelReady
  | generationStarted
  | prefillStarted
  | prefillCompleted
  | token
  | stepMetrics
  | generationCompleted
  | generationCancelled
  | generationFailed
  | heartbeat
  | modelUnloaded
  | workerFatal
  | researchTraceBatch
  deriving DecidableEq, Repr

inductive MessageKind
  | hostCommand (cmd : HostCommand)
  | workerEvent (event : WorkerEvent)
  deriving DecidableEq, Repr

structure Frame where
  version : ProtocolVersion
  workerInstanceId : String
  sequenceNumber : UInt64
  requestId : Option String
  messageKind : MessageKind
  deriving DecidableEq, Repr

inductive FrameValidationError
  | frameTooLarge
  | unknownVersion
  | sequenceRegression
  | duplicateRequestStart
  | unknownRequest
  | terminalAfterClose
  | invalidMessageKind
  deriving DecidableEq, Repr

structure ProtocolValidator where
  expectedWorkerId : String
  nextExpectedSeq : UInt64
  /-- Request ids in flight: started but not yet terminal. -/
  knownRequests : List String
  /-- Request ids that have received a terminal event. -/
  terminalRequests : List String
  deriving DecidableEq, Repr

namespace ProtocolValidator

def new (workerId : String) : ProtocolValidator :=
  { expectedWorkerId := workerId, nextExpectedSeq := 0, knownRequests := [], terminalRequests := [] }

/-- The checks shared by both directions. The source's fourth check, that the message kind
serializes to a string, holds of every kind: they are all unit variants. -/
def validateBaseline (v : ProtocolValidator) (frame : Frame) : Except FrameValidationError Unit :=
  if frame.version ≠ v1_0 then .error .unknownVersion
  else if frame.sequenceNumber ≠ v.nextExpectedSeq then .error .sequenceRegression
  else if frame.workerInstanceId ≠ v.expectedWorkerId then .error .unknownRequest
  else .ok ()

/-- `next_expected_seq += 1`, on a `u64`. -/
def advance (v : ProtocolValidator) : ProtocolValidator :=
  { v with nextExpectedSeq := v.nextExpectedSeq + 1 }

def checkHostRequest (v : ProtocolValidator) (cmd : HostCommand) (reqId : String) :
    Except FrameValidationError Unit :=
  match cmd with
  | .startGeneration =>
    if reqId ∈ v.knownRequests then .error .duplicateRequestStart else .ok ()
  | .cancelGeneration =>
    if reqId ∉ v.knownRequests then .error .unknownRequest else .ok ()
  | _ => .ok ()

def validateHostCommand (v : ProtocolValidator) (frame : Frame) :
    Except FrameValidationError ProtocolValidator := do
  v.validateBaseline frame
  match frame.messageKind with
  | .hostCommand cmd =>
    match frame.requestId with
    | some reqId =>
      v.checkHostRequest cmd reqId
      return v.advance
    | none => return v.advance
  | .workerEvent _ => throw .invalidMessageKind

def recordEvent (v : ProtocolValidator) (event : WorkerEvent) (reqId : String) :
    Except FrameValidationError ProtocolValidator :=
  match event with
  | .generationStarted =>
    if reqId ∈ v.knownRequests then .error .duplicateRequestStart
    else .ok { v with knownRequests := v.knownRequests ++ [reqId] }
  | .generationCompleted | .generationCancelled | .generationFailed =>
    if reqId ∉ v.knownRequests then .error .unknownRequest
    else if reqId ∈ v.terminalRequests then .error .terminalAfterClose
    else .ok { v with
      knownRequests := v.knownRequests.filter (· ≠ reqId)
      terminalRequests := v.terminalRequests ++ [reqId] }
  | _ => .ok v

def validateWorkerEvent (v : ProtocolValidator) (frame : Frame) :
    Except FrameValidationError ProtocolValidator := do
  v.validateBaseline frame
  match frame.messageKind with
  | .workerEvent event =>
    match frame.requestId with
    | some reqId =>
      let v' ← v.recordEvent event reqId
      return v'.advance
    | none => return v.advance
  | .hostCommand _ => throw .invalidMessageKind

end ProtocolValidator

def WorkerEvent.isTerminal : WorkerEvent → Bool
  | .generationCompleted | .generationCancelled | .generationFailed => true
  | _ => false

end TribunusCompute.WorkerProtocol
