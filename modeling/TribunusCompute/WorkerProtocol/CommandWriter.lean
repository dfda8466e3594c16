import TribunusCompute.WorkerProtocol.Validator

/-!
# What the host writes and the worker's command thread accepts

`WorkerCommandWriter` of `worker_supervisor.rs` numbers the frames it sends. The command
thread validates each of them, but no event of the worker ever reaches its validator, so
that it knows no request, and no request can be cancelled.
-/
namespace TribunusCompute.WorkerProtocol

namespace Frame

def newHostCommand (workerId : String) (seq : UInt64) (cmd : HostCommand) : Frame where
  version := v1_0
  workerInstanceId := workerId
  sequenceNumber := seq
  requestId := none
  messageKind := .hostCommand cmd

def newHostCommandWithRequest (workerId : String) (seq : UInt64) (requestId : String)
    (cmd : HostCommand) : Frame where
  version := v1_0
  workerInstanceId := workerId
  sequenceNumber := seq
  requestId := some requestId
  messageKind := .hostCommand cmd

end Frame

structure WorkerCommandWriter where
  workerId : String
  nextSeq : UInt64
  deriving DecidableEq, Repr

/-- The commands a host sends, with the request of those that belong to one. -/
inductive HostAction
  | hello
  | loadModel
  | startGeneration (requestId : String)
  | cancelGeneration (requestId : String)
  | ping
  | unloadModel
  | memoryPressure
  deriving DecidableEq, Repr

namespace WorkerCommandWriter

def new (workerId : String) : WorkerCommandWriter where
  workerId := workerId
  nextSeq := 0

/-- The frame for a command; its number is taken under the lock. Frames are within the size
limit: a larger one takes a number and is not sent. -/
def writeFrameLocked (w : WorkerCommandWriter) (cmd : HostCommand) (requestId : Option String) :
    Frame × WorkerCommandWriter :=
  let frame :=
    match requestId with
    | some rid => Frame.newHostCommandWithRequest w.workerId w.nextSeq rid cmd
    | none => Frame.newHostCommand w.workerId w.nextSeq cmd
  (frame, { w with nextSeq := w.nextSeq + 1 })

def sendCommand (w : WorkerCommandWriter) (cmd : HostCommand) : Frame × WorkerCommandWriter :=
  w.writeFrameLocked cmd none

def sendCommandWithRequest (w : WorkerCommandWriter) (cmd : HostCommand) (requestId : String) :
    Frame × WorkerCommandWriter :=
  w.writeFrameLocked cmd (some requestId)

def send (w : WorkerCommandWriter) : HostAction → Frame × WorkerCommandWriter
  | .hello => w.sendCommand .hello
  | .loadModel => w.sendCommand .loadModel
  | .startGeneration requestId => w.sendCommandWithRequest .startGeneration requestId
  | .cancelGeneration requestId => w.sendCommandWithRequest .cancelGeneration requestId
  | .ping => w.sendCommand .ping
  | .unloadModel => w.sendCommand .unloadModel
  | .memoryPressure => w.sendCommand .memoryPressure

def sendAll (w : WorkerCommandWriter) : List HostAction → List Frame
  | [] => []
  | action :: actions =>
    let (frame, w) := w.send action
    frame :: w.sendAll actions

end WorkerCommandWriter

namespace ProtocolValidator

def acceptsCommands (v : ProtocolValidator) (frames : List Frame) : Bool :=
  (frames.foldlM validateHostCommand v).isOk

/-- The validator of a command thread that has accepted all frames of the writer so far. -/
structure Follows (v : ProtocolValidator) (w : WorkerCommandWriter) : Prop where
  seq : v.nextExpectedSeq = w.nextSeq
  workerId : v.expectedWorkerId = w.workerId
  noRequests : v.knownRequests = []

theorem Follows.advance {v : ProtocolValidator} {w : WorkerCommandWriter} (follows : v.Follows w)
    (action : HostAction) : v.advance.Follows (w.send action).2 := by
  have sent : (w.send action).2 = { w with nextSeq := w.nextSeq + 1 } := by
    cases action <;> rfl
  rw [sent]
  refine ⟨?_, follows.workerId, follows.noRequests⟩
  rw [ProtocolValidator.advance, follows.seq]

theorem validateBaseline_ok {v : ProtocolValidator} {frame : Frame} (version : frame.version = v1_0)
    (seq : frame.sequenceNumber = v.nextExpectedSeq)
    (workerId : frame.workerInstanceId = v.expectedWorkerId) :
    v.validateBaseline frame = .ok () := by
  simp [validateBaseline, version, seq, workerId]

/-- The next frame of the writer passes exactly if it cancels nothing. -/
theorem validateHostCommand_send {v : ProtocolValidator} {w : WorkerCommandWriter}
    (follows : v.Follows w) (action : HostAction) :
    v.validateHostCommand (w.send action).1 =
      match action with
      | .cancelGeneration _ => .error .unknownRequest
      | _ => .ok v.advance := by
  have baseline : v.validateBaseline (w.send action).1 = .ok () := by
    apply validateBaseline_ok
    · cases action <;> rfl
    · rw [follows.seq]
      cases action <;> rfl
    · rw [follows.workerId]
      cases action <;> rfl
  rw [validateHostCommand, baseline]
  cases action with
  | startGeneration requestId =>
    have fresh : requestId ∉ v.knownRequests := by simp [follows.noRequests]
    simp [WorkerCommandWriter.send, WorkerCommandWriter.sendCommandWithRequest,
      WorkerCommandWriter.writeFrameLocked, Frame.newHostCommandWithRequest, checkHostRequest,
      fresh, bind, Except.bind, pure, Except.pure]
  | cancelGeneration requestId =>
    have unknown : requestId ∉ v.knownRequests := by simp [follows.noRequests]
    simp [WorkerCommandWriter.send, WorkerCommandWriter.sendCommandWithRequest,
      WorkerCommandWriter.writeFrameLocked, Frame.newHostCommandWithRequest, checkHostRequest,
      unknown, bind, Except.bind]
  | hello | loadModel | ping | unloadModel | memoryPressure => rfl

theorem acceptsCommands_cons (v : ProtocolValidator) (frame : Frame) (frames : List Frame) :
    v.acceptsCommands (frame :: frames) =
      match v.validateHostCommand frame with
      | .ok v' => v'.acceptsCommands frames
      | .error _ => false := by
  unfold acceptsCommands
  rw [List.foldlM_cons]
  cases v.validateHostCommand frame with
  | ok v' => rfl
  | error e => rfl

theorem acceptsCommands_iff {v : ProtocolValidator} {w : WorkerCommandWriter}
    (follows : v.Follows w) (actions : List HostAction) :
    v.acceptsCommands (w.sendAll actions) = true ↔
      ∀ requestId, .cancelGeneration requestId ∉ actions := by
  induction actions generalizing v w with
  | nil => simp [WorkerCommandWriter.sendAll, acceptsCommands, pure, Except.pure, Except.isOk,
      Except.toBool]
  | cons action actions ih =>
    have rest := ih (follows.advance action)
    rw [WorkerCommandWriter.sendAll, acceptsCommands_cons, validateHostCommand_send follows]
    cases action with
    | cancelGeneration requestId =>
      exact iff_of_false Bool.false_ne_true fun none_ => none_ requestId List.mem_cons_self
    | hello | loadModel | ping | unloadModel | memoryPressure | startGeneration requestId =>
      simpa using rest

end ProtocolValidator

/-- The validator of the worker's command thread accepts all that a host writes exactly if no
generation is cancelled. -/
theorem accepts_sent_iff_nothing_cancelled (workerId : String) (actions : List HostAction) :
    (ProtocolValidator.new workerId).acceptsCommands
        ((WorkerCommandWriter.new workerId).sendAll actions) = true ↔
      ∀ requestId, .cancelGeneration requestId ∉ actions :=
  ProtocolValidator.acceptsCommands_iff ⟨rfl, rfl, rfl⟩ actions

/-- A generation is started and cancelled. -/
theorem cancel_is_rejected :
    (ProtocolValidator.new "worker").acceptsCommands
      ((WorkerCommandWriter.new "worker").sendAll
        [.hello, .loadModel, .startGeneration "gen-1", .cancelGeneration "gen-1"]) = false := by
  decide

end TribunusCompute.WorkerProtocol
