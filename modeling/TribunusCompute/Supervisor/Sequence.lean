import TribunusCompute.WorkerProtocol.CommandWriter
import TribunusCompute.WorkerProtocol.Lifecycle
import TribunusCompute.Supervisor.Runtime
import Mathlib.Algebra.GroupWithZero.Nat

/-!
# The numbers of the frames a command writer sends

`WorkerCommandWriter` takes a number for every command and refuses a frame that is too long
only afterwards, so that the number of a refused frame is missing on the other side. The
validator there keeps its own number for a cancellation it rejects. Frames are in step as long
as neither happens before another frame is written.
-/
namespace TribunusCompute.Supervisor

open WorkerProtocol ProtocolValidator

def maxFrameSizeBytes : ℕ := 1048576

/-- A frame with its payload, a JSON value. -/
structure WireFrame (Value : Type*) extends Frame where
  payload : Value

/-- What a caller hands to `send_command` and `send_command_with_request`. -/
structure Command (Value : Type*) where
  cmd : HostCommand
  requestId : Option String
  payload : Value

def Command.cancels {Value : Type*} (command : Command Value) : Bool :=
  command.cmd = .cancelGeneration ∧ command.requestId.isSome

section
variable {Value : Type*}

def wireFrame (w : WorkerCommandWriter) (command : Command Value) : WireFrame Value :=
  { (w.writeFrameLocked command.cmd command.requestId).1 with payload := command.payload }

/-- `to_vec` is the serializer of frames. A frame that is too long has taken its number. -/
def writeFrame (toVec : WireFrame Value → List UInt8) (w : WorkerCommandWriter)
    (command : Command Value) : Except EngineError (WireFrame Value) × WorkerCommandWriter :=
  let after := (w.writeFrameLocked command.cmd command.requestId).2
  if maxFrameSizeBytes < (toVec (wireFrame w command)).length then
    (.error ⟨.internalInvariantViolation, "frame exceeds max size"⟩, after)
  else (.ok (wireFrame w command), after)

/-- The frames that reach the pipe. The lock makes the commands of all threads one sequence. -/
def written (toVec : WireFrame Value → List UInt8) (w : WorkerCommandWriter) :
    List (Command Value) → List (WireFrame Value)
  | [] => []
  | command :: commands =>
    let (result, w) := writeFrame toVec w command
    result.toOption.toList ++ written toVec w commands

def writerAt (workerId : String) (position : ℕ) : WorkerCommandWriter :=
  ⟨workerId, UInt64.ofNat position⟩

/-- The command at this place of a sequence is refused: its frame, with its place for its
number, is too long. -/
def refuses (toVec : WireFrame Value → List UInt8) (workerId : String)
    (numbered : Command Value × ℕ) : Bool :=
  maxFrameSizeBytes < (toVec (wireFrame (writerAt workerId numbered.2) numbered.1)).length

def refusals (toVec : WireFrame Value → List UInt8) (workerId : String)
    (commands : List (Command Value)) : ℕ :=
  commands.zipIdx.countP (refuses toVec workerId)

def cancellations (toVec : WireFrame Value → List UInt8) (workerId : String)
    (commands : List (Command Value)) : ℕ :=
  commands.zipIdx.countP fun numbered =>
    !refuses toVec workerId numbered && numbered.1.cancels

/-- What the frames of a writer must satisfy, and the validator that receives them. -/
structure SequenceLaw (toVec : WireFrame Value → List UInt8) (workerId : String)
    (commands : List (Command Value)) : Prop where
  numbered : (written toVec (.new workerId) commands).map (·.sequenceNumber) =
    (List.range (written toVec (.new workerId) commands).length).map UInt64.ofNat
  in_order : ∀ front frame back, written toVec (.new workerId) commands = front ++ frame :: back →
    ((ProtocolValidator.new workerId).afterAll
      (front.map fun earlier => .host earlier.toFrame)).validateHostCommand frame.toFrame ≠
        .error .sequenceRegression

/-- Before every command that is written, as many commands were refused, and as many
cancellations written, as make the counters come round: none, in a sequence that is shorter
than `2 ^ 64`. -/
def InStep (toVec : WireFrame Value → List UInt8) (workerId : String)
    (commands : List (Command Value)) : Prop :=
  ∀ front command back, commands = front ++ command :: back →
    refuses toVec workerId (command, front.length) = false →
      2 ^ 64 ∣ refusals toVec workerId front ∧ 2 ^ 64 ∣ cancellations toVec workerId front

/-! ## The frames, one command at a time -/

variable (toVec : WireFrame Value → List UInt8) (workerId : String)

theorem writeFrame_at (position : ℕ) (command : Command Value) :
    writeFrame toVec (writerAt workerId position) command =
      (if refuses toVec workerId (command, position) then
        .error ⟨.internalInvariantViolation, "frame exceeds max size"⟩
        else .ok (wireFrame (writerAt workerId position) command),
        writerAt workerId (position + 1)) := by
  have next : ((writerAt workerId position).writeFrameLocked command.cmd command.requestId).2 =
      writerAt workerId (position + 1) := by
    simp [WorkerCommandWriter.writeFrameLocked, writerAt]
  unfold writeFrame
  rw [next]
  by_cases long : maxFrameSizeBytes <
      (toVec (wireFrame (writerAt workerId position) command)).length
  · simp [refuses, long]
  · simp [refuses, long]

theorem written_at (position : ℕ) (commands : List (Command Value)) :
    written toVec (writerAt workerId position) commands =
      (commands.zipIdx position).flatMap fun numbered =>
        if refuses toVec workerId numbered then []
        else [wireFrame (writerAt workerId numbered.2) numbered.1] := by
  induction commands generalizing position with
  | nil => rfl
  | cons command commands ih =>
    rw [written, writeFrame_at, List.zipIdx_cons, List.flatMap_cons, ← ih]
    cases refuses toVec workerId (command, position) with
    | true => rfl
    | false => rfl

theorem written_new (commands : List (Command Value)) :
    written toVec (.new workerId) commands =
      commands.zipIdx.flatMap fun numbered =>
        if refuses toVec workerId numbered then []
        else [wireFrame (writerAt workerId numbered.2) numbered.1] :=
  written_at toVec workerId 0 commands

theorem written_concat (front : List (Command Value)) (command : Command Value) :
    written toVec (.new workerId) (front ++ [command]) =
      written toVec (.new workerId) front ++
        if refuses toVec workerId (command, front.length) then []
        else [wireFrame (writerAt workerId front.length) command] := by
  rw [written_new, written_new, List.zipIdx_append, List.flatMap_append]
  simp

theorem refusals_concat (front : List (Command Value)) (command : Command Value) :
    refusals toVec workerId (front ++ [command]) =
      refusals toVec workerId front +
        if refuses toVec workerId (command, front.length) then 1 else 0 := by
  rw [refusals, List.zipIdx_append, List.countP_append, refusals]
  simp [List.countP_singleton]

theorem cancellations_concat (front : List (Command Value)) (command : Command Value) :
    cancellations toVec workerId (front ++ [command]) =
      cancellations toVec workerId front +
        if !refuses toVec workerId (command, front.length) && command.cancels then 1 else 0 := by
  rw [cancellations, List.zipIdx_append, List.countP_append, cancellations]
  simp [List.countP_singleton]

theorem length_written (commands : List (Command Value)) :
    (written toVec (.new workerId) commands).length + refusals toVec workerId commands =
      commands.length := by
  induction commands using List.reverseRecOn with
  | nil => rfl
  | append_singleton front command ih =>
    rw [written_concat, refusals_concat, List.length_append, List.length_append]
    cases refuses toVec workerId (command, front.length) with
    | true =>
      simp only [if_true, List.length_nil, List.length_singleton]
      omega
    | false =>
      simp only [Bool.false_eq_true, if_false, List.length_singleton]
      omega

/-! ## The validator on the other side -/

def received (workerId : String) (frames : List (WireFrame Value)) : ProtocolValidator :=
  (ProtocolValidator.new workerId).afterAll (frames.map fun frame => .host frame.toFrame)

/-- A frame of the writer is rejected for its number, or else because it cancels. -/
theorem validateHostCommand_wireFrame {v : ProtocolValidator} (none_ : v.knownRequests = [])
    (same : v.expectedWorkerId = workerId) (position : ℕ) (command : Command Value) :
    v.validateHostCommand (wireFrame (writerAt workerId position) command).toFrame =
      if v.nextExpectedSeq ≠ UInt64.ofNat position then .error .sequenceRegression
      else if command.cancels then .error .unknownRequest
      else .ok v.advance := by
  obtain ⟨cmd, requestId, payload⟩ := command
  by_cases expected : v.nextExpectedSeq = UInt64.ofNat position
  · rw [if_neg (not_not.mpr expected)]
    have passes (frame : Frame) (version : frame.version = v1_0)
        (seq : frame.sequenceNumber = UInt64.ofNat position)
        (worker : frame.workerInstanceId = workerId) : v.validateBaseline frame = .ok () :=
      validateBaseline_ok version (seq.trans expected.symm) (worker.trans same.symm)
    cases requestId with
    | none =>
      rw [validateHostCommand, passes _ rfl rfl rfl]
      simp [Command.cancels, wireFrame, WorkerCommandWriter.writeFrameLocked,
        Frame.newHostCommand, bind, Except.bind, pure, Except.pure]
    | some requestId =>
      rw [validateHostCommand, passes _ rfl rfl rfl]
      cases cmd <;>
        simp [Command.cancels, wireFrame, WorkerCommandWriter.writeFrameLocked,
          Frame.newHostCommandWithRequest, checkHostRequest, none_, bind, Except.bind, pure,
          Except.pure]
  · rw [if_pos expected]
    have fails (frame : Frame) (version : frame.version = v1_0)
        (seq : frame.sequenceNumber = UInt64.ofNat position) :
        v.validateBaseline frame = .error .sequenceRegression := by
      simp [validateBaseline, version, seq, Ne.symm expected]
    cases requestId with
    | none =>
      rw [validateHostCommand, fails _ rfl rfl]
      rfl
    | some requestId =>
      rw [validateHostCommand, fails _ rfl rfl]
      rfl

theorem received_concat (frames : List (WireFrame Value)) (frame : WireFrame Value) :
    received workerId (frames ++ [frame]) =
      (received workerId frames).after (.host frame.toFrame) := by
  rw [received, List.map_append, List.map_singleton, afterAll_append, received]

theorem received_written (commands : List (Command Value)) :
    (received workerId (written toVec (.new workerId) commands)).knownRequests = [] ∧
      (received workerId (written toVec (.new workerId) commands)).expectedWorkerId =
        workerId := by
  induction commands using List.reverseRecOn with
  | nil => exact ⟨rfl, rfl⟩
  | append_singleton front command ih =>
    rw [written_concat]
    cases refuses toVec workerId (command, front.length) with
    | true => simpa using ih
    | false =>
      simp only [Bool.false_eq_true, if_false]
      rw [received_concat]
      have answer := validateHostCommand_wireFrame workerId ih.1 ih.2 front.length command
      unfold ProtocolValidator.after
      rw [check, answer]
      split_ifs with regresses cancels
      · exact ih
      · exact ih
      · exact ih

/-! ## The law, one command at a time -/

variable {toVec workerId}

theorem sequenceLaw_concat (front : List (Command Value)) (command : Command Value) :
    SequenceLaw toVec workerId (front ++ [command]) ↔
      SequenceLaw toVec workerId front ∧
        (refuses toVec workerId (command, front.length) = false →
          UInt64.ofNat front.length =
            UInt64.ofNat (written toVec (.new workerId) front).length ∧
          (received workerId (written toVec (.new workerId) front)).nextExpectedSeq =
            UInt64.ofNat front.length) := by
  cases refused : refuses toVec workerId (command, front.length) with
  | true =>
    -- Nothing is written for a refused command, though it takes a number.
    have same : written toVec (.new workerId) (front ++ [command]) =
        written toVec (.new workerId) front := by simp [written_concat, refused]
    constructor
    · intro law
      refine ⟨⟨?_, ?_⟩, fun open_ => nomatch open_⟩
      · simpa only [same] using law.numbered
      · simpa only [same] using law.in_order
    · rintro ⟨law, -⟩
      refine ⟨?_, ?_⟩
      · simpa only [same] using law.numbered
      · simpa only [same] using law.in_order
  | false =>
    have more : written toVec (.new workerId) (front ++ [command]) =
        written toVec (.new workerId) front ++
          [wireFrame (writerAt workerId front.length) command] := by
      simp [written_concat, refused]
    obtain ⟨none_, same⟩ := received_written toVec workerId front
    have answer := validateHostCommand_wireFrame workerId none_ same front.length command
    have number : (wireFrame (writerAt workerId front.length) command).sequenceNumber =
        UInt64.ofNat front.length := by
      obtain ⟨cmd, requestId, payload⟩ := command
      cases requestId <;> rfl
    have expected_iff :
        (received workerId (written toVec (.new workerId) front)).validateHostCommand
            (wireFrame (writerAt workerId front.length) command).toFrame ≠
          .error .sequenceRegression ↔
        (received workerId (written toVec (.new workerId) front)).nextExpectedSeq =
          UInt64.ofNat front.length := by
      rw [answer]
      split_ifs with regresses cancels
      · simpa using regresses
      · simpa using regresses
      · simpa using regresses
    constructor
    · intro law
      have numbered := law.numbered
      rw [more, List.length_append, List.length_singleton, List.range_succ, List.map_append,
        List.map_append] at numbered
      obtain ⟨before, last⟩ := List.append_inj' numbered rfl
      refine ⟨⟨before, fun earlier frame later split => ?_⟩, fun _ => ⟨?_, ?_⟩⟩
      · apply law.in_order earlier frame (later ++
          [wireFrame (writerAt workerId front.length) command])
        rw [more, split, List.append_assoc, List.cons_append]
      · rw [← number]
        exact List.singleton_inj.mp last
      · exact expected_iff.mp (law.in_order _ _ [] more)
    · -- A frame is the last one, or it was written before this command.
      rintro ⟨law, next⟩
      obtain ⟨length, expected⟩ := next rfl
      refine ⟨?_, fun earlier frame later split => ?_⟩
      · rw [more, List.length_append, List.length_singleton, List.range_succ, List.map_append,
          List.map_append, law.numbered, List.map_singleton, number, length]
        simp
      · rw [more] at split
        rcases List.eq_nil_or_concat' later with rfl | ⟨later, last, rfl⟩
        · obtain ⟨rfl, last⟩ := List.append_inj' split rfl
          obtain rfl := List.singleton_inj.mp last
          exact expected_iff.mpr expected
        · rw [← List.cons_append, ← List.append_assoc] at split
          obtain ⟨inside, -⟩ := List.append_inj' split rfl
          exact law.in_order earlier frame later inside

theorem inStep_concat (front : List (Command Value)) (command : Command Value) :
    InStep toVec workerId (front ++ [command]) ↔
      InStep toVec workerId front ∧
        (refuses toVec workerId (command, front.length) = false →
          2 ^ 64 ∣ refusals toVec workerId front ∧
            2 ^ 64 ∣ cancellations toVec workerId front) := by
  constructor
  · intro inStep
    refine ⟨fun earlier other later split => ?_, inStep front command [] rfl⟩
    exact inStep earlier other (later ++ [command]) (by simp [split])
  · rintro ⟨inStep, next⟩ earlier other later split
    rcases List.eq_nil_or_concat' later with rfl | ⟨later, last, rfl⟩
    · obtain ⟨rfl, same⟩ := List.append_inj' split rfl
      obtain rfl := List.singleton_inj.mp same
      exact next
    · rw [← List.cons_append, ← List.append_assoc] at split
      obtain ⟨inside, -⟩ := List.append_inj' split rfl
      exact inStep earlier other later inside

/-- While no frame is out of order, the validator is behind by the cancellations it rejected. -/
theorem expected_add_cancellations {commands : List (Command Value)}
    (law : SequenceLaw toVec workerId commands) :
    (received workerId (written toVec (.new workerId) commands)).nextExpectedSeq +
        UInt64.ofNat (cancellations toVec workerId commands) =
      UInt64.ofNat (written toVec (.new workerId) commands).length := by
  induction commands using List.reverseRecOn with
  | nil => rfl
  | append_singleton front command ih =>
    obtain ⟨before, next⟩ := (sequenceLaw_concat front command).mp law
    have behind := ih before
    rw [written_concat, cancellations_concat]
    cases refused : refuses toVec workerId (command, front.length) with
    | true => simpa using behind
    | false =>
      obtain ⟨-, expected⟩ := next refused
      obtain ⟨none_, same⟩ := received_written toVec workerId front
      have answer := validateHostCommand_wireFrame workerId none_ same front.length command
      rw [if_neg (not_not.mpr expected)] at answer
      simp only [Bool.false_eq_true, if_false, Bool.not_false, Bool.true_and, received_concat,
        List.length_append, List.length_singleton]
      unfold ProtocolValidator.after
      rw [check, answer]
      cases command.cancels with
      | true => simp [← behind, UInt64.add_assoc]
      | false =>
        simp only [Bool.false_eq_true, if_false, Nat.add_zero, ProtocolValidator.advance]
        rw [UInt64.ofNat_add, ← behind, UInt64.add_assoc, UInt64.add_assoc]
        congr 1
        exact UInt64.add_comm _ _

theorem ofNat_eq_zero_iff (count : ℕ) : UInt64.ofNat count = 0 ↔ 2 ^ 64 ∣ count := by
  rw [← UInt64.toNat_inj, UInt64.toNat_ofNat', UInt64.toNat_zero, Nat.dvd_iff_mod_eq_zero]

/-- The numbers of a writer have no gap and its frames come in order for the validator exactly
if no frame is written after a refusal or a cancellation, up to rounds of the counters. -/
theorem sequenceLaw_iff (toVec : WireFrame Value → List UInt8) (workerId : String)
    (commands : List (Command Value)) :
    SequenceLaw toVec workerId commands ↔ InStep toVec workerId commands := by
  induction commands using List.reverseRecOn with
  | nil =>
    constructor
    · intro _ front command back split
      simp at split
    · intro _
      refine ⟨rfl, fun front frame back split => ?_⟩
      simp [written] at split
  | append_singleton front command ih =>
    rw [sequenceLaw_concat, inStep_concat, ih]
    refine and_congr_right fun inStep => imp_congr_right fun _ => ?_
    have law := ih.mpr inStep
    have behind := expected_add_cancellations law
    have length := congrArg UInt64.ofNat (length_written toVec workerId front)
    rw [UInt64.ofNat_add] at length
    have refused_iff : UInt64.ofNat front.length =
          UInt64.ofNat (written toVec (.new workerId) front).length ↔
        2 ^ 64 ∣ refusals toVec workerId front := by
      rw [← ofNat_eq_zero_iff, ← length, UInt64.add_eq_left]
    rw [refused_iff]
    refine and_congr_right fun refused => ?_
    rw [refused_iff.mpr refused, ← behind, ← ofNat_eq_zero_iff, eq_comm, UInt64.add_eq_left]

end

/-! ## A refused frame -/

def commandName : HostCommand → String
  | .hello => "hello"
  | .loadModel => "load-model"
  | .startGeneration => "start-generation"
  | .cancelGeneration => "cancel-generation"
  | .unloadModel => "unload-model"
  | .ping => "ping"
  | .shutdown => "shutdown"
  | .memoryPressure => "memory-pressure"

def quote (text : String) : List Char := '"' :: text.toList ++ ['"']

/-- The JSON text of a command's frame up to its payload, where no string needs an escape. -/
def frameHead (frame : WireFrame (List Char)) : List Char :=
  "\x7b\"version\":\x7b\"major\":1,\"minor\":0\x7d,\"worker_instance_id\":".toList ++
  quote frame.workerInstanceId ++ ",\"sequence_number\":".toList ++
  Nat.toDigits 10 frame.sequenceNumber.toNat ++ ",\"request_id\":".toList ++
  (match frame.requestId with
    | some requestId => quote requestId
    | none => "null".toList) ++ ",\"message_kind\":".toList ++
  (match frame.messageKind with
    | .hostCommand cmd => quote (commandName cmd)
    | .workerEvent _ => []) ++ ",\"payload\":".toList

/-- The payload is given by its text. -/
def frameBytes (frame : WireFrame (List Char)) : List UInt8 :=
  (frameHead frame ++ frame.payload ++ ['\x7d']).map fun c => UInt8.ofNat c.toNat

def startWith (letters : ℕ) : Command (List Char) :=
  ⟨.startGeneration, some "gen-1", '"' :: List.replicate letters 'a' ++ ['"']⟩

def ping : Command (List Char) := ⟨.ping, none, "null".toList⟩

theorem length_payload_le (frame : WireFrame (List Char)) :
    frame.payload.length ≤ (frameBytes frame).length := by
  rw [frameBytes, List.length_map, List.length_append, List.length_append]
  omega

theorem refuses_startWith {letters : ℕ} (long : maxFrameSizeBytes ≤ letters) (workerId : String)
    (position : ℕ) : refuses frameBytes workerId (startWith letters, position) = true := by
  have payload := length_payload_le (wireFrame (writerAt workerId position) (startWith letters))
  have length : (wireFrame (writerAt workerId position) (startWith letters)).payload.length =
      letters + 2 := by simp [wireFrame, startWith]
  rw [length] at payload
  rw [refuses, decide_eq_true_eq]
  dsimp only
  omega

/-- The ping behind the command that was refused goes out with the number `1`. -/
theorem refused_frame_leaves_gap :
    ¬ SequenceLaw frameBytes "worker" [startWith 1048576, ping] := by
  intro law
  have first : refuses frameBytes "worker" (startWith 1048576, 0) = true :=
    refuses_startWith (by decide) "worker" 0
  have second : refuses frameBytes "worker" (ping, 1) = false := by decide +kernel
  have sent : written frameBytes (.new "worker") [startWith 1048576, ping] =
      [wireFrame (writerAt "worker" 1) ping] := by
    rw [written_new, List.zipIdx_cons, List.zipIdx_cons, List.flatMap_cons, List.flatMap_cons,
      first, second]
    rfl
  have numbered := law.numbered
  rw [sent] at numbered
  exact absurd (List.singleton_inj.mp numbered) (by decide)

end TribunusCompute.Supervisor
