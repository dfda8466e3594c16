import TribunusCompute.Supervisor.EventReader

/-!
# Polling for events

Whether `try_read_next_event`, called again and again, gives the frames that
`read_next_event` gives. The buffer is filled when it is empty only, so that a part of a
frame that a read leaves at its end is never added to.
-/
namespace TribunusCompute.Supervisor

open WorkerProtocol

variable {Value : Type*} {parse : List UInt8 → Except String (WireFrame Value)}

/-- The bodies are the texts of these frames, each short enough and accepted behind the others. -/
inductive Acceptable (parse : List UInt8 → Except String (WireFrame Value)) :
    ProtocolValidator → List (List UInt8) → List (WireFrame Value) → Prop
  | nil {v : ProtocolValidator} : Acceptable parse v [] []
  | cons {v v' : ProtocolValidator} {body : List UInt8} {bodies : List (List UInt8)}
      {frame : WireFrame Value} {frames : List (WireFrame Value)}
      (short : body.length ≤ maxFrameSizeBytes) (parsed : parse body = .ok frame)
      (valid : v.validateWorkerEvent frame.toFrame = .ok v')
      (rest : Acceptable parse v' bodies frames) :
      Acceptable parse v (body :: bodies) (frame :: frames)

/-- In the end both ways of reading have given the same frames, and a call that gives none leaves
no whole frame in the buffer. -/
structure PollLaw (parse : List UInt8 → Except String (WireFrame Value)) (r : WorkerEventReader) :
    Prop where
  same : ∃ n, ∀ m, n ≤ m → r.polled parse m = r.awaited parse m
  waits : ∀ n r', (r.afterPolls parse n).tryReadNextEvent parse = (.ok none, r') →
    ∀ body more, body.length ≤ maxFrameSizeBytes → r'.reader.buffer ≠ encodeFrame body ++ more

def WholeFrames (bytes : List UInt8) (bodies : List (List UInt8)) : Prop :=
  ∃ whole more, bodies = whole ++ more ∧ bytes = encodeFrames whole

def ReadsEndFrames (reads bodies : List (List UInt8)) : Prop :=
  ∀ front back, reads = front ++ back → WholeFrames front.flatten bodies

/-! ## One frame -/

theorem length_encodeFrame (body : List UInt8) : (encodeFrame body).length = 4 + body.length := by
  rw [encodeFrame, List.length_append, LittleEndian.length_encode]

@[simp]
theorem encodeFrames_cons (body : List UInt8) (bodies : List (List UInt8)) :
    encodeFrames (body :: bodies) = encodeFrame body ++ encodeFrames bodies := rfl

theorem decode_length {body : List UInt8} (short : body.length ≤ maxFrameSizeBytes) :
    LittleEndian.decode (LittleEndian.encode 4 body.length) = body.length :=
  LittleEndian.decode_encode 4 _ (short.trans_lt (by decide))

theorem take_encodeFrame (body more : List UInt8) :
    (encodeFrame body ++ more).take 4 = LittleEndian.encode 4 body.length := by
  rw [encodeFrame, List.append_assoc]
  exact List.take_left' (LittleEndian.length_encode 4 _)

namespace WorkerEventReader

variable {r r' : WorkerEventReader} {body more : List UInt8}

theorem tryReadNextEvent_whole (short : body.length ≤ maxFrameSizeBytes)
    (whole : r.reader.fillBuf.buffer = encodeFrame body ++ more) :
    r.tryReadNextEvent parse =
      match parse body with
      | .error e => (.error ⟨.workerProtocolViolation, "failed to deserialize frame: " ++ e⟩,
          { r with reader := r.reader.fillBuf })
      | .ok frame =>
        match r.validator.validateWorkerEvent frame.toFrame with
        | .error e => (.error ⟨.workerProtocolViolation, "frame validation failed: " ++ debug e⟩,
            { r with reader := r.reader.fillBuf })
        | .ok validator => (.ok (some frame), ⟨⟨more, r.reader.fillBuf.reads⟩, validator⟩) := by
  have size : (encodeFrame body ++ more).length = 4 + body.length + more.length := by
    rw [List.length_append, length_encodeFrame]
  have cut : ((encodeFrame body ++ more).take (4 + body.length)).drop 4 = body := by
    rw [List.take_left' (length_encodeFrame body), encodeFrame]
    exact List.drop_left' (LittleEndian.length_encode 4 _)
  have left : (encodeFrame body ++ more).drop (4 + body.length) = more :=
    List.drop_left' (length_encodeFrame body)
  unfold tryReadNextEvent
  simp only [whole, take_encodeFrame, decode_length short, size, cut, BufReader.consume, left]
  refine (if_neg ?_).trans ((if_neg ?_).trans rfl)
  · omega
  · omega

theorem tryReadNextEvent_part {back : List UInt8} (short : body.length ≤ maxFrameSizeBytes)
    (stream : r.reader.fillBuf.buffer ++ back = encodeFrame body ++ more)
    (part : r.reader.fillBuf.buffer.length < (encodeFrame body).length) :
    r.tryReadNextEvent parse = (.ok none, { r with reader := r.reader.fillBuf }) := by
  unfold tryReadNextEvent
  dsimp only
  split
  next => rfl
  next long =>
    have sized : r.reader.fillBuf.buffer.take 4 = LittleEndian.encode 4 body.length := by
      rw [← take_encodeFrame body more, ← stream,
        List.take_append_of_le_length (Nat.le_of_not_lt long)]
    rw [length_encodeFrame] at part
    rw [sized, decode_length short, if_pos part]

theorem tryReadNextEvent_none (none_ : r.tryReadNextEvent parse = (.ok none, r')) :
    r'.reader = r.reader.fillBuf := by
  unfold tryReadNextEvent at none_
  dsimp only at none_
  -- the length is not there
  split at none_
  next =>
    cases none_
    rfl
  -- the body is not there
  split at none_
  next =>
    cases none_
    rfl
  -- with the body the call gives a frame or an error
  split at none_
  next => cases none_
  split at none_
  next => cases none_
  next => cases none_

theorem readNextEvent_whole {frame : WireFrame Value} {validator : ProtocolValidator}
    (short : body.length ≤ maxFrameSizeBytes) (parsed : parse body = .ok frame)
    (valid : r.validator.validateWorkerEvent frame.toFrame = .ok validator)
    (stream : r.reader.rest = encodeFrame body ++ more) :
    ∃ reader, r.readNextEvent parse = .ok (frame, ⟨reader, validator⟩) ∧ reader.rest = more := by
  -- four bytes of length are read, then as many bytes as they say
  rw [encodeFrame, List.append_assoc] at stream
  obtain ⟨behind, taken, left⟩ := readExact_append stream
  obtain ⟨behind', taken', left'⟩ := readExact_append left
  rw [LittleEndian.length_encode] at taken
  refine ⟨behind', ?_, left'⟩
  unfold readNextEvent
  simp only [taken, decode_length short, if_neg (Nat.not_lt.mpr short), taken', parsed, valid]

theorem readNextEvent_end (ended : r.reader.rest = []) :
    r.readNextEvent parse = .error ⟨.workerCrashed, "worker stdout closed"⟩ := by
  have closed : r.reader.readExact 4 = none := readExact_end (by rw [ended]; decide)
  unfold readNextEvent
  simp only [closed]

/-- Waiting for the frames gives all of them, however they are delivered. -/
theorem awaited_eq {bodies : List (List UInt8)} {frames : List (WireFrame Value)}
    (acceptable : Acceptable parse r.validator bodies frames)
    (stream : r.reader.rest = encodeFrames bodies) (n : ℕ) :
    r.awaited parse n = frames.take n := by
  -- by induction on the calls; each takes the first of the frames that are left
  induction n generalizing r bodies frames with
  | zero => rfl
  | succ n ih =>
    rw [awaited]
    generalize known : r.validator = v at acceptable
    cases acceptable with
    | nil =>
      rw [readNextEvent_end stream]
      rfl
    | cons short parsed valid rest =>
      subst known
      obtain ⟨reader, read, left⟩ := readNextEvent_whole short parsed valid stream
      rw [read, List.take_succ_cons]
      exact congrArg _ (@ih ⟨reader, _⟩ _ _ rest left)

end WorkerEventReader

/-! ## The ends of the reads -/

/-- The buffer ends where a frame ends, and so does every read to come. -/
def BufReader.Aligned (r : BufReader) (bodies : List (List UInt8)) : Prop :=
  ∀ front back, r.reads = front ++ back → WholeFrames (r.buffer ++ front.flatten) bodies

namespace BufReader

variable {r : BufReader} {bodies : List (List UInt8)}

theorem rest_fillBuf (r : BufReader) : r.fillBuf.rest = r.rest := by
  obtain ⟨buffer, reads⟩ := r
  cases buffer with
  | nil =>
    cases reads with
    | nil => rfl
    | cons read more => rfl
  | cons byte buffer => rfl

theorem mem_reads_fillBuf {read : List UInt8} (member : read ∈ r.fillBuf.reads) :
    read ∈ r.reads := by
  obtain ⟨buffer, reads⟩ := r
  cases buffer with
  | nil =>
    cases reads with
    | nil => exact member
    | cons first more => exact List.mem_cons_of_mem _ member
  | cons byte buffer => exact member

theorem buffer_fillBuf_ne_nil (full : ∀ read ∈ r.reads, read ≠ []) (some_ : r.rest ≠ []) :
    r.fillBuf.buffer ≠ [] := by
  obtain ⟨buffer, reads⟩ := r
  cases buffer with
  | nil =>
    cases reads with
    | nil => exact absurd rfl some_
    | cons read more => exact full read List.mem_cons_self
  | cons byte buffer => exact List.cons_ne_nil _ _

theorem eq_of_rest (full : ∀ read ∈ r.reads, read ≠ []) (ended : r.rest = []) : r = ⟨[], []⟩ := by
  obtain ⟨buffer, reads⟩ := r
  obtain ⟨rfl, none_⟩ := List.append_eq_nil_iff.mp ended
  cases reads with
  | nil => rfl
  | cons read more =>
    exact absurd (List.append_eq_nil_iff.mp none_).1 (full read List.mem_cons_self)

theorem aligned_end (full : ∀ read ∈ r.reads, read ≠ []) (ended : r.rest = []) : r.Aligned [] := by
  rw [eq_of_rest full ended]
  intro front back split_
  rw [(List.append_eq_nil_iff.mp split_.symm).1]
  exact ⟨[], [], rfl, rfl⟩

theorem rest_ne_nil {body : List UInt8} (stream : r.rest = encodeFrames (body :: bodies)) :
    r.rest ≠ [] := by
  intro none_
  -- a frame has at least its four bytes of length
  have length := congrArg List.length (none_.symm.trans stream)
  rw [encodeFrames_cons, List.length_append, length_encodeFrame] at length
  change 0 = _ at length
  omega

theorem Aligned.of_fillBuf (aligned : r.fillBuf.Aligned bodies) : r.Aligned bodies := by
  obtain ⟨buffer, reads⟩ := r
  cases buffer with
  | nil =>
    cases reads with
    | nil => exact aligned
    | cons read more =>
      intro front back split_
      cases front with
      -- before the first read the buffer is empty, which is no frame at all
      | nil => exact ⟨[], bodies, rfl, rfl⟩
      | cons first front =>
        cases split_
        exact aligned front back rfl
  | cons byte buffer => exact aligned

theorem Aligned.fillBuf (aligned : r.Aligned bodies) : r.fillBuf.Aligned bodies := by
  obtain ⟨buffer, reads⟩ := r
  cases buffer with
  | nil =>
    cases reads with
    | nil => exact aligned
    | cons read more =>
      intro front back split_
      exact aligned (read :: front) back (congrArg (read :: ·) split_)
  | cons byte buffer => exact aligned

theorem aligned_cons {buffer body : List UInt8} {reads : List (List UInt8)} :
    Aligned ⟨encodeFrame body ++ buffer, reads⟩ (body :: bodies) ↔
      Aligned ⟨buffer, reads⟩ bodies := by
  have whole (bytes : List UInt8) :
      WholeFrames (encodeFrame body ++ bytes) (body :: bodies) ↔ WholeFrames bytes bodies := by
    constructor
    · rintro ⟨whole, more, split_, same⟩
      cases whole with
      | nil =>
        have length := congrArg List.length same
        rw [List.length_append, length_encodeFrame] at length
        change _ = 0 at length
        omega
      | cons first whole =>
        cases split_
        exact ⟨whole, more, rfl, List.append_cancel_left same⟩
    · rintro ⟨whole, more, rfl, rfl⟩
      exact ⟨body :: whole, more, rfl, rfl⟩
  simp only [Aligned, List.append_assoc, whole]

end BufReader

/-! ## Calls one after the other -/

namespace WorkerEventReader

variable {r : WorkerEventReader} {bodies : List (List UInt8)} {frames : List (WireFrame Value)}

theorem polled_end (full : ∀ read ∈ r.reader.reads, read ≠ []) (ended : r.reader.rest = [])
    (n : ℕ) : r.polled parse n = [] := by
  obtain ⟨reader, v⟩ := r
  obtain rfl : reader = ⟨[], []⟩ := BufReader.eq_of_rest full ended
  induction n with
  | zero => rfl
  | succ n ih => exact ih

/-- Where the reads end with the frames, every call takes the next frame. -/
theorem polled_of_aligned (acceptable : Acceptable parse r.validator bodies frames)
    (stream : r.reader.rest = encodeFrames bodies)
    (full : ∀ read ∈ r.reader.reads, read ≠ []) (aligned : r.reader.Aligned bodies) (n : ℕ) :
    r.polled parse n = frames.take n := by
  induction n generalizing r bodies frames with
  | zero => rfl
  | succ n ih =>
    generalize known : r.validator = v at acceptable
    cases acceptable with
    | nil =>
      rw [polled_end full stream]
      rfl
    | @cons _ validator body bodies frame frames short parsed valid rest =>
      subst known
      -- the buffer holds whole frames, and so at least the first
      obtain ⟨whole, more, split_, held⟩ := aligned.fillBuf [] r.reader.fillBuf.reads rfl
      rw [List.flatten_nil, List.append_nil] at held
      cases whole with
      | nil =>
        exact absurd held (BufReader.buffer_fillBuf_ne_nil full (BufReader.rest_ne_nil stream))
      | cons first whole =>
        cases split_
        -- the call takes it, and what is left is aligned with the frames that are left
        have filled := r.reader.rest_fillBuf.trans stream
        have aligned' := aligned.fillBuf
        have full' : ∀ read ∈ r.reader.fillBuf.reads, read ≠ [] :=
          fun read member => full read (BufReader.mem_reads_fillBuf member)
        rw [polled, tryReadNextEvent_whole short held, parsed]
        generalize r.reader.fillBuf = reader at filled held aligned' full'
        obtain ⟨buffer, reads⟩ := reader
        subst held
        rw [BufReader.rest, encodeFrames_cons, List.append_assoc] at filled
        simp only [valid, List.take_succ_cons]
        exact congrArg _ (@ih ⟨⟨encodeFrames whole, reads⟩, validator⟩ _ _ rest
          (List.append_cancel_left filled) full' (BufReader.aligned_cons.mp aligned'))

/-- Calls that give all the frames have found every read at the end of a frame: whatever part of
a frame stands in the buffer stays there. -/
theorem aligned_of_polled {n : ℕ} (acceptable : Acceptable parse r.validator bodies frames)
    (stream : r.reader.rest = encodeFrames bodies)
    (full : ∀ read ∈ r.reader.reads, read ≠ []) (all : r.polled parse n = frames) :
    r.reader.Aligned bodies := by
  induction n generalizing r bodies frames with
  | zero =>
    cases all
    cases acceptable
    exact BufReader.aligned_end full stream
  | succ n ih =>
    generalize known : r.validator = v at acceptable
    cases acceptable with
    | nil => exact BufReader.aligned_end full stream
    | @cons _ validator body bodies frame frames short parsed valid rest =>
      subst known
      have filled := r.reader.rest_fillBuf.trans stream
      have full' : ∀ read ∈ r.reader.fillBuf.reads, read ≠ [] :=
        fun read member => full read (BufReader.mem_reads_fillBuf member)
      -- filling an empty buffer moves the first read into it, which changes no end
      refine BufReader.Aligned.of_fillBuf ?_
      rw [polled] at all
      by_cases part : r.reader.fillBuf.buffer.length < (encodeFrame body).length
      · -- the call gives nothing and leaves the buffer as it is
        rw [tryReadNextEvent_part short filled part] at all
        exact @ih { r with reader := r.reader.fillBuf } _ _ (.cons short parsed valid rest) filled
          full' all
      · -- the buffer holds the frame, which the call takes
        -- it is at least as long as the frame, and both begin the same bytes
        obtain ⟨tail, held, left⟩ : ∃ tail, r.reader.fillBuf.buffer = encodeFrame body ++ tail ∧
            encodeFrames bodies = tail ++ r.reader.fillBuf.reads.flatten := by
          rcases List.append_eq_append_iff.mp filled with ⟨mid, same, left⟩ | ⟨mid, same, left⟩
          · have nil : mid = [] := by
              rw [same, List.length_append] at part
              exact List.length_eq_zero_iff.mp (by omega)
            subst nil
            exact ⟨[], by simpa using same.symm, left.symm⟩
          · exact ⟨mid, same, left⟩
        rw [tryReadNextEvent_whole short held, parsed] at all
        simp only [valid] at all
        have aligned := @ih ⟨⟨tail, r.reader.fillBuf.reads⟩, validator⟩ _ _ rest left.symm full'
          (List.cons.inj all).2
        have whole : BufReader.Aligned ⟨encodeFrame body ++ tail, r.reader.fillBuf.reads⟩
            (body :: bodies) := BufReader.aligned_cons.mpr aligned
        rw [← held] at whole
        exact whole

theorem buffer_of_none {r' : WorkerEventReader}
    (none_ : r.tryReadNextEvent parse = (.ok none, r')) {body more : List UInt8}
    (short : body.length ≤ maxFrameSizeBytes) : r'.reader.buffer ≠ encodeFrame body ++ more := by
  intro whole
  -- with a whole frame there the same call would have given it, or an error
  rw [tryReadNextEvent_none none_] at whole
  rw [tryReadNextEvent_whole short whole] at none_
  split at none_
  next => cases none_
  next =>
    split at none_
    next => cases none_
    next => cases none_

section
variable {capacity : ℕ} {workerId : String} {chunks : List (List UInt8)}

theorem reads_new_ne_nil : ∀ read ∈ (BufReader.new capacity chunks).reads, read ≠ [] := by
  intro read member
  obtain ⟨chunk, -, cut⟩ := List.mem_flatMap.mp member
  exact ne_nil_of_mem_readsOf cut

/-- Polling that gives all the frames has found the reads at the ends of frames. -/
theorem readsEndFrames_of_pollLaw (positive : 0 < capacity)
    (acceptable : Acceptable parse (.new workerId) bodies frames)
    (stream : chunks.flatten = encodeFrames bodies)
    (law : PollLaw parse (.new capacity chunks workerId)) :
    ReadsEndFrames (chunks.flatMap (readsOf capacity)) bodies := by
  have delivered : (BufReader.new capacity chunks).rest = encodeFrames bodies :=
    (rest_new positive chunks).trans stream
  -- after enough calls waiting has given every frame, and so has polling
  obtain ⟨n, same⟩ := law.same
  have all := (same _ (le_max_left n frames.length)).trans
    (@awaited_eq _ _ (.new capacity chunks workerId) _ _ acceptable delivered _)
  rw [List.take_of_length_le (le_max_right n frames.length)] at all
  exact @aligned_of_polled _ _ (.new capacity chunks workerId) _ _ _ acceptable delivered
    reads_new_ne_nil all

/-- Polling gives the frames that waiting for them gives when every read of the pipe, of what is
delivered at once and fits into the buffer, ends where a frame ends. -/
theorem pollLaw_iff (parse : List UInt8 → Except String (WireFrame Value))
    (positive : 0 < capacity) (acceptable : Acceptable parse (.new workerId) bodies frames)
    (stream : chunks.flatten = encodeFrames bodies) :
    PollLaw parse (.new capacity chunks workerId) ↔
      ReadsEndFrames (chunks.flatMap (readsOf capacity)) bodies := by
  have delivered : (BufReader.new capacity chunks).rest = encodeFrames bodies :=
    (rest_new positive chunks).trans stream
  refine ⟨readsEndFrames_of_pollLaw positive acceptable stream, fun ends => ?_⟩
  refine ⟨⟨0, fun m _ => ?_⟩, fun _ _ none_ _ _ short => buffer_of_none none_ short⟩
  rw [@awaited_eq _ _ (.new capacity chunks workerId) _ _ acceptable delivered,
    @polled_of_aligned _ _ (.new capacity chunks workerId) _ _ acceptable delivered
      reads_new_ne_nil ends]

end

end WorkerEventReader

/-! ## Heartbeats -/

def heartbeatText (sequenceNumber : UInt64) : List UInt8 :=
  ("\x7b\"version\":\x7b\"major\":1,\"minor\":0\x7d,\"worker_instance_id\":\"w\"," ++
    "\"sequence_number\":" ++ toString sequenceNumber.toNat ++ ",\"request_id\":null," ++
    "\"message_kind\":\"heartbeat\",\"payload\":null\x7d").toList.map
      fun ch => UInt8.ofNat ch.toNat

/-- The frame that the text stands for; the unit is the payload `null`. -/
def heartbeat (sequenceNumber : UInt64) : WireFrame Unit where
  version := v1_0
  workerInstanceId := "w"
  sequenceNumber
  requestId := none
  messageKind := .workerEvent .heartbeat
  payload := ()

def parseHeartbeat (body : List UInt8) : Except String (WireFrame Unit) :=
  if body = heartbeatText 0 then .ok (heartbeat 0)
  else if body = heartbeatText 1 then .ok (heartbeat 1)
  else .error "expected a heartbeat"

theorem length_heartbeatText : ∀ n ∈ [0, 1], (heartbeatText n).length ≤ 8188 :=
  List.forall_mem_cons.mpr ⟨by decide +kernel, List.forall_mem_singleton.mpr (by decide +kernel)⟩

theorem acceptable_heartbeats :
    Acceptable parseHeartbeat (.new "w") [heartbeatText 0, heartbeatText 1]
      [heartbeat 0, heartbeat 1] := by
  have differ : heartbeatText 1 ≠ heartbeatText 0 := by decide +kernel
  have second : parseHeartbeat (heartbeatText 1) = .ok (heartbeat 1) :=
    (if_neg differ).trans (if_pos rfl)
  exact .cons ((length_heartbeatText 0 (by decide)).trans (by decide)) (if_pos rfl) rfl
    (.cons ((length_heartbeatText 1 (by decide)).trans (by decide)) second rfl .nil)

/-- Reads of one frame each end where the frames end. -/
theorem readsEndFrames_map (bodies : List (List UInt8)) :
    ReadsEndFrames (bodies.map encodeFrame) bodies := by
  intro front back split_
  obtain ⟨whole, more, rfl, rfl, rfl⟩ := List.map_eq_append_iff.mp split_
  exact ⟨whole, more, rfl, rfl⟩

/-- Two heartbeats, each delivered with a read of its own, are polled. -/
theorem pollLaw_heartbeats :
    PollLaw parseHeartbeat
      (.new 8192 [encodeFrame (heartbeatText 0), encodeFrame (heartbeatText 1)] "w") := by
  have single (n : UInt64) (known : n ∈ [0, 1]) :
      readsOf 8192 (encodeFrame (heartbeatText n)) = [encodeFrame (heartbeatText n)] := by
    have length := length_encodeFrame (heartbeatText n)
    have short := length_heartbeatText n known
    exact readsOf_short (List.ne_nil_of_length_pos (by omega)) (by omega)
  refine (WorkerEventReader.pollLaw_iff parseHeartbeat (by decide) acceptable_heartbeats rfl).mpr ?_
  rw [List.map_cons, List.map_singleton, List.flatMap_cons, List.flatMap_singleton,
    single 0 (by decide), single 1 (by decide)]
  exact readsEndFrames_map [heartbeatText 0, heartbeatText 1]

/-- A heartbeat whose length comes in two reads is waited for with success and never polled. -/
theorem heartbeat_in_two_reads :
    ¬ PollLaw parseHeartbeat (.new 8192
      [(encodeFrame (heartbeatText 0)).take 3, (encodeFrame (heartbeatText 0)).drop 3] "w") := by
  intro law
  have acceptable : Acceptable parseHeartbeat (.new "w") [heartbeatText 0] [heartbeat 0] :=
    .cons ((length_heartbeatText 0 (by decide)).trans (by decide)) (if_pos rfl) rfl .nil
  have ends := WorkerEventReader.readsEndFrames_of_pollLaw (by decide) acceptable
    (by simp [encodeFrames]) law
  have size := length_encodeFrame (heartbeatText 0)
  rw [List.flatMap_cons, readsOf_short (List.ne_nil_of_length_pos (by simp; omega))
    (by simp)] at ends
  -- three bytes are none of the frames and not the first of them
  obtain ⟨whole, more, split_, same⟩ := ends [(encodeFrame (heartbeatText 0)).take 3] _ rfl
  have length := congrArg List.length same
  rw [List.flatten_singleton, List.length_take_of_le (by omega)] at length
  cases whole with
  | nil => cases length
  | cons body whole =>
    rw [encodeFrames_cons, List.length_append, length_encodeFrame] at length
    omega

end TribunusCompute.Supervisor
