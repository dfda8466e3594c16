import Mathlib.Data.List.SplitLengths
import TribunusCompute.Library.LittleEndian
import TribunusCompute.Supervisor.Sequence

/-!
# Reading the worker's events

`WorkerEventReader` over the worker's standard output. `read_next_event` waits for a
frame and takes its bytes from the pipe as they come; `try_read_next_event` looks at what
the buffer holds and leaves it there until it holds a whole frame.
-/
namespace TribunusCompute.Supervisor

open WorkerProtocol

/-- `{:?}` of a validation error. -/
def debug : FrameValidationError → String
  | .frameTooLarge => "FrameTooLarge"
  | .unknownVersion => "UnknownVersion"
  | .sequenceRegression => "SequenceRegression"
  | .duplicateRequestStart => "DuplicateRequestStart"
  | .unknownRequest => "UnknownRequest"
  | .terminalAfterClose => "TerminalAfterClose"
  | .invalidMessageKind => "InvalidMessageKind"

/-! ## The pipe -/

/-- What successive reads of at most `capacity` bytes return of a chunk that the pipe delivers. -/
def readsOf (capacity : ℕ) (chunk : List UInt8) : List (List UInt8) :=
  ((List.replicate chunk.length capacity).splitLengths chunk).filter (· ≠ [])

/-- `BufReader`: what is buffered and not consumed, and what the reads to come return. When they
are over, the pipe is closed. -/
structure BufReader where
  buffer : List UInt8
  reads : List (List UInt8)

namespace BufReader

/-- A buffer of this capacity on a pipe that delivers these chunks. -/
def new (capacity : ℕ) (chunks : List (List UInt8)) : BufReader :=
  ⟨[], chunks.flatMap (readsOf capacity)⟩

/-- A read into the buffer when it is empty, and never another one. -/
def fillBuf : BufReader → BufReader
  | ⟨[], read :: more⟩ => ⟨read, more⟩
  | r => r

def consume (r : BufReader) (n : ℕ) : BufReader := { r with buffer := r.buffer.drop n }

/-- Bytes from the buffer, and from read after read; `none` is the end of the pipe. A real reader
passes a long read by the buffer, which brings the same bytes. -/
def readExactFrom (n : ℕ) (buffer : List UInt8) :
    List (List UInt8) → Option (List UInt8 × BufReader)
  | [] => if n ≤ buffer.length then some (buffer.take n, ⟨buffer.drop n, []⟩) else none
  | read :: more =>
    if n ≤ buffer.length then some (buffer.take n, ⟨buffer.drop n, read :: more⟩)
    else
      (readExactFrom (n - buffer.length) read more).map fun (bytes, r) => (buffer ++ bytes, r)

def readExact (r : BufReader) (n : ℕ) : Option (List UInt8 × BufReader) :=
  readExactFrom n r.buffer r.reads

def rest (r : BufReader) : List UInt8 := r.buffer ++ r.reads.flatten

end BufReader

/-! ## Frames -/

/-- A frame in the pipe: four bytes of length, and its text. -/
def encodeFrame (body : List UInt8) : List UInt8 := LittleEndian.encode 4 body.length ++ body

def encodeFrames (bodies : List (List UInt8)) : List UInt8 := (bodies.map encodeFrame).flatten

structure WorkerEventReader where
  reader : BufReader
  validator : ProtocolValidator

namespace WorkerEventReader

def new (capacity : ℕ) (chunks : List (List UInt8)) (workerId : String) : WorkerEventReader :=
  ⟨.new capacity chunks, .new workerId⟩

section
variable {Value : Type*} (parse : List UInt8 → Except String (WireFrame Value))

/-- `serde_json::from_slice` is `parse`. The first read of an empty buffer waits. -/
def tryReadNextEvent (r : WorkerEventReader) :
    Except EngineError (Option (WireFrame Value)) × WorkerEventReader :=
  let filled := r.reader.fillBuf
  let r := { r with reader := filled }
  -- what is there of a frame is looked at and not consumed
  if filled.buffer.length < 4 then (.ok none, r)
  else
    let total := 4 + LittleEndian.decode (filled.buffer.take 4)
    if filled.buffer.length < total then (.ok none, r)
    else
      match parse ((filled.buffer.take total).drop 4) with
      -- a frame that is refused stays in the buffer, and is refused again by the next call
      | .error e => (.error ⟨.workerProtocolViolation, "failed to deserialize frame: " ++ e⟩, r)
      | .ok frame =>
        match r.validator.validateWorkerEvent frame.toFrame with
        | .error e =>
          (.error ⟨.workerProtocolViolation, "frame validation failed: " ++ debug e⟩, r)
        | .ok validator => (.ok (some frame), ⟨filled.consume total, validator⟩)

def readNextEvent (r : WorkerEventReader) :
    Except EngineError (WireFrame Value × WorkerEventReader) :=
  match r.reader.readExact 4 with
  | none => .error ⟨.workerCrashed, "worker stdout closed"⟩
  | some (lenBuf, reader) =>
    let frameLen := LittleEndian.decode lenBuf
    -- only here a length is checked against the maximum
    if maxFrameSizeBytes < frameLen then
      .error ⟨.workerProtocolViolation, "frame length " ++ toString frameLen ++ " exceeds max " ++
        toString maxFrameSizeBytes⟩
    else
      match reader.readExact frameLen with
      | none => .error ⟨.workerCrashed, "failed to read frame body: failed to fill whole buffer"⟩
      | some (buf, reader) =>
        match parse buf with
        | .error e => .error ⟨.workerProtocolViolation, "failed to deserialize frame: " ++ e⟩
        | .ok frame =>
          match r.validator.validateWorkerEvent frame.toFrame with
          | .error e =>
            .error ⟨.workerProtocolViolation, "frame validation failed: " ++ debug e⟩
          | .ok validator => .ok (frame, ⟨reader, validator⟩)

def afterPolls : ℕ → WorkerEventReader → WorkerEventReader
  | 0, r => r
  | n + 1, r => afterPolls n (r.tryReadNextEvent parse).2

def polled : ℕ → WorkerEventReader → List (WireFrame Value)
  | 0, _ => []
  | n + 1, r =>
    match r.tryReadNextEvent parse with
    | (.ok (some frame), r) => frame :: polled n r
    | (_, r) => polled n r

/-- The frames that so many calls of `read_next_event` give, up to the first error. -/
def awaited : ℕ → WorkerEventReader → List (WireFrame Value)
  | 0, _ => []
  | n + 1, r =>
    match r.readNextEvent parse with
    | .ok (frame, r) => frame :: awaited n r
    | .error _ => []

end

end WorkerEventReader

/-! ## Bytes -/

theorem flatten_filter_ne_nil (pieces : List (List UInt8)) :
    (pieces.filter (· ≠ [])).flatten = pieces.flatten := by
  induction pieces with
  | nil => rfl
  | cons piece pieces ih =>
    cases piece with
    | nil => simpa using ih
    | cons byte piece => simpa using ih

/-- Nothing is lost between the pipe and the buffer. -/
theorem flatten_readsOf {capacity : ℕ} (positive : 0 < capacity) (chunk : List UInt8) :
    (readsOf capacity chunk).flatten = chunk := by
  -- as many pieces as there are bytes are enough
  have enough : chunk.length ≤ (List.replicate chunk.length capacity).sum := by
    rw [List.sum_replicate_nat]
    exact Nat.le_mul_of_pos_right _ positive
  rw [readsOf, flatten_filter_ne_nil, List.flatten_splitLengths _ _ enough]

theorem ne_nil_of_mem_readsOf {capacity : ℕ} {chunk read : List UInt8}
    (member : read ∈ readsOf capacity chunk) : read ≠ [] := by
  simpa using (List.mem_filter.mp member).2

theorem readsOf_short {capacity : ℕ} {chunk : List UInt8} (some_ : chunk ≠ [])
    (short : chunk.length ≤ capacity) : readsOf capacity chunk = [chunk] := by
  have nothing (n : ℕ) :
      ((List.replicate n capacity).splitLengths ([] : List UInt8)).filter (· ≠ []) = [] := by
    induction n with
    | zero => rfl
    | succ n ih => simpa [List.replicate_succ] using ih
  obtain ⟨byte, more, rfl⟩ := List.exists_cons_of_ne_nil some_
  rw [readsOf, List.length_cons, List.replicate_succ, List.splitLengths_cons,
    List.take_of_length_le short, List.drop_of_length_le short, List.filter_cons_of_pos (by simp),
    nothing]

theorem rest_new {capacity : ℕ} (positive : 0 < capacity) (chunks : List (List UInt8)) :
    (BufReader.new capacity chunks).rest = chunks.flatten := by
  rw [BufReader.rest, BufReader.new, List.nil_append]
  induction chunks with
  | nil => rfl
  | cons chunk chunks ih =>
    rw [List.flatMap_cons, List.flatten_append, flatten_readsOf positive, ih, List.flatten_cons]

/-- An exact read takes the next bytes, wherever the reads end. -/
theorem readExact_append {r : BufReader} {bytes more : List UInt8} (rest : r.rest = bytes ++ more) :
    ∃ r', r.readExact bytes.length = some (bytes, r') ∧ r'.rest = more := by
  obtain ⟨buffer, reads⟩ := r
  simp only [BufReader.rest] at rest
  simp only [BufReader.readExact]
  -- along the reads to come, each of which becomes the buffer in its turn
  induction reads generalizing buffer bytes with
  | nil =>
    rw [List.flatten_nil, List.append_nil] at rest
    subst rest
    refine ⟨⟨more, []⟩, ?_, by simp [BufReader.rest]⟩
    rw [BufReader.readExactFrom, if_pos (by simp), List.take_left, List.drop_left]
  | cons read reads ih =>
    rw [BufReader.readExactFrom]
    split
    next within =>
      obtain ⟨front, rfl, rfl⟩ : ∃ front, buffer = bytes ++ front ∧
          more = front ++ (read :: reads).flatten := by
        rcases List.append_eq_append_iff.mp rest with ⟨mid, rfl, same⟩ | ⟨mid, rfl, same⟩
        · have nil : mid = [] := by
            rw [List.length_append] at within
            exact List.length_eq_zero_iff.mp (by omega)
          subst nil
          exact ⟨[], by simp, by simpa using same.symm⟩
        · exact ⟨mid, rfl, same⟩
      refine ⟨⟨front, read :: reads⟩, ?_, rfl⟩
      rw [List.take_left, List.drop_left]
    next beyond =>
      -- the whole buffer, and the rest of the bytes from the reads behind it
      obtain ⟨tail, rfl, same⟩ : ∃ tail, bytes = buffer ++ tail ∧
          read ++ reads.flatten = tail ++ more := by
        rcases List.append_eq_append_iff.mp rest with ⟨mid, rfl, same⟩ | ⟨mid, rfl, same⟩
        · exact ⟨mid, rfl, same⟩
        · rw [List.length_append] at beyond
          omega
      obtain ⟨r', taken, left⟩ := ih read same
      refine ⟨r', ?_, left⟩
      rw [List.length_append, Nat.add_sub_cancel_left, taken]
      rfl

theorem readExact_end {r : BufReader} {n : ℕ} (short : r.rest.length < n) :
    r.readExact n = none := by
  obtain ⟨buffer, reads⟩ := r
  simp only [BufReader.rest, List.length_append] at short
  simp only [BufReader.readExact]
  -- the reads together are too short, whatever the buffer held before them
  induction reads generalizing buffer n with
  | nil =>
    rw [BufReader.readExactFrom, if_neg]
    simp only [List.flatten_nil, List.length_nil] at short
    omega
  | cons read reads ih =>
    rw [List.flatten_cons, List.length_append] at short
    rw [BufReader.readExactFrom, if_neg (by omega), ih read (by omega)]
    rfl

end TribunusCompute.Supervisor
