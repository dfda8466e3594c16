import Mathlib.Algebra.GroupWithZero.Nat
import Mathlib.Data.List.Range
import TribunusCompute.Supervisor.Runtime
import TribunusCompute.WorkerProtocol.Worker

/-!
# The token frames of a generation

`inference_thread` from the admission of a `StartGeneration` to its last event, with the
payloads. The first token comes out of the prefill, before the loop that counts the
others and looks for the end of the text.
-/
namespace TribunusCompute

def Supervisor.EngineErrorCode.code : Supervisor.EngineErrorCode → String
  | .invalidRequest => "invalid-request"
  | .policyRejected => "policy-rejected"
  | .modelNotLoaded => "model-not-loaded"
  | .modelBusy => "model-busy"
  | .modelIntegrityFailed => "model-integrity-failed"
  | .modelAdmissionRejected => "model-admission-rejected"
  | .workerLaunchFailed => "worker-launch-failed"
  | .workerHandshakeFailed => "worker-handshake-failed"
  | .workerProtocolViolation => "worker-protocol-violation"
  | .workerCrashed => "worker-crashed"
  | .workerUnresponsive => "worker-unresponsive"
  | .workerRestartLimitExceeded => "worker-restart-limit-exceeded"
  | .deadlineExceeded => "deadline-exceeded"
  | .memoryLimitExceeded => "memory-limit-exceeded"
  | .cancelled => "cancelled"
  | .consumerDisconnected => "consumer-disconnected"
  | .inferenceFailed => "inference-failed"
  | .numericalFailure => "numerical-failure"
  | .internalInvariantViolation => "internal-invariant-violation"

namespace WorkerProtocol

open Supervisor (EngineError)

/-- The log-probability is always absent. -/
structure TokenPayload where
  requestId : String
  tokenId : UInt32
  position : UInt32
  deriving DecidableEq, Repr

/-- Without the times, which the clock gives. -/
structure GenerationCompletedPayload where
  requestId : String
  tokenCount : UInt32
  deriving DecidableEq, Repr

structure GenerationFailedPayload where
  requestId : String
  errorCode : String
  message : String
  phase : String
  deriving DecidableEq, Repr

inductive GenerationEvent
  | generationStarted (requestId : String)
  | prefillStarted (requestId : String)
  | prefillCompleted (requestId : String)
  | token (payload : TokenPayload)
  | generationCompleted (payload : GenerationCompletedPayload)
  | generationCancelled (requestId : String)
  | generationFailed (payload : GenerationFailedPayload)
  deriving DecidableEq, Repr

/-- The places at which the cancellation flag is loaded. -/
inductive Check
  | admission
  | started
  | prefilled
  | decodeHead (pos : UInt32)
  | decoded (pos : UInt32)

/-- What a generation meets with: the model, and the flag at each check. -/
structure Course where
  loaded : Bool
  cancelled : Check → Bool
  prefill : Except EngineError UInt32
  /-- `decode_one` of the current token, in the turn of the loop at a position. -/
  decodeOne : UInt32 → UInt32 → Except EngineError UInt32

/-! ## The decode loop -/

/-- What the loop changes. -/
structure Decoding where
  events : List GenerationEvent
  tokenCount : UInt32
  currentToken : UInt32
  generationOk : Bool

namespace Decoding

def emit (s : Decoding) (event : GenerationEvent) : Decoding :=
  { s with events := s.events ++ [event] }

def stop (s : Decoding) (event : GenerationEvent) : Decoding :=
  { s.emit event with generationOk := false }

end Decoding

namespace Course

def decodeLoop (course : Course) (requestId : String) : List UInt32 → Decoding → Decoding
  | [], s => s
  | pos :: more, s =>
    if course.cancelled (.decodeHead pos) then s.stop (.generationCancelled requestId)
    else
      match course.decodeOne pos s.currentToken with
      | .ok nextToken =>
        -- the token counts before the flag is looked at, and is emitted after it
        let s := { s with currentToken := nextToken, tokenCount := s.tokenCount + 1 }
        if course.cancelled (.decoded pos) then s.stop (.generationCancelled requestId)
        else
          let s := s.emit (.token ⟨requestId, nextToken, pos⟩)
          -- an end of the text leaves the loop with the generation still in order
          if nextToken = defaultEosToken then s else course.decodeLoop requestId more s
      | .error e => s.stop (.generationFailed ⟨requestId, e.code.code, e.message, "decode"⟩)

/-- `1..max_output_tokens` -/
def positions (maxOutputTokens : UInt32) : List UInt32 :=
  (List.range' 1 (maxOutputTokens.toNat - 1)).map UInt32.ofNat

/-- The events of one `StartGeneration`, in the order in which they are written. -/
def startGeneration (course : Course) (gen : Generation) : List GenerationEvent :=
  let id := gen.requestId
  -- without a model there is not even an answer; the session that is then checked is never kept
  if !course.loaded then []
  else if course.cancelled .admission then [.generationCancelled id]
  else if course.cancelled .started then [.generationStarted id, .generationCancelled id]
  else
    match course.prefill with
    | .error e =>
      [.generationStarted id, .prefillStarted id,
        .generationFailed ⟨id, e.code.code, e.message, "prefill"⟩]
    | .ok firstToken =>
      if course.cancelled .prefilled then
        -- the token of the prefill is lost
        [.generationStarted id, .prefillStarted id, .generationCancelled id]
      else
        let s := course.decodeLoop id (positions gen.maxOutputTokens)
          { events := [.generationStarted id, .prefillStarted id, .prefillCompleted id,
              .token ⟨id, firstToken, 0⟩]
            tokenCount := 1
            currentToken := firstToken
            generationOk := true }
        if s.generationOk then s.events ++ [.generationCompleted ⟨id, s.tokenCount⟩] else s.events

end Course

/-! ## The law -/

def GenerationEvent.token? : GenerationEvent → Option TokenPayload
  | .token payload => some payload
  | _ => none

def tokens (events : List GenerationEvent) : List TokenPayload := events.filterMap (·.token?)

/-- The token frames are numbered without a gap, are no more than asked for, none follows the
end of the text, and a generation that completes counts them. -/
structure TokenLaw (maxOutputTokens : UInt32) (events : List GenerationEvent) : Prop where
  positions : (tokens events).map (·.position.toNat) = List.range (tokens events).length
  bounded : (tokens events).length ≤ maxOutputTokens.toNat
  stops : ∀ payload ∈ (tokens events).dropLast, payload.tokenId ≠ defaultEosToken
  counted : ∀ payload, .generationCompleted payload ∈ events →
    payload.tokenCount.toNat = (tokens events).length

/-! ## What the loop emits -/

@[simp]
theorem tokens_append (events more : List GenerationEvent) :
    tokens (events ++ more) = tokens events ++ tokens more :=
  List.filterMap_append

namespace Course

/-- The prefill gives this token, and nothing stops it from being emitted. -/
structure Prefills (course : Course) (firstToken : UInt32) : Prop where
  loaded : course.loaded = true
  admitted : course.cancelled .admission = false
  started : course.cancelled .started = false
  ok : course.prefill = .ok firstToken
  emitted : course.cancelled .prefilled = false

/-- A turn of the loop gives a token that is emitted. -/
def Decodes (course : Course) (pos currentToken : UInt32) : Prop :=
  course.cancelled (.decodeHead pos) = false ∧
    (∃ nextToken, course.decodeOne pos currentToken = .ok nextToken) ∧
    course.cancelled (.decoded pos) = false

/-- Behind these events a loop has emitted the tokens, from the position `n` on and at no more
than `count` turns. -/
structure Emits (n count : ℕ) (events : List GenerationEvent) (t : Decoding)
    (payloads : List TokenPayload) : Prop where
  tokens : tokens t.events = WorkerProtocol.tokens events ++ payloads
  positions : payloads.map (·.position.toNat) = List.range' n payloads.length
  bounded : payloads.length ≤ count
  stops : ∀ payload ∈ payloads.dropLast, payload.tokenId ≠ defaultEosToken
  counted : t.generationOk = true → t.tokenCount.toNat = n + payloads.length
  unfinished : ∀ payload, .generationCompleted payload ∈ t.events →
    .generationCompleted payload ∈ events

section
variable {course : Course} {id : String} {n count : ℕ} {s t : Decoding}

theorem emits_stop {event : GenerationEvent} (noToken : event.token? = none)
    (unfinished : ∀ payload, event ≠ .generationCompleted payload) :
    Emits n count s.events (s.stop event) [] where
  tokens := by simp [Decoding.stop, Decoding.emit, WorkerProtocol.tokens, noToken]
  positions := rfl
  bounded := Nat.zero_le _
  stops := by simp
  counted := by simp [Decoding.stop]
  unfinished := by
    intro payload member
    rcases List.mem_append.mp member with old | new
    · exact old
    · exact absurd (List.mem_singleton.mp new).symm (unfinished payload)

theorem Emits.cons {events : List GenerationEvent} {payload : TokenPayload}
    {payloads : List TokenPayload} (here : payload.position.toNat = n)
    (goesOn : payloads ≠ [] → payload.tokenId ≠ defaultEosToken)
    (rest : Emits (n + 1) count (events ++ [.token payload]) t payloads) :
    Emits n (count + 1) events t (payload :: payloads) where
  tokens := by
    rw [rest.tokens, tokens_append, List.append_assoc]
    rfl
  positions := by
    rw [List.map_cons, List.length_cons, List.range'_succ, rest.positions, here]
  bounded := Nat.succ_le_succ rest.bounded
  stops := by
    cases payloads with
    | nil => simp
    | cons next more =>
      -- with more tokens to come this one is not the last either
      intro earlier member
      rcases List.mem_cons.mp member with rfl | later
      · exact goesOn (List.cons_ne_nil _ _)
      · exact rest.stops earlier later
  counted := by
    intro ok
    rw [rest.counted ok, List.length_cons]
    omega
  unfinished := by
    intro finished member
    rcases List.mem_append.mp (rest.unfinished finished member) with old | new
    · exact old
    · cases List.mem_singleton.mp new

/-- The loop emits in the order of its positions, and anything at all when its first turn does. -/
theorem decodeLoop_emits (fits : n + count < 2 ^ 32) (counted : s.tokenCount.toNat = n) :
    ∃ payloads,
      Emits n count s.events
        (course.decodeLoop id ((List.range' n count).map UInt32.ofNat) s) payloads ∧
        (payloads ≠ [] ↔ count ≠ 0 ∧ course.Decodes (UInt32.ofNat n) s.currentToken) := by
  -- by induction on the turns that are left, from any position and state
  induction count generalizing n s with
  | zero =>
    have none_ : tokens s.events = tokens s.events ++ [] := (List.append_nil _).symm
    exact ⟨[], ⟨none_, rfl, le_rfl, by simp, fun _ => counted, fun _ member => member⟩, by simp⟩
  | succ count ih =>
    have position : (UInt32.ofNat n).toNat = n :=
      UInt32.toNat_ofNat_of_lt' ((Nat.le_add_right n (count + 1)).trans_lt fits)
    rw [List.range'_succ, List.map_cons, decodeLoop]
    generalize UInt32.ofNat n = pos at position
    split
    next stopped =>
      -- cancelled before the step
      exact ⟨[], emits_stop rfl (by simp), by simp [Decodes, stopped]⟩
    next running =>
    cases result : course.decodeOne pos s.currentToken with
    | error e => exact ⟨[], emits_stop rfl (by simp), by simp [Decodes, result]⟩
    | ok nextToken =>
      dsimp only
      split
      next stopped =>
        -- cancelled with the token at hand, which is then not emitted
        refine ⟨[], ?_, by simp [Decodes, stopped]⟩
        exact @emits_stop _ _ { s with currentToken := nextToken, tokenCount := s.tokenCount + 1 }
          _ rfl (by simp)
      next kept =>
      have decodes : course.Decodes pos s.currentToken :=
        ⟨by simpa using running, ⟨nextToken, result⟩, by simpa using kept⟩
      have counted' : (s.tokenCount + 1).toNat = n + 1 := by
        rw [UInt32.toNat_add, counted]
        exact Nat.mod_eq_of_lt (by simp; omega)
      -- in either case the token of this turn stands in front of what follows
      have emitted {t : Decoding} {payloads : List TokenPayload}
          (goesOn : payloads ≠ [] → nextToken ≠ defaultEosToken)
          (rest : Emits (n + 1) count (s.events ++ [.token ⟨id, nextToken, pos⟩]) t payloads) :
          ∃ all, Emits n (count + 1) s.events t all ∧
            (all ≠ [] ↔ count + 1 ≠ 0 ∧ course.Decodes pos s.currentToken) :=
        ⟨_, rest.cons position goesOn, by simp [decodes]⟩
      -- the end of the text ends the loop behind its own token
      split
      next last =>
        have none_ (events : List GenerationEvent) : tokens events = tokens events ++ [] :=
          (List.append_nil _).symm
        refine emitted (by simp) ⟨none_ _, rfl, Nat.zero_le _, by simp, ?_, fun _ member => member⟩
        exact fun _ => counted'
      next goesOn =>
        obtain ⟨payloads, rest, -⟩ := @ih (n + 1)
          (Decoding.emit { s with currentToken := nextToken, tokenCount := s.tokenCount + 1 }
            (.token ⟨id, nextToken, pos⟩)) (by omega) counted'
        exact emitted (fun _ => goesOn) rest

/-! ## The generation -/

/-- Behind the first token comes the loop, and the end of a loop that nothing stops. -/
def afterPrefill (course : Course) (gen : Generation) (firstToken : UInt32) : Decoding :=
  course.decodeLoop gen.requestId (positions gen.maxOutputTokens)
    { events := [.generationStarted gen.requestId, .prefillStarted gen.requestId,
        .prefillCompleted gen.requestId, .token ⟨gen.requestId, firstToken, 0⟩]
      tokenCount := 1
      currentToken := firstToken
      generationOk := true }

variable {gen : Generation} {firstToken : UInt32}

theorem startGeneration_prefills (prefills : course.Prefills firstToken) :
    course.startGeneration gen =
      if (course.afterPrefill gen firstToken).generationOk then
        (course.afterPrefill gen firstToken).events ++
          [.generationCompleted ⟨gen.requestId, (course.afterPrefill gen firstToken).tokenCount⟩]
      else (course.afterPrefill gen firstToken).events := by
  unfold startGeneration
  simp only [prefills.loaded, prefills.admitted, prefills.started, prefills.ok, prefills.emitted,
    Bool.not_true, Bool.false_eq_true, if_false]
  rfl

/-- A generation whose first token is not emitted emits no other and does not complete. -/
theorem startGeneration_unemitted (unemitted : ∀ firstToken, ¬ course.Prefills firstToken) :
    tokens (course.startGeneration gen) = [] ∧
      ∀ payload, .generationCompleted payload ∉ course.startGeneration gen := by
  unfold startGeneration
  dsimp only
  -- each way out before the first token sends no token and no completion
  split
  next => exact ⟨rfl, by simp⟩
  next loaded =>
  split
  next => exact ⟨rfl, by simp⟩
  next admitted =>
  split
  next => exact ⟨rfl, by simp⟩
  next started =>
  split
  next => exact ⟨rfl, by simp⟩
  next firstToken ok =>
  split
  next => exact ⟨rfl, by simp⟩
  next emitted =>
    exact absurd ⟨by simpa using loaded, by simpa using admitted, by simpa using started, ok,
      by simpa using emitted⟩ (unemitted firstToken)

/-- What follows the first token: `Emits` from position one on, whether the generation completes
or is stopped. -/
theorem startGeneration_emitted (prefills : course.Prefills firstToken) :
    ∃ t payloads, Emits 1 (gen.maxOutputTokens.toNat - 1)
        [.generationStarted gen.requestId, .prefillStarted gen.requestId,
          .prefillCompleted gen.requestId, .token ⟨gen.requestId, firstToken, 0⟩] t payloads ∧
      (payloads ≠ [] ↔ 1 < gen.maxOutputTokens.toNat ∧ course.Decodes 1 firstToken) ∧
      tokens (course.startGeneration gen) = ⟨gen.requestId, firstToken, 0⟩ :: payloads ∧
      ∀ payload, .generationCompleted payload ∈ course.startGeneration gen →
        payload.tokenCount.toNat = payloads.length + 1 := by
  have fits : 1 + (gen.maxOutputTokens.toNat - 1) < 2 ^ 32 := by
    have := gen.maxOutputTokens.toNat_lt
    omega
  obtain ⟨payloads, emits, some_⟩ := @decodeLoop_emits course gen.requestId 1
    (gen.maxOutputTokens.toNat - 1)
    { events := [.generationStarted gen.requestId, .prefillStarted gen.requestId,
        .prefillCompleted gen.requestId, .token ⟨gen.requestId, firstToken, 0⟩]
      tokenCount := 1
      currentToken := firstToken
      generationOk := true } fits rfl
  change Emits _ _ _ (course.afterPrefill gen firstToken) _ at emits
  refine ⟨_, payloads, emits, some_.trans (and_congr_left' (by omega)), ?_, ?_⟩
  · have frames := emits.tokens
    rw [startGeneration_prefills prefills]
    split
    next =>
      rw [tokens_append, frames]
      exact List.append_nil _
    next =>
      rw [frames]
      rfl
  · -- the loop itself completes nothing
    intro payload member
    rw [startGeneration_prefills prefills] at member
    split at member
    next ok =>
      rcases List.mem_append.mp member with old | new
      · have none_ := emits.unfinished payload old
        simp at none_
      · cases List.mem_singleton.mp new
        rw [emits.counted ok, Nat.add_comm]
    next =>
      have none_ := emits.unfinished payload member
      simp at none_

theorem tokenLaw_of_prefills (prefills : course.Prefills firstToken) :
    TokenLaw gen.maxOutputTokens (course.startGeneration gen) ↔
      gen.maxOutputTokens ≠ 0 ∧ (firstToken = defaultEosToken →
        ¬ (1 < gen.maxOutputTokens.toNat ∧ course.Decodes 1 firstToken)) := by
  obtain ⟨t, payloads, emits, some_, frames, counted⟩ :=
    @startGeneration_emitted course gen _ prefills
  have asked : gen.maxOutputTokens ≠ 0 ↔ gen.maxOutputTokens.toNat ≠ 0 := by
    rw [ne_eq, ← UInt32.toNat_inj]
    rfl
  have bounded := emits.bounded
  rw [asked]
  constructor
  · intro law
    have within := law.bounded
    have stops := law.stops
    rw [frames, List.length_cons] at within
    rw [frames] at stops
    refine ⟨by omega, fun last second => ?_⟩
    -- the first token is then not the last, and the law says that it does not end the text
    cases payloads with
    | nil => exact absurd rfl (some_.mpr second)
    | cons next more => exact stops _ List.mem_cons_self last
  · rintro ⟨positive, goesOn⟩
    refine ⟨?_, ?_, ?_, ?_⟩
    · rw [frames, List.map_cons, List.length_cons, emits.positions, List.range_eq_range',
        List.range'_succ]
      rfl
    · rw [frames, List.length_cons]
      omega
    · rw [frames]
      cases payloads with
      | nil => simp
      | cons next more =>
        -- The loop looks at the tokens it decodes, so only the first needs the condition.
        have second := some_.mp (List.cons_ne_nil _ _)
        intro payload member
        rcases List.mem_cons.mp member with rfl | later
        · exact fun last => goesOn last second
        · exact emits.stops payload later
    · intro payload member
      rw [frames, List.length_cons]
      exact counted payload member

theorem tokenLaw_of_unemitted (unemitted : ∀ firstToken, ¬ course.Prefills firstToken) :
    TokenLaw gen.maxOutputTokens (course.startGeneration gen) := by
  obtain ⟨none_, uncompleted⟩ := @startGeneration_unemitted course gen unemitted
  refine ⟨?_, ?_, ?_, fun payload member => absurd member (uncompleted payload)⟩
  · rw [none_]
    rfl
  · rw [none_]
    exact Nat.zero_le _
  · rw [none_]
    simp

/-- The token frames of a generation keep the law when its first token, where it is emitted, was
asked for, and no second one is emitted behind an end of the text. -/
theorem tokenLaw_iff (course : Course) (gen : Generation) :
    TokenLaw gen.maxOutputTokens (course.startGeneration gen) ↔
      ∀ firstToken, course.Prefills firstToken → gen.maxOutputTokens ≠ 0 ∧
        (firstToken = defaultEosToken →
          ¬ (1 < gen.maxOutputTokens.toNat ∧ course.Decodes 1 firstToken)) := by
  by_cases emitted : ∃ firstToken, course.Prefills firstToken
  · obtain ⟨firstToken, prefills⟩ := emitted
    -- the prefill gives one token
    have only (other : UInt32) (prefills' : course.Prefills other) : other = firstToken :=
      Except.ok.inj (prefills'.ok.symm.trans prefills.ok)
    rw [tokenLaw_of_prefills prefills]
    constructor
    · intro condition other prefills'
      obtain rfl := only other prefills'
      exact condition
    · intro condition
      exact condition firstToken prefills
  · have unemitted (firstToken : UInt32) : ¬ course.Prefills firstToken :=
      fun prefills => emitted ⟨firstToken, prefills⟩
    exact iff_of_true (tokenLaw_of_unemitted unemitted) fun firstToken prefills =>
      absurd prefills (unemitted firstToken)

end

/-- A model that gives these tokens one after the other, and nothing that stops it. -/
def undisturbed (firstToken : UInt32) (nextToken : UInt32 → UInt32) : Course where
  loaded := true
  cancelled _ := false
  prefill := .ok firstToken
  decodeOne pos _ := .ok (nextToken pos)

/-- No token is asked for and one is emitted; and the end of the text as the first token is
followed by another. -/
theorem first_token_unchecked :
    ¬ TokenLaw 0 ((undisturbed 7 fun _ => 7).startGeneration ⟨"r", 0⟩) ∧
      ¬ TokenLaw 2 ((undisturbed defaultEosToken fun _ => 7).startGeneration ⟨"r", 2⟩) := by
  refine ⟨fun law => ?_, fun law => ?_⟩
  · exact absurd law.bounded (by decide)
  · exact absurd rfl (law.stops ⟨"r", defaultEosToken, 0⟩ (by decide))

end Course

end WorkerProtocol

end TribunusCompute
