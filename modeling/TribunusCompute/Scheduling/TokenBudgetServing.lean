import TribunusCompute.Library.Failures
import TribunusCompute.Scheduling.TokenBudget
import TribunusCompute.Supervisor.Runtime

/-!
# Serving requests over the token budget

`run_with_token_budget` of `engine.rs`: a prefill is queued, and cycles of the scheduler are
dispatched until a cycle ends with the end-of-sequence token, the tokens asked for are there, or
the queue is dry. A prefill dispatched queues a decode, and a decode the next one. What the
executor, the memory check and the clock answer is read off streams.
-/
namespace TribunusCompute.Scheduling

open Supervisor (EngineError)

/-- What `run_with_token_budget` reads of the payload. -/
structure StartGenerationPayload where
  promptTokenIds : List UInt32
  maxOutputTokens : UInt32
  requestId : String
  stopTokenIds : List UInt32
  deriving DecidableEq, Repr

namespace StartGenerationPayload

def eosTokenId (request : StartGenerationPayload) : UInt32 := request.stopTokenIds.headD 0

def maxTokens (request : StartGenerationPayload) : ℕ := request.maxOutputTokens.toNat

def prefill (request : StartGenerationPayload) (now : ℕ) : TokenWorkUnit :=
  .newPrefill request.requestId (UInt32.ofNat request.promptTokenIds.length) now

end StartGenerationPayload

/-- What is outside the engine. The memory check and the clock are asked after so many
dispatches. -/
structure Host where
  checkMemoryPressure : ℕ → Except String Unit
  now : ℕ → ℕ

/-- The executor answers each dispatch with its receipts, of which only the number is used. -/
structure InferenceEngine where
  tokenBudgetScheduler : Option TokenBudgetScheduler
  hybridExecutor : Option (ℕ → Except String ℕ)
  dispatched : ℕ

/-- The loop's own state. -/
structure Serving where
  scheduler : TokenBudgetScheduler
  generated : List UInt32
  dispatched : ℕ

section

variable (host : Host) (request : StartGenerationPayload)

/-- The decode that is queued behind a dispatch, at the budget of a cycle as its priority. -/
def Serving.enqueueDecode (s : Serving) : Serving :=
  { s with
    scheduler := s.scheduler.enqueueDecode request.requestId s.scheduler.config.maxNumBatchedTokens
      (host.now s.dispatched) }

/-- What follows a dispatch that succeeds. -/
def Serving.receive (s : Serving) (unit : TokenWorkUnit) (receipts : ℕ) : Serving :=
  let s := { s with dispatched := s.dispatched + 1 }
  match unit.phase with
  | .prefill => s.enqueueDecode host request
  | .decode =>
    let tokenId := UInt32.ofNat receipts
    let s := { s with generated := s.generated ++ [tokenId] }
    if tokenId = request.eosTokenId ∨ request.maxTokens ≤ s.generated.length then s
    else s.enqueueDecode host request
  | .specDraft | .specVerify => s

/-- A unit of whichever request is dispatched for the request that is served. An error leaves
what was queued before. -/
def dispatchUnit (execute : ℕ → Except String ℕ) (s : Serving) (unit : TokenWorkUnit) :
    Except (EngineError × Serving) Serving :=
  match execute s.dispatched with
  | .error e =>
    .error (⟨.inferenceFailed, "token-budget dispatch: " ++ e⟩,
      { s with dispatched := s.dispatched + 1 })
  | .ok receipts => .ok (s.receive host request unit receipts)

inductive Turn
  | stops (result : Except (EngineError × Serving) Serving)
  | goesOn (s : Serving)

def Serving.cycle (s : Serving) : List TokenWorkUnit × Serving :=
  (s.scheduler.resetBudget.schedule.1, { s with scheduler := s.scheduler.resetBudget.schedule.2 })

def serveTurn (hybridExecutor : Option (ℕ → Except String ℕ)) (s : Serving) : Turn :=
  if request.maxTokens ≤ s.generated.length then .stops (.ok s)
  else
    match hybridExecutor with
    | none =>
      .stops (.error (⟨.internalInvariantViolation,
        "hybrid_executor not initialised — call init_host_inference first"⟩, s))
    | some execute =>
      if s.cycle.1 = [] then .stops (.ok s.cycle.2)
      else
        match s.cycle.1.foldlM (dispatchUnit host request execute) s.cycle.2 with
        | .error e => .stops (.error e)
        | .ok s =>
          match host.checkMemoryPressure s.dispatched with
          | .error e => .stops (.error (⟨.inferenceFailed, "memory pressure: " ++ e⟩, s))
          | .ok () =>
            -- only the last token of the cycle is compared
            if s.generated.getLast? = some request.eosTokenId then .stops (.ok s)
            else .goesOn s

/-- The loop, cut off after so many turns. -/
def serveLoop (hybridExecutor : Option (ℕ → Except String ℕ)) :
    ℕ → Serving → Option (Except (EngineError × Serving) Serving)
  | 0, _ => none
  | fuel + 1, s =>
    match serveTurn host request hybridExecutor s with
    | .stops result => some result
    | .goesOn s => serveLoop hybridExecutor fuel s

/-- The request is completed where the loop ends, not where it fails. -/
def runWithTokenBudget (fuel : ℕ) (engine : InferenceEngine) :
    Option (Except EngineError (List UInt32) × InferenceEngine) :=
  match engine.tokenBudgetScheduler with
  | none =>
    some (.error ⟨.internalInvariantViolation,
      "token_budget_scheduler not initialised — call init_host_inference first"⟩, engine)
  | some scheduler =>
    let start : Serving :=
      { scheduler := scheduler.enqueue (request.prefill (host.now engine.dispatched))
        generated := []
        dispatched := engine.dispatched }
    (serveLoop host request engine.hybridExecutor fuel start).map fun
    | .error (e, s) =>
      (.error e,
        { engine with tokenBudgetScheduler := some s.scheduler, dispatched := s.dispatched })
    | .ok s =>
      (.ok s.generated,
        { engine with
          tokenBudgetScheduler := some (s.scheduler.complete request.requestId)
          dispatched := s.dispatched })

end

/-- A prompt of two budgets is asked for two tokens and gets four: decodes queue behind each part
of it, and one is split without a token left. -/
example :
    let host : Host := ⟨fun _ => .ok (), fun _ => 0⟩
    let engine : InferenceEngine := ⟨some (.new ⟨4, 8, 64⟩), some fun _ => .ok 7, 0⟩
    ((runWithTokenBudget host ⟨[1, 2, 3, 4, 5, 6, 7, 8], 2, "a", [9]⟩ 10 engine).map
      fun out => (out.1.toOption, out.2.dispatched)) = some (some [7, 7, 7, 7], 6) := by
  decide

/-! ## One dispatch -/

open TokenBudgetScheduler

/-- What the dispatch of some units adds: a token for each decode, and decodes behind the queue. -/
structure Advances (units : List TokenWorkUnit) (s t : Serving) : Prop where
  generated : ∃ new, t.generated = s.generated ++ new ∧
    new.length = units.countP (·.phase = .decode)
  queue : ∃ decodes, (∀ unit ∈ decodes, unit.phase = .decode) ∧
    t.scheduler = { s.scheduler with runQueue := s.scheduler.runQueue ++ decodes }

variable {host : Host} {request : StartGenerationPayload} {execute : ℕ → Except String ℕ}
  {s t u : Serving} {units units' : List TokenWorkUnit} {unit : TokenWorkUnit}

theorem Advances.refl (s : Serving) : Advances [] s s :=
  ⟨⟨[], by simp⟩, ⟨[], by simp⟩⟩

theorem Advances.append (first : Advances units s t) (second : Advances units' t u) :
    Advances (units ++ units') s u := by
  obtain ⟨new, generated, count⟩ := first.generated
  obtain ⟨new', generated', count'⟩ := second.generated
  obtain ⟨decodes, only, queue⟩ := first.queue
  obtain ⟨decodes', only', queue'⟩ := second.queue
  refine ⟨⟨new ++ new', by rw [generated', generated, List.append_assoc], ?_⟩,
    ⟨decodes ++ decodes', ?_, by rw [queue', queue, List.append_assoc]⟩⟩
  · rw [List.length_append, List.countP_append, count, count']
  · intro unit member
    exact (List.mem_append.mp member).elim (only unit) (only' unit)

theorem advances_receive (s : Serving) (unit : TokenWorkUnit) (receipts : ℕ) :
    Advances [unit] s (s.receive host request unit receipts) := by
  unfold Serving.receive
  cases phase : unit.phase with
  | prefill =>
    exact ⟨⟨[], by simp [Serving.enqueueDecode, phase]⟩, ⟨_, List.forall_mem_singleton.mpr rfl, rfl⟩⟩
  | decode =>
    simp only
    -- the token is there either way, and a decode is queued unless the generation is over
    split
    · exact ⟨⟨_, rfl, by simp [phase]⟩, ⟨[], by simp⟩⟩
    · exact ⟨⟨_, rfl, by simp [phase]⟩, ⟨_, List.forall_mem_singleton.mpr rfl, rfl⟩⟩
  | specDraft | specVerify => exact ⟨⟨[], by simp [phase]⟩, ⟨[], by simp⟩⟩

@[simp] theorem dispatched_receive (s : Serving) (unit : TokenWorkUnit) (receipts : ℕ) :
    (s.receive host request unit receipts).dispatched = s.dispatched + 1 := by
  unfold Serving.receive
  cases unit.phase with
  | decode =>
    simp only
    split <;> rfl
  | prefill | specDraft | specVerify => rfl

theorem exists_receive (done : dispatchUnit host request execute s unit = .ok t) :
    ∃ receipts, t = s.receive host request unit receipts := by
  unfold dispatchUnit at done
  split at done
  next => cases done
  next receipts _ => exact ⟨receipts, (Except.ok.inj done).symm⟩

theorem advances_foldlM (done : units.foldlM (dispatchUnit host request execute) s = .ok t) :
    Advances units s t := by
  induction units generalizing s with
  | nil =>
    cases done
    exact .refl _
  | cons unit units ih =>
    rw [List.foldlM_cons] at done
    obtain ⟨middle, first, rest⟩ := Failures.bind_ok done
    obtain ⟨receipts, rfl⟩ := exists_receive first
    exact (advances_receive s unit receipts).append (ih rest)

/-- Prefills and decodes are what the engine queues. -/
def Generates (unit : TokenWorkUnit) : Prop := unit.phase = .prefill ∨ unit.phase = .decode

/-- A generation that is not over has a decode queued behind its last dispatch. -/
theorem queued_receive {receipts : ℕ} (generates : Generates unit)
    (received : t = s.receive host request unit receipts)
    (short : t.generated.length < request.maxTokens)
    (last : t.generated.getLast? ≠ some request.eosTokenId) : t.scheduler.runQueue ≠ [] := by
  subst received
  unfold Serving.receive at *
  rcases generates with phase | phase
  · simp [phase, Serving.enqueueDecode, TokenBudgetScheduler.enqueueDecode]
  · simp only [phase] at *
    split at short
    next ended =>
      rw [if_pos ended] at last
      rcases ended with eos | full
      · simp [eos] at last
      · exact absurd short (Nat.not_lt.mpr full)
    next goesOn =>
      rw [if_neg goesOn]
      simp [Serving.enqueueDecode, TokenBudgetScheduler.enqueueDecode]

theorem queued_of_foldlM (done : units.foldlM (dispatchUnit host request execute) s = .ok t)
    (some_ : units ≠ []) (generates : ∀ unit ∈ units, Generates unit)
    (short : t.generated.length < request.maxTokens)
    (last : t.generated.getLast? ≠ some request.eosTokenId) : t.scheduler.runQueue ≠ [] := by
  obtain ⟨front, unit, rfl⟩ : ∃ front unit, units = front ++ [unit] :=
    ⟨_, _, (List.dropLast_append_getLast some_).symm⟩
  rw [List.foldlM_append] at done
  obtain ⟨middle, _, final⟩ := Failures.bind_ok done
  have final : dispatchUnit host request execute middle unit = .ok t := by simpa using final
  obtain ⟨receipts, received⟩ := exists_receive final
  exact queued_receive (generates unit (by simp)) received short last

/-! ## One cycle -/

/-- What the units other than decodes weigh: their tokens, and one each. -/
def pending (units : List TokenWorkUnit) : ℕ :=
  (units.map fun unit => if unit.phase = .decode then 0 else unit.tokenSpan.toNat + 1).sum

@[simp] theorem pending_cons (unit : TokenWorkUnit) (units : List TokenWorkUnit) :
    pending (unit :: units) =
      (if unit.phase = .decode then 0 else unit.tokenSpan.toNat + 1) + pending units :=
  List.sum_cons

@[simp] theorem pending_append (front back : List TokenWorkUnit) :
    pending (front ++ back) = pending front + pending back := by
  simp [pending]

theorem pending_decodes (only : ∀ unit ∈ units, unit.phase = .decode) : pending units = 0 := by
  induction units with
  | nil => rfl
  | cons unit units ih =>
    rw [List.forall_mem_cons] at only
    simp [only.1, ih only.2]

theorem pending_pos (none_ : units.countP (·.phase = .decode) = 0) (some_ : units ≠ []) :
    0 < pending units := by
  obtain ⟨unit, units, rfl⟩ := List.exists_cons_of_ne_nil some_
  have other : ¬ unit.phase = .decode := by
    simpa using List.countP_eq_zero.mp none_ unit List.mem_cons_self
  rw [pending_cons, if_neg other]
  omega

/-- A cycle never adds to what is pending, and a cycle without a decode takes some of it away. -/
theorem pending_cycle (budget : 0 < s.scheduler.config.maxNumBatchedTokens.toNat)
    (some_ : s.cycle.1 ≠ []) :
    pending s.cycle.2.scheduler.runQueue ≤ pending s.scheduler.runQueue ∧
      (s.cycle.1.countP (·.phase = .decode) = 0 →
        pending s.cycle.2.scheduler.runQueue < pending s.scheduler.runQueue) := by
  unfold Serving.cycle at some_ ⊢
  cases s.scheduler.resetBudget.ends with
  | whole front rest left queue spent room stop =>
    rw [schedule_whole queue spent room stop] at some_ ⊢
    have queue : s.scheduler.runQueue = front ++ rest := queue
    simp only [queue, pending_append]
    refine ⟨Nat.le_add_left _ _, fun none_ => ?_⟩
    have := pending_pos none_ some_
    omega
  | split front back unit left queue spent room exceeds =>
    rw [schedule_split queue spent room exceeds] at some_ ⊢
    have queue : s.scheduler.runQueue = front ++ unit :: back := queue
    have spent : tokens front + left.toNat = s.scheduler.config.maxNumBatchedTokens.toNat := spent
    have below := UInt32.lt_iff_toNat_lt.mp exceeds
    have rest : (unit.tokenSpan - left).toNat = unit.tokenSpan.toNat - left.toNat :=
      UInt32.toNat_sub_of_le _ _ (UInt32.le_of_lt exceeds)
    simp only [queue, pending_append, pending_cons, TokenWorkUnit.chunk, rest, List.countP_append,
      List.countP_singleton, decide_eq_true_eq]
    split
    next => exact ⟨by omega, by omega⟩
    next =>
      refine ⟨by omega, fun none_ => ?_⟩
      -- the part that goes out has tokens, or the units before it have used the budget up
      rcases Nat.eq_zero_or_pos left.toNat with none' | part
      · have before : front ≠ [] := by
          rintro rfl
          simp only [tokens_nil] at spent
          omega
        have := pending_pos (by simpa using none_) before
        omega
      · omega

theorem length_cycle_le (s : Serving) :
    s.cycle.1.length ≤ s.scheduler.config.maxNumSeqs.toNat :=
  (schedule_conserves s.scheduler.resetBudget).2.2.2

/-- A queue that is not empty gives a batch that is not, where a batch has room. -/
theorem cycle_ne_nil (waits : s.scheduler.runQueue ≠ [])
    (seqs : 0 < s.scheduler.config.maxNumSeqs.toNat) : s.cycle.1 ≠ [] := by
  unfold Serving.cycle
  cases s.scheduler.resetBudget.ends with
  | whole front rest left queue spent room stop =>
    rw [schedule_whole queue spent room stop]
    rintro rfl
    rcases stop with rfl | full
    · exact waits queue
    · exact absurd seqs (Nat.not_lt.mpr full)
  | split front back unit left queue spent room exceeds =>
    rw [schedule_split queue spent room exceeds]
    exact List.append_ne_nil_of_right_ne_nil _ (List.cons_ne_nil _ _)

/-- Both parts of a split are in the phase of the unit. -/
theorem generates_cycle (generates : ∀ unit ∈ s.scheduler.runQueue, Generates unit) :
    (∀ unit ∈ s.cycle.1, Generates unit) ∧
      ∀ unit ∈ s.cycle.2.scheduler.runQueue, Generates unit := by
  unfold Serving.cycle
  cases s.scheduler.resetBudget.ends with
  | whole front rest left queue spent room stop =>
    have queue' : s.scheduler.runQueue = front ++ rest := queue
    rw [schedule_whole queue spent room stop]
    rw [queue', List.forall_mem_append] at generates
    exact generates
  | split front back unit left queue spent room exceeds =>
    have queue' : s.scheduler.runQueue = front ++ unit :: back := queue
    rw [schedule_split queue spent room exceeds]
    rw [queue', List.forall_mem_append, List.forall_mem_cons] at generates
    obtain ⟨before, here, behind⟩ := generates
    exact ⟨List.forall_mem_append.mpr ⟨before, List.forall_mem_singleton.mpr here⟩,
      List.forall_mem_cons.mpr ⟨here, behind⟩⟩

/-- The turns of the loop: it ends with enough tokens, with an error, with a queue that gives
nothing, or with the end-of-sequence token, and it goes on behind a cycle that has queued more. -/
inductive Turns (host : Host) (request : StartGenerationPayload) (s : Serving) : Turn → Prop
  | full (enough : request.maxTokens ≤ s.generated.length) : Turns host request s (.stops (.ok s))
  | fails (error : EngineError × Serving) : Turns host request s (.stops (.error error))
  | dry (short : s.generated.length < request.maxTokens) (none_ : s.cycle.1 = []) :
      Turns host request s (.stops (.ok s.cycle.2))
  | ends (t : Serving) (short : s.generated.length < request.maxTokens)
      (advances : Advances s.cycle.1 s.cycle.2 t)
      (last : t.generated.getLast? = some request.eosTokenId) : Turns host request s (.stops (.ok t))
  | goesOn (t : Serving) (short : s.generated.length < request.maxTokens) (some_ : s.cycle.1 ≠ [])
      (advances : Advances s.cycle.1 s.cycle.2 t)
      (queued : (∀ unit ∈ s.cycle.1, Generates unit) → t.generated.length < request.maxTokens →
        t.scheduler.runQueue ≠ []) : Turns host request s (.goesOn t)

/-! ## The loop -/

variable {hybridExecutor : Option (ℕ → Except String ℕ)}

theorem turns_of_serveTurn {turn : Turn} (taken : serveTurn host request hybridExecutor s = turn) :
    Turns host request s turn := by
  subst taken
  unfold serveTurn
  split
  next enough => exact .full enough
  next more =>
    have short := Nat.not_le.mp more
    cases hybridExecutor with
    | none => exact .fails _
    | some execute =>
      simp only
      split
      next none_ => exact .dry short none_
      next some_ =>
        cases done : s.cycle.1.foldlM (dispatchUnit host request execute) s.cycle.2 with
        | error e => exact .fails e
        | ok t =>
          simp only
          cases host.checkMemoryPressure t.dispatched with
          | error e => exact .fails _
          | ok _ =>
            simp only
            split
            next last => exact .ends t short (advances_foldlM done) last
            next last =>
              exact .goesOn t short some_ (advances_foldlM done)
                fun generates room => queued_of_foldlM done some_ generates room last

theorem Advances.config (advances : Advances s.cycle.1 s.cycle.2 t) :
    t.scheduler.config = s.scheduler.config := by
  obtain ⟨decodes, -, queue⟩ := advances.queue
  rw [queue]
  rfl

/-- A cycle gives at most a token for each unit of its batch. -/
theorem Advances.length_le (advances : Advances s.cycle.1 s.cycle.2 t) :
    t.generated.length ≤ s.generated.length + s.scheduler.config.maxNumSeqs.toNat := by
  obtain ⟨new, generated, count⟩ := advances.generated
  have decodes : s.cycle.1.countP (·.phase = .decode) ≤ s.cycle.1.length := List.countP_le_length
  have batch := length_cycle_le s
  have same : t.generated = s.generated ++ new := generated
  rw [same, List.length_append]
  omega

theorem measure_goesOn (budget : 0 < s.scheduler.config.maxNumBatchedTokens.toNat)
    (turn : serveTurn host request hybridExecutor s = .goesOn t) :
    request.maxTokens - t.generated.length + pending t.scheduler.runQueue <
      request.maxTokens - s.generated.length + pending s.scheduler.runQueue := by
  obtain ⟨⟩ | ⟨⟩ | ⟨⟩ | ⟨⟩ | ⟨_, short, some_, advances, -⟩ := turns_of_serveTurn turn
  obtain ⟨below, strict⟩ := pending_cycle budget some_
  obtain ⟨new, generated, count⟩ := advances.generated
  obtain ⟨decodes, only, queue⟩ := advances.queue
  have same : t.generated = s.generated ++ new := generated
  rw [same, queue, List.length_append, pending_append, pending_decodes only]
  -- a cycle with a decode gives a token, and one without a decode takes from what is pending
  rcases Nat.eq_zero_or_pos new.length with none_ | some_
  · have := strict (count.symm.trans none_)
    omega
  · omega

theorem exists_serveLoop {fuel : ℕ} (budget : 0 < s.scheduler.config.maxNumBatchedTokens.toNat)
    (enough : request.maxTokens - s.generated.length + pending s.scheduler.runQueue < fuel) :
    ∃ result, serveLoop host request hybridExecutor fuel s = some result := by
  induction fuel generalizing s with
  | zero => exact absurd enough (Nat.not_lt_zero _)
  | succ fuel ih =>
    rw [serveLoop]
    cases turn : serveTurn host request hybridExecutor s with
    | stops result => exact ⟨result, rfl⟩
    | goesOn t =>
      have less := measure_goesOn budget turn
      cases turns_of_serveTurn turn with
      | goesOn _ _ _ advances => exact ih (advances.config ▸ budget) (by omega)

theorem serveLoop_keeps {P : Serving → Prop} {fuel : ℕ}
    (keeps : ∀ s t, P s → serveTurn host request hybridExecutor s = .goesOn t → P t)
    (initial : P s) (ran : serveLoop host request hybridExecutor fuel s = some (.ok t)) :
    ∃ u, P u ∧ serveTurn host request hybridExecutor u = .stops (.ok t) := by
  induction fuel generalizing s with
  | zero => cases ran
  | succ fuel ih =>
    rw [serveLoop] at ran
    cases turn : serveTurn host request hybridExecutor s with
    | stops result =>
      simp only [turn, Option.some.injEq] at ran
      exact ⟨s, initial, ran ▸ turn⟩
    | goesOn u =>
      simp only [turn] at ran
      exact ih (keeps s u initial turn) ran

/-- In a batch of `seqs` units no more than the last cycle goes beyond the tokens asked for. -/
theorem length_serveLoop_le {fuel seqs : ℕ} (room : s.scheduler.config.maxNumSeqs.toNat = seqs)
    (initial : s.generated = [])
    (ran : serveLoop host request hybridExecutor fuel s = some (.ok t)) :
    t.generated.length ≤ request.maxTokens - 1 + seqs := by
  obtain ⟨u, ⟨room, bound⟩, stops⟩ := serveLoop_keeps
    (P := fun s => s.scheduler.config.maxNumSeqs.toNat = seqs ∧
      s.generated.length ≤ request.maxTokens - 1 + seqs)
    (fun s t kept turn => by
      cases turns_of_serveTurn turn with
      | goesOn _ short _ advances =>
        have := advances.length_le
        rw [kept.1] at this
        exact ⟨advances.config ▸ kept.1, by omega⟩)
    ⟨room, by simp [initial]⟩ ran
  cases turns_of_serveTurn stops with
  | full => exact bound
  | dry => exact bound
  | ends _ short advances =>
    have := advances.length_le
    omega

/-- While only prefills and decodes are queued the queue does not run dry before the end. -/
theorem complete_of_serveLoop {fuel : ℕ} (seqs : 0 < s.scheduler.config.maxNumSeqs.toNat)
    (generates : ∀ unit ∈ s.scheduler.runQueue, Generates unit)
    (waits : s.scheduler.runQueue ≠ [])
    (ran : serveLoop host request hybridExecutor fuel s = some (.ok t)) :
    request.maxTokens ≤ t.generated.length ∨
      t.generated.getLast? = some request.eosTokenId := by
  obtain ⟨u, ⟨seqs, generates, waits⟩, stops⟩ := serveLoop_keeps
    (P := fun s => 0 < s.scheduler.config.maxNumSeqs.toNat ∧
      (∀ unit ∈ s.scheduler.runQueue, Generates unit) ∧
      (s.generated.length < request.maxTokens → s.scheduler.runQueue ≠ []))
    (fun s t kept turn => by
      cases turns_of_serveTurn turn with
      | goesOn _ _ _ advances queued =>
        obtain ⟨batch, left⟩ := generates_cycle kept.2.1
        refine ⟨advances.config ▸ kept.1, ?_, queued batch⟩
        obtain ⟨decodes, only, queue⟩ := advances.queue
        rw [queue]
        exact List.forall_mem_append.mpr ⟨left, fun unit member => .inr (only unit member)⟩)
    ⟨seqs, generates, fun _ => waits⟩ ran
  cases turns_of_serveTurn stops with
  | full enough => exact .inl enough
  | dry short none_ => exact absurd none_ (cycle_ne_nil (waits short) seqs)
  | ends _ _ _ last => exact .inr last

/-- With a budget the loop ends, whatever waits in the queue. A generation that succeeds goes
beyond the tokens asked for by less than a batch, and is not cut short. -/
theorem runWithTokenBudget_returns (host : Host) (request : StartGenerationPayload)
    (engine : InferenceEngine) (scheduler : TokenBudgetScheduler)
    (ready : engine.tokenBudgetScheduler = some scheduler)
    (budget : 0 < scheduler.config.maxNumBatchedTokens.toNat) :
    ∃ result engine', runWithTokenBudget host request
        (request.maxTokens + pending (scheduler.runQueue ++ [request.prefill 0]) + 1) engine =
          some (result, engine') ∧
      ∀ tokens, result = .ok tokens →
        tokens.length ≤ request.maxTokens - 1 + scheduler.config.maxNumSeqs.toNat ∧
        ((∀ unit ∈ scheduler.runQueue, Generates unit) →
          0 < scheduler.config.maxNumSeqs.toNat →
          request.maxTokens ≤ tokens.length ∨
            tokens.getLast? = some request.eosTokenId) := by
  have weight (now : ℕ) : pending [request.prefill now] = pending [request.prefill 0] := rfl
  have ends : ∃ result, serveLoop host request engine.hybridExecutor
      (request.maxTokens + pending (scheduler.runQueue ++ [request.prefill 0]) + 1)
      ⟨scheduler.enqueue (request.prefill (host.now engine.dispatched)), [],
        engine.dispatched⟩ = some result := by
    refine exists_serveLoop budget ?_
    simp only [TokenBudgetScheduler.enqueue, pending_append, weight, List.length_nil]
    omega
  obtain ⟨result, ran⟩ := ends
  rw [runWithTokenBudget, ready]
  simp only [ran, Option.map_some]
  cases result with
  | error e => exact ⟨_, _, rfl, fun tokens failed => by cases failed⟩
  | ok t =>
    refine ⟨_, _, rfl, fun tokens same => ?_⟩
    cases same
    refine ⟨length_serveLoop_le rfl rfl ran, fun generates seqs => ?_⟩
    -- the prefill is the last of what waits
    have generates' : ∀ unit ∈ scheduler.runQueue ++
        [request.prefill (host.now engine.dispatched)], Generates unit :=
      List.forall_mem_append.mpr ⟨generates, List.forall_mem_singleton.mpr (.inl rfl)⟩
    exact complete_of_serveLoop seqs generates' (by simp [TokenBudgetScheduler.enqueue]) ran

/-- A long prompt behind a decode that was left waiting. -/
theorem runWithTokenBudget_returns_leftover :
    let scheduler := (TokenBudgetScheduler.new ⟨4, 8, 64⟩).enqueue (.newDecode "b" 0)
    ∃ result engine', runWithTokenBudget ⟨fun _ => .ok (), fun _ => 0⟩
        ⟨List.replicate 8 1, 2, "a", [9]⟩ 12 ⟨some scheduler, some fun _ => .ok 7, 0⟩ =
          some (result, engine') ∧
      ∀ tokens, result = .ok tokens → tokens.length ≤ 2 - 1 + 8 ∧
        ((∀ unit ∈ scheduler.runQueue, Generates unit) → 0 < 8 →
          2 ≤ tokens.length ∨ tokens.getLast? = some 9) :=
  runWithTokenBudget_returns ⟨fun _ => .ok (), fun _ => 0⟩ ⟨List.replicate 8 1, 2, "a", [9]⟩
    ⟨some ((TokenBudgetScheduler.new ⟨4, 8, 64⟩).enqueue (.newDecode "b" 0)),
      some fun _ => .ok 7, 0⟩ _ rfl (by decide)

/-! ## One request at a time -/

/-- The answer to one dispatch: the token, if the memory check after it passes. -/
def answer (host : Host) (execute : ℕ → Except String ℕ) (k : ℕ) : Except EngineError UInt32 :=
  match execute k with
  | .error e => .error ⟨.inferenceFailed, "token-budget dispatch: " ++ e⟩
  | .ok receipts =>
    match host.checkMemoryPressure (k + 1) with
    | .error e => .error ⟨.inferenceFailed, "memory pressure: " ++ e⟩
    | .ok () => .ok (UInt32.ofNat receipts)

def decodeAll (host : Host) (execute : ℕ → Except String ℕ) (eos : UInt32) :
    ℕ → ℕ → Except EngineError (List UInt32)
  | 0, _ => .ok []
  | n + 1, k =>
    match answer host execute k with
    | .error e => .error e
    | .ok token =>
      if token = eos then .ok [token]
      else (token :: ·) <$> decodeAll host execute eos n (k + 1)

/-- What a request should give: the answer to its prefill is dropped, and the tokens follow. -/
def generate (host : Host) (execute : ℕ → Except String ℕ) (request : StartGenerationPayload)
    (k : ℕ) : Except EngineError (List UInt32) :=
  match answer host execute k with
  | .error e => .error e
  | .ok _ => decodeAll host execute request.eosTokenId request.maxTokens (k + 1)

/-- The loop ends as the plain generation does, behind what was there `before` and the first `k`
dispatches; where that succeeds nothing is left waiting. -/
inductive Drained (config : TokenBudgetConfig) (before : List UInt32) (k : ℕ) :
    Option (Except (EngineError × Serving) Serving) → Except EngineError (List UInt32) → Prop
  | fails (e : EngineError) (t : Serving) : Drained config before k (some (.error (e, t))) (.error e)
  | succeeds (t : Serving) (tokens : List UInt32) (generated : t.generated = before ++ tokens)
      (queue : t.scheduler.runQueue = []) (configured : t.scheduler.config = config)
      (dispatched : t.dispatched = k + tokens.length) :
      Drained config before k (some (.ok t)) (.ok tokens)

theorem cycle_single (queue : s.scheduler.runQueue = [unit])
    (fits : unit.tokenSpan ≤ s.scheduler.config.maxNumBatchedTokens)
    (seqs : 0 < s.scheduler.config.maxNumSeqs.toNat) :
    s.cycle.1 = [unit] ∧ s.cycle.2.scheduler.runQueue = [] := by
  have fits' := UInt32.le_iff_toNat_le.mp fits
  have left : (s.scheduler.config.maxNumBatchedTokens - unit.tokenSpan).toNat =
      s.scheduler.config.maxNumBatchedTokens.toNat - unit.tokenSpan.toNat :=
    UInt32.toNat_sub_of_le _ _ fits
  have spent : tokens [unit] + (s.scheduler.config.maxNumBatchedTokens - unit.tokenSpan).toNat =
      s.scheduler.resetBudget.totalBudgetTokens.toNat := by
    simp only [tokens_cons, tokens_nil, left, TokenBudgetScheduler.resetBudget]
    omega
  unfold Serving.cycle
  rw [@schedule_whole s.scheduler.resetBudget [unit] [] _ queue spent seqs (.inl rfl)]
  exact ⟨rfl, rfl⟩

/-- A batch of one unit fails or goes on as the answer to it says. -/
theorem serveTurn_single (short : s.generated.length < request.maxTokens)
    (batch : s.cycle.1 = [unit]) :
    match answer host execute s.dispatched with
    | .error e => ∃ t, serveTurn host request (some execute) s = .stops (.error (e, t))
    | .ok token => ∃ receipts t, UInt32.ofNat receipts = token ∧
        t = s.cycle.2.receive host request unit receipts ∧
        serveTurn host request (some execute) s =
          if t.generated.getLast? = some request.eosTokenId then .stops (.ok t)
          else .goesOn t := by
  have same : s.cycle.2.dispatched = s.dispatched := rfl
  rw [serveTurn, if_neg (Nat.not_le.mpr short)]
  simp only [batch, List.foldlM_cons, List.foldlM_nil, bind_pure, reduceIte, reduceCtorEq,
    dispatchUnit, same, answer]
  cases execute s.dispatched with
  | error e => exact ⟨_, rfl⟩
  | ok receipts =>
    simp only [dispatched_receive, same]
    cases host.checkMemoryPressure (s.dispatched + 1) with
    | error e => exact ⟨_, rfl⟩
    | ok _ => exact ⟨receipts, _, rfl, rfl, rfl⟩

/-- A generation that is alone: its next decode waits unless it is over. -/
structure Alone (request : StartGenerationPayload) (config : TokenBudgetConfig)
    (before : List UInt32) (k : ℕ) (s : Serving) : Prop where
  config : s.scheduler.config = config
  generated : s.generated = before
  dispatched : s.dispatched = k
  queue : before.length < request.maxTokens →
    ∃ unit, s.scheduler.runQueue = [unit] ∧ unit.phase = .decode ∧ unit.tokenSpan = 1
  dry : request.maxTokens ≤ before.length → s.scheduler.runQueue = []

/-- A decode gives its token, and the next decode waits behind it unless the generation is
over. -/
theorem receive_decode {receipts : ℕ} (phase : unit.phase = .decode)
    (received : t = s.receive host request unit receipts) :
    t.generated = s.generated ++ [UInt32.ofNat receipts] ∧
      t.scheduler.config = s.scheduler.config ∧ t.dispatched = s.dispatched + 1 ∧
      t.scheduler.runQueue = s.scheduler.runQueue ++
        if UInt32.ofNat receipts = request.eosTokenId ∨
            request.maxTokens ≤ s.generated.length + 1 then []
        else
          [{ TokenWorkUnit.newDecode request.requestId (host.now (s.dispatched + 1)) with
              priority := s.scheduler.config.maxNumBatchedTokens }] := by
  subst received
  unfold Serving.receive
  simp only [phase, List.length_append, List.length_singleton]
  split
  · exact ⟨rfl, rfl, rfl, (List.append_nil _).symm⟩
  · exact ⟨rfl, rfl, rfl, rfl⟩

variable {config : TokenBudgetConfig} {before : List UInt32} {k : ℕ}

theorem Drained.cons {result : Option (Except (EngineError × Serving) Serving)} {token : UInt32}
    {plain : Except EngineError (List UInt32)}
    (drained : Drained config (before ++ [token]) (k + 1) result plain) :
    Drained config before k result ((token :: ·) <$> plain) := by
  cases drained with
  | fails e u => exact .fails e u
  | succeeds u tokens generated queue configured dispatched =>
    refine .succeeds u (token :: tokens) (by simpa using generated) queue configured ?_
    rw [dispatched, List.length_cons]
    omega

/-- The decodes of a generation that is alone are those of the plain loop. -/
theorem drained_serveLoop {n fuel : ℕ} (alone : Alone request config before k s)
    (budget : 0 < config.maxNumBatchedTokens.toNat) (seqs : 0 < config.maxNumSeqs.toNat)
    (left : request.maxTokens = before.length + n) (enough : n < fuel) :
    Drained config before k (serveLoop host request (some execute) fuel s)
      (decodeAll host execute request.eosTokenId n k) := by
  induction n generalizing s before k fuel with
  | zero =>
    obtain ⟨fuel, rfl⟩ := Nat.exists_eq_succ_of_ne_zero (Nat.ne_of_gt enough)
    obtain ⟨rfl, rfl, rfl, -, dry⟩ := alone
    have ended : request.maxTokens ≤ s.generated.length := left.le
    rw [serveLoop, serveTurn, if_pos ended]
    exact .succeeds s [] (List.append_nil _).symm (dry ended) rfl rfl
  | succ n ih =>
    obtain ⟨fuel, rfl⟩ := Nat.exists_eq_succ_of_ne_zero (Nat.ne_of_gt (Nat.zero_lt_of_lt enough))
    obtain ⟨rfl, rfl, rfl, queue, -⟩ := alone
    have short : s.generated.length < request.maxTokens := by omega
    obtain ⟨unit, queue, phase, span⟩ := queue short
    have fits : unit.tokenSpan ≤ s.scheduler.config.maxNumBatchedTokens := by
      rw [span, UInt32.le_iff_toNat_le]
      exact budget
    obtain ⟨batch, empty⟩ := cycle_single queue fits seqs
    have turn := @serveTurn_single host request execute s unit short batch
    rw [serveLoop, decodeAll]
    cases answered : answer host execute s.dispatched with
    | error e =>
      rw [answered] at turn
      obtain ⟨t, stops⟩ := turn
      simp only [stops]
      exact .fails e t
    | ok token =>
      rw [answered] at turn
      obtain ⟨receipts, t, rfl, received, turn⟩ := turn
      obtain ⟨generated, config, counted, waits⟩ := receive_decode phase received
      have same : s.cycle.2.generated = s.generated := rfl
      rw [empty, List.nil_append, same] at waits
      rw [same] at generated
      have last : t.generated.getLast? = some (UInt32.ofNat receipts) := by simp [generated]
      simp only [turn, last, Option.some.injEq]
      -- the end-of-sequence token ends both loops
      by_cases eos : UInt32.ofNat receipts = request.eosTokenId
      · rw [if_pos (.inl eos)] at waits
        rw [if_pos eos, if_pos eos]
        exact .succeeds t _ generated waits config counted
      · rw [if_neg eos, if_neg eos]
        refine (ih ⟨config, generated, counted, fun room => ?_, fun ended => ?_⟩ (by simp; omega)
          (Nat.lt_of_succ_lt_succ enough)).cons
        · rw [List.length_append, List.length_singleton] at room
          rw [if_neg (not_or.mpr ⟨eos, Nat.not_le.mpr room⟩)] at waits
          exact ⟨_, waits, rfl, rfl⟩
        · rw [List.length_append, List.length_singleton] at ended
          rw [if_pos (.inr ended)] at waits
          exact waits

theorem drained_prefill {fuel : ℕ} (queue : s.scheduler.runQueue = [unit])
    (phase : unit.phase = .prefill) (begins : s.generated = [])
    (fits : unit.tokenSpan ≤ s.scheduler.config.maxNumBatchedTokens)
    (budget : 0 < s.scheduler.config.maxNumBatchedTokens.toNat)
    (seqs : 0 < s.scheduler.config.maxNumSeqs.toNat) (asked : 0 < request.maxTokens)
    (enough : request.maxTokens + 1 < fuel) :
    Drained s.scheduler.config [] (s.dispatched + 1)
      (serveLoop host request (some execute) fuel s)
      (generate host execute request s.dispatched) := by
  obtain ⟨fuel, rfl⟩ := Nat.exists_eq_succ_of_ne_zero (Nat.ne_of_gt (Nat.zero_lt_of_lt enough))
  have short : s.generated.length < request.maxTokens := by rwa [begins]
  obtain ⟨batch, empty⟩ := cycle_single queue fits seqs
  have turn := @serveTurn_single host request execute s unit short batch
  rw [serveLoop, generate]
  cases answered : answer host execute s.dispatched with
  | error e =>
    rw [answered] at turn
    obtain ⟨t, stops⟩ := turn
    simp only [stops]
    exact .fails e t
  | ok token =>
    rw [answered] at turn
    obtain ⟨receipts, t, -, received, turn⟩ := turn
    -- one decode waits behind the prefill, and nothing is generated yet
    simp only [Serving.receive, phase] at received
    have nothing : t.generated = [] := received ▸ begins
    have waits : t.scheduler.runQueue = s.cycle.2.scheduler.runQueue ++
        [{ TokenWorkUnit.newDecode request.requestId (host.now (s.dispatched + 1)) with
            priority := s.scheduler.config.maxNumBatchedTokens }] := received ▸ rfl
    rw [empty, List.nil_append] at waits
    simp only [turn, nothing, List.getLast?_nil, reduceCtorEq, reduceIte]
    exact drained_serveLoop ⟨received ▸ rfl, nothing, received ▸ rfl, fun _ => ⟨_, waits, rfl, rfl⟩,
      fun ended => absurd ended (Nat.not_le.mpr asked)⟩ budget seqs (Nat.zero_add _).symm
      (Nat.lt_of_succ_lt_succ enough)

/-- A request that fits the budget and meets an empty queue is served as the plain generation,
and where it succeeds it leaves the queue empty. -/
theorem runWithTokenBudget_eq (engine : InferenceEngine) (scheduler : TokenBudgetScheduler)
    {fuel : ℕ} (ready : engine.tokenBudgetScheduler = some scheduler)
    (executor : engine.hybridExecutor = some execute) (dry : scheduler.runQueue = [])
    (budget : 0 < scheduler.config.maxNumBatchedTokens.toNat)
    (seqs : 0 < scheduler.config.maxNumSeqs.toNat) (asked : 0 < request.maxTokens)
    (fits : UInt32.ofNat request.promptTokenIds.length ≤ scheduler.config.maxNumBatchedTokens)
    (enough : request.maxTokens + 1 < fuel) :
    ∃ engine', runWithTokenBudget host request fuel engine =
        some (generate host execute request engine.dispatched, engine') ∧
      engine'.hybridExecutor = some execute ∧
      ∀ tokens, generate host execute request engine.dispatched = .ok tokens →
        engine'.dispatched = engine.dispatched + 1 + tokens.length ∧
        ∃ scheduler', engine'.tokenBudgetScheduler = some scheduler' ∧
          scheduler'.runQueue = [] ∧ scheduler'.config = scheduler.config := by
  have queue : (scheduler.enqueue (request.prefill (host.now engine.dispatched))).runQueue =
      [request.prefill (host.now engine.dispatched)] := by
    rw [TokenBudgetScheduler.enqueue, dry]
    rfl
  have drained := @drained_prefill host request execute
    ⟨scheduler.enqueue (request.prefill (host.now engine.dispatched)), [], engine.dispatched⟩
    _ fuel queue rfl rfl fits budget seqs asked enough
  rw [runWithTokenBudget, ready]
  simp only [executor]
  generalize serveLoop host request (some execute) fuel _ = result at drained ⊢
  generalize generate host execute request _ = plain at drained ⊢
  cases drained with
  | fails e u => exact ⟨_, rfl, rfl, fun _ failed => by cases failed⟩
  | succeeds u tokens generated queue configured dispatched =>
    rw [List.nil_append] at generated
    subst generated
    refine ⟨_, rfl, rfl, fun tokens same => ?_⟩
    cases same
    exact ⟨dispatched, _, rfl, queue, configured⟩

/-! ## Requests in sequence -/

/-- A caller that serves one request after another, and stops at the first that fails. -/
def serveAll (host : Host) (fuel : ℕ) :
    InferenceEngine → List StartGenerationPayload → Option (Except EngineError (List (List UInt32)))
  | _, [] => some (.ok [])
  | engine, request :: requests =>
    match runWithTokenBudget host request fuel engine with
    | none => none
    | some (.error e, _) => some (.error e)
    | some (.ok tokens, engine) => (serveAll host fuel engine requests).map ((tokens :: ·) <$> ·)

/-- Each request is generated from where the one before has left the executor. -/
def generateAll (host : Host) (execute : ℕ → Except String ℕ) :
    ℕ → List StartGenerationPayload → Except EngineError (List (List UInt32))
  | _, [] => .ok []
  | k, request :: requests =>
    match generate host execute request k with
    | .error e => .error e
    | .ok tokens => (tokens :: ·) <$> generateAll host execute (k + 1 + tokens.length) requests

/-- No request that fits the budget sees anything of the requests before it. -/
theorem serveAll_eq (host : Host) (execute : ℕ → Except String ℕ) {fuel : ℕ}
    (requests : List StartGenerationPayload) (engine : InferenceEngine)
    (scheduler : TokenBudgetScheduler) (ready : engine.tokenBudgetScheduler = some scheduler)
    (executor : engine.hybridExecutor = some execute) (dry : scheduler.runQueue = [])
    (budget : 0 < scheduler.config.maxNumBatchedTokens.toNat)
    (seqs : 0 < scheduler.config.maxNumSeqs.toNat)
    (each : ∀ request ∈ requests, 0 < request.maxTokens ∧
      UInt32.ofNat request.promptTokenIds.length ≤ scheduler.config.maxNumBatchedTokens ∧
      request.maxTokens + 1 < fuel) :
    serveAll host fuel engine requests =
      some (generateAll host execute engine.dispatched requests) := by
  induction requests generalizing engine scheduler with
  | nil => rfl
  | cons request requests ih =>
    rw [List.forall_mem_cons] at each
    obtain ⟨⟨asked, fits, enough⟩, rest⟩ := each
    obtain ⟨engine', served, executor', after⟩ :=
      @runWithTokenBudget_eq host request execute engine scheduler fuel ready executor dry budget
        seqs asked fits enough
    rw [serveAll, generateAll, served]
    cases generated : generate host execute request engine.dispatched with
    | error e => rfl
    | ok tokens =>
      obtain ⟨dispatched, scheduler', ready', dry', config⟩ := after tokens generated
      rw [← config] at budget seqs rest
      have later := ih engine' scheduler' ready' executor' dry' budget seqs rest
      simp only [later, dispatched, Option.map_some]

/-- Two requests to an engine with the configuration that `init_host_inference` gives it. -/
theorem serveAll_eq_two :
    serveAll ⟨fun _ => .ok (), fun _ => 0⟩ 6
        ⟨some (.new ⟨256, 8, 131072⟩), some fun k => .ok (k % 3), 0⟩
        [⟨[5, 6], 4, "a", [2]⟩, ⟨[5], 3, "b", [7]⟩] =
      some (generateAll ⟨fun _ => .ok (), fun _ => 0⟩ (fun k => .ok (k % 3)) 0
        [⟨[5, 6], 4, "a", [2]⟩, ⟨[5], 3, "b", [7]⟩]) :=
  serveAll_eq _ _ _ _ (.new ⟨256, 8, 131072⟩) rfl rfl rfl (by decide) (by decide) (by decide)

end TribunusCompute.Scheduling
