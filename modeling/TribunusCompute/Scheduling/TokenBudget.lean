import Mathlib.Algebra.GroupWithZero.Nat
import Mathlib.Data.Finset.Basic
import Mathlib.Data.Finset.Lattice.Lemmas
import TribunusCompute.Library.Runs

/-!
# The token-budget scheduler

`scheduling/token_budget.rs`: units of token work wait in a queue and are dispatched
from its front until the token budget of the cycle or the number of sequences is used
up. A unit that exceeds what is left of the budget is split in two. Deadlines are
instants, and instants are numbers.
-/
namespace TribunusCompute.Scheduling

inductive PhaseKind
  | prefill
  | decode
  | specDraft
  | specVerify
  deriving DecidableEq, Repr

structure TokenWorkUnit where
  requestId : String
  sequenceId : Option UInt64
  phase : PhaseKind
  computeImagePhase : Option String
  tokenSpan : UInt32
  kvBlocksNeeded : UInt32
  priority : UInt32
  deadline : ℕ
  backendRoute : Option String
  speculativeParent : Option String
  receiptSink : Option String
  deriving DecidableEq, Repr

/-- `kv_arena::block::DEFAULT_BLOCK_SIZE`. -/
def defaultBlockSize : UInt32 := 32

def neededBlocks (tokens : UInt32) : UInt32 := (tokens + defaultBlockSize - 1) / defaultBlockSize

namespace TokenWorkUnit

/-- `now` is the instant of the call. -/
def newPrefill (requestId : String) (tokenSpan : UInt32) (now : ℕ) : TokenWorkUnit where
  requestId := requestId
  sequenceId := none
  phase := .prefill
  computeImagePhase := none
  tokenSpan := tokenSpan
  kvBlocksNeeded := neededBlocks tokenSpan
  priority := 1
  deadline := now + 30
  backendRoute := none
  speculativeParent := none
  receiptSink := none

def newDecode (requestId : String) (now : ℕ) : TokenWorkUnit where
  requestId := requestId
  sequenceId := none
  phase := .decode
  computeImagePhase := none
  tokenSpan := 1
  kvBlocksNeeded := 0
  priority := 2
  deadline := now + 30
  backendRoute := none
  speculativeParent := none
  receiptSink := none

def chunk (unit : TokenWorkUnit) (tokens : UInt32) : TokenWorkUnit :=
  { unit with tokenSpan := tokens, kvBlocksNeeded := neededBlocks tokens }

end TokenWorkUnit

structure TokenBudgetConfig where
  maxNumBatchedTokens : UInt32
  maxNumSeqs : UInt32
  maxModelLen : UInt32
  deriving DecidableEq, Repr

structure TokenBudgetScheduler where
  config : TokenBudgetConfig
  runQueue : List TokenWorkUnit
  activeRequests : Finset String
  totalBudgetTokens : UInt32

/-- What a cycle leaves: the batch, the queue, the active requests and the budget. -/
structure Cycle where
  batch : List TokenWorkUnit
  queue : List TokenWorkUnit
  active : Finset String
  budget : UInt32

namespace TokenBudgetScheduler

def new (config : TokenBudgetConfig) : TokenBudgetScheduler where
  config := config
  runQueue := []
  activeRequests := ∅
  totalBudgetTokens := config.maxNumBatchedTokens

def enqueue (s : TokenBudgetScheduler) (unit : TokenWorkUnit) : TokenBudgetScheduler :=
  { s with runQueue := s.runQueue ++ [unit] }

/-- The loop of a cycle that has `seqs` units in its batch. -/
def scheduleLoop (maxNumSeqs : ℕ) :
    (seqs : ℕ) → (active : Finset String) → (budget : UInt32) → List TokenWorkUnit → Cycle
  | _, active, budget, [] => { batch := [], queue := [], active := active, budget := budget }
  | seqs, active, budget, unit :: queue =>
    -- The number of sequences is checked before the budget.
    if maxNumSeqs ≤ seqs then
      { batch := [], queue := unit :: queue, active := active, budget := budget }
    else if budget < unit.tokenSpan then
      -- The first part takes what is left, and its request is not made active.
      { batch := [unit.chunk budget]
        queue := unit.chunk (unit.tokenSpan - budget) :: queue
        active := active
        budget := 0 }
    else
      let rest := scheduleLoop maxNumSeqs (seqs + 1) (insert unit.requestId active)
        (budget - unit.tokenSpan) queue
      { rest with batch := unit :: rest.batch }

def schedule (s : TokenBudgetScheduler) : List TokenWorkUnit × TokenBudgetScheduler :=
  let cycle := scheduleLoop s.config.maxNumSeqs.toNat 0 s.activeRequests s.totalBudgetTokens
    s.runQueue
  (cycle.batch,
    { s with
      runQueue := cycle.queue
      activeRequests := cycle.active
      totalBudgetTokens := cycle.budget })

def complete (s : TokenBudgetScheduler) (requestId : String) : TokenBudgetScheduler :=
  { s with activeRequests := s.activeRequests.erase requestId }

def enqueueDecode (s : TokenBudgetScheduler) (requestId : String) (priority : UInt32) (now : ℕ) :
    TokenBudgetScheduler :=
  let unit := { TokenWorkUnit.newDecode requestId now with priority := priority }
  { s with runQueue := s.runQueue ++ [unit] }

def resetBudget (s : TokenBudgetScheduler) : TokenBudgetScheduler :=
  { s with totalBudgetTokens := s.config.maxNumBatchedTokens }

/-! ## One cycle -/

def tokens (units : List TokenWorkUnit) : ℕ := (units.map (·.tokenSpan.toNat)).sum

def ofRequest (requestId : String) (units : List TokenWorkUnit) : List TokenWorkUnit :=
  units.filter (·.requestId = requestId)

/-- Two units that share the work of one: what they say is the same but for the tokens, which
add up, and the blocks these need. -/
def Halves (first second unit : TokenWorkUnit) : Prop :=
  first = unit.chunk first.tokenSpan ∧ second = unit.chunk second.tokenSpan ∧
    first.tokenSpan.toNat + second.tokenSpan.toNat = unit.tokenSpan.toNat

/-- The batch and what is left of the queue are the old queue in order, where one unit may have
been split in two. -/
def Rejoins (batch queue old : List TokenWorkUnit) : Prop :=
  batch ++ queue = old ∨
    ∃ front first second unit back, batch = front ++ [first] ∧ queue = second :: back ∧
      old = front ++ unit :: back ∧ Halves first second unit

def requests (units : List TokenWorkUnit) : Finset String := (units.map (·.requestId)).toFinset

variable {maxNumSeqs : ℕ}

@[simp] theorem tokens_nil : tokens [] = 0 := rfl

@[simp] theorem tokens_cons (unit : TokenWorkUnit) (units : List TokenWorkUnit) :
    tokens (unit :: units) = unit.tokenSpan.toNat + tokens units :=
  List.sum_cons

theorem tokens_append (front back : List TokenWorkUnit) :
    tokens (front ++ back) = tokens front + tokens back := by
  rw [tokens, List.map_append, List.sum_append]
  rfl

theorem mem_requests {id : String} {units : List TokenWorkUnit} :
    id ∈ requests units ↔ ∃ unit ∈ units, unit.requestId = id := by
  simp [requests]

/-- The units that fit go into the batch whole, and their requests become active. -/
theorem scheduleLoop_append (front rest : List TokenWorkUnit) {seqs : ℕ} {active : Finset String}
    {budget left : UInt32} (room : seqs + front.length ≤ maxNumSeqs)
    (spent : tokens front + left.toNat = budget.toNat) :
    scheduleLoop maxNumSeqs seqs active budget (front ++ rest) =
      { scheduleLoop maxNumSeqs (seqs + front.length) (active ∪ requests front) left rest with
        batch := front ++ (scheduleLoop maxNumSeqs (seqs + front.length) (active ∪ requests front)
          left rest).batch } := by
  -- by induction on the front part, over every batch, active set and budget it can meet
  induction front generalizing seqs active budget with
  | nil =>
    have same : budget = left := UInt32.toNat_inj.mp (by simpa using spent.symm)
    have none_ : requests [] = ∅ := rfl
    rw [same, none_, Finset.union_empty]
    rfl
  | cons unit front ih =>
    rw [List.length_cons] at room
    rw [tokens_cons] at spent
    have fits : ¬ budget < unit.tokenSpan := by
      rw [UInt32.lt_iff_toNat_lt]
      omega
    have budget' : (budget - unit.tokenSpan).toNat = budget.toNat - unit.tokenSpan.toNat :=
      UInt32.toNat_sub_of_le _ _ (UInt32.not_lt.mp fits)
    -- the front behind the unit meets with the budget that the unit leaves
    have next := @ih (seqs + 1) (insert unit.requestId active) (budget - unit.tokenSpan)
      (by omega) (by omega)
    -- which of the two inserts a request does not matter
    have active' : insert unit.requestId active ∪ requests front =
        active ∪ requests (unit :: front) := by
      ext id
      simp only [Finset.mem_union, Finset.mem_insert, mem_requests, List.exists_mem_cons_iff]
      tauto
    have count : seqs + 1 + front.length = seqs + (unit :: front).length := by
      rw [List.length_cons]
      omega
    rw [List.cons_append, scheduleLoop, if_neg (by omega), if_neg fits, next, active', count]
    rfl

/-- The longest front part of the queue that fits; it ends with the queue, with the number of
sequences, or at a unit that exceeds what is left of the budget. -/
theorem exists_front (seqs : ℕ) (budget : UInt32) (queue : List TokenWorkUnit) :
    ∃ front rest left, queue = front ++ rest ∧ tokens front + left.toNat = budget.toNat ∧
      (front = [] ∨ seqs + front.length ≤ maxNumSeqs) ∧
      (rest = [] ∨ maxNumSeqs ≤ seqs + front.length ∨
        ∃ unit back, rest = unit :: back ∧ left < unit.tokenSpan) := by
  induction queue generalizing seqs budget with
  | nil => exact ⟨[], [], budget, rfl, by simp, .inl rfl, .inl rfl⟩
  | cons unit queue ih =>
    by_cases full : maxNumSeqs ≤ seqs
    · exact ⟨[], unit :: queue, budget, rfl, by simp, .inl rfl, .inr (.inl full)⟩
    by_cases exceeds : budget < unit.tokenSpan
    · exact ⟨[], unit :: queue, budget, rfl, by simp, .inl rfl,
        .inr (.inr ⟨unit, queue, rfl, exceeds⟩)⟩
    -- the unit fits, and the front part of what is behind it follows
    obtain ⟨front, rest, left, split_, spent, room, stop⟩ := ih (seqs + 1) (budget - unit.tokenSpan)
    have budget' : (budget - unit.tokenSpan).toNat = budget.toNat - unit.tokenSpan.toNat :=
      UInt32.toNat_sub_of_le _ _ (UInt32.not_lt.mp exceeds)
    rw [UInt32.lt_iff_toNat_lt, Nat.not_lt] at exceeds
    refine ⟨unit :: front, rest, left, by rw [split_]; rfl, ?_, .inr ?_, ?_⟩
    · rw [tokens_cons]
      omega
    · rw [List.length_cons]
      rcases room with rfl | room
      · rw [List.length_nil]
        omega
      · omega
    · rw [List.length_cons]
      rcases stop with none_ | full' | exceeds'
      · exact .inl none_
      · exact .inr (.inl (by omega))
      · exact .inr (.inr exceeds')

theorem schedule_whole {s : TokenBudgetScheduler} {front rest : List TokenWorkUnit} {left : UInt32}
    (queue : s.runQueue = front ++ rest)
    (spent : tokens front + left.toNat = s.totalBudgetTokens.toNat)
    (room : front.length ≤ s.config.maxNumSeqs.toNat)
    (stop : rest = [] ∨ s.config.maxNumSeqs.toNat ≤ front.length) :
    s.schedule = (front,
      { s with
        runQueue := rest
        activeRequests := s.activeRequests ∪ requests front
        totalBudgetTokens := left }) := by
  have loop := @scheduleLoop_append s.config.maxNumSeqs.toNat front rest 0 s.activeRequests
    s.totalBudgetTokens left (by omega) spent
  -- behind the front part the loop ends at once: the queue is empty or the batch is full
  have ends : scheduleLoop s.config.maxNumSeqs.toNat (0 + front.length)
      (s.activeRequests ∪ requests front) left rest =
        { batch := []
          queue := rest
          active := s.activeRequests ∪ requests front
          budget := left } := by
    cases rest with
    | nil => rfl
    | cons unit back =>
      have full := stop.resolve_left (List.cons_ne_nil _ _)
      rw [scheduleLoop, if_pos (by omega)]
  rw [schedule, queue, loop, ends, List.append_nil]

theorem schedule_split {s : TokenBudgetScheduler} {front back : List TokenWorkUnit}
    {unit : TokenWorkUnit} {left : UInt32} (queue : s.runQueue = front ++ unit :: back)
    (spent : tokens front + left.toNat = s.totalBudgetTokens.toNat)
    (room : front.length < s.config.maxNumSeqs.toNat) (exceeds : left < unit.tokenSpan) :
    s.schedule = (front ++ [unit.chunk left],
      { s with
        runQueue := unit.chunk (unit.tokenSpan - left) :: back
        activeRequests := s.activeRequests ∪ requests front
        totalBudgetTokens := 0 }) := by
  have loop := @scheduleLoop_append s.config.maxNumSeqs.toNat front (unit :: back) 0
    s.activeRequests s.totalBudgetTokens left (by omega) spent
  have ends : scheduleLoop s.config.maxNumSeqs.toNat (0 + front.length)
      (s.activeRequests ∪ requests front) left (unit :: back) =
        { batch := [unit.chunk left]
          queue := unit.chunk (unit.tokenSpan - left) :: back
          active := s.activeRequests ∪ requests front
          budget := 0 } := by
    rw [scheduleLoop, if_neg (by omega), if_pos exceeds]
  rw [schedule, queue, loop, ends]

/-- How a cycle can end. -/
inductive Ends (s : TokenBudgetScheduler) : Prop
  | whole (front rest : List TokenWorkUnit) (left : UInt32) (queue : s.runQueue = front ++ rest)
      (spent : tokens front + left.toNat = s.totalBudgetTokens.toNat)
      (room : front.length ≤ s.config.maxNumSeqs.toNat)
      (stop : rest = [] ∨ s.config.maxNumSeqs.toNat ≤ front.length)
  | split (front back : List TokenWorkUnit) (unit : TokenWorkUnit) (left : UInt32)
      (queue : s.runQueue = front ++ unit :: back)
      (spent : tokens front + left.toNat = s.totalBudgetTokens.toNat)
      (room : front.length < s.config.maxNumSeqs.toNat) (exceeds : left < unit.tokenSpan)

theorem ends (s : TokenBudgetScheduler) : s.Ends := by
  obtain ⟨front, rest, left, queue, spent, room, stop⟩ :=
    @exists_front s.config.maxNumSeqs.toNat 0 s.totalBudgetTokens s.runQueue
  have room' : front.length ≤ s.config.maxNumSeqs.toNat := by
    rcases room with rfl | room
    · exact Nat.zero_le _
    · omega
  -- a full batch ends the cycle whole, also before a unit that exceeds the budget
  by_cases full : s.config.maxNumSeqs.toNat ≤ front.length
  · exact .whole front rest left queue spent room' (.inr full)
  rcases stop with none_ | full' | ⟨unit, back, rfl, exceeds⟩
  · exact .whole front rest left queue spent room' (.inl none_)
  · exact absurd (by omega) full
  · exact .split front back unit left queue spent (Nat.not_le.mp full) exceeds

theorem halves_chunk {unit : TokenWorkUnit} {left : UInt32} (exceeds : left < unit.tokenSpan) :
    Halves (unit.chunk left) (unit.chunk (unit.tokenSpan - left)) unit := by
  have below := UInt32.lt_iff_toNat_lt.mp exceeds
  refine ⟨rfl, rfl, ?_⟩
  simp only [TokenWorkUnit.chunk]
  rw [UInt32.toNat_sub_of_le _ _ (UInt32.le_of_lt exceeds)]
  omega

theorem tokens_ofRequest {batch queue old : List TokenWorkUnit} (rejoins : Rejoins batch queue old)
    (requestId : String) :
    tokens (ofRequest requestId (batch ++ queue)) = tokens (ofRequest requestId old) := by
  rcases rejoins with rfl | ⟨front, first, second, unit, back, rfl, rfl, rfl, one, two, spans⟩
  · rfl
  -- both parts count for the request of the unit that was split
  have owner : first.requestId = unit.requestId ∧ second.requestId = unit.requestId := by
    rw [one, two]
    exact ⟨rfl, rfl⟩
  simp only [ofRequest, List.append_assoc, List.singleton_append, List.filter_append,
    List.filter_cons, tokens_append, owner]
  -- whether the request in question is that one
  split
  · simp only [tokens_cons]
    omega
  · rfl

/-- A cycle loses nothing: up to a split, the batch and what is left are the old queue in order.
It spends what the batch takes, and the batch keeps to the number of sequences. -/
theorem schedule_conserves (s : TokenBudgetScheduler) :
    Rejoins s.schedule.1 s.schedule.2.runQueue s.runQueue ∧
      (∀ requestId, tokens (ofRequest requestId (s.schedule.1 ++ s.schedule.2.runQueue)) =
        tokens (ofRequest requestId s.runQueue)) ∧
      tokens s.schedule.1 + s.schedule.2.totalBudgetTokens.toNat = s.totalBudgetTokens.toNat ∧
      s.schedule.1.length ≤ s.config.maxNumSeqs.toNat := by
  have law : Rejoins s.schedule.1 s.schedule.2.runQueue s.runQueue ∧
      tokens s.schedule.1 + s.schedule.2.totalBudgetTokens.toNat = s.totalBudgetTokens.toNat ∧
      s.schedule.1.length ≤ s.config.maxNumSeqs.toNat := by
    cases s.ends with
    | whole front rest left queue spent room stop =>
      rw [schedule_whole queue spent room stop]
      exact ⟨.inl queue.symm, spent, room⟩
    | split front back unit left queue spent room exceeds =>
      rw [schedule_split queue spent room exceeds]
      refine ⟨.inr ⟨front, _, _, unit, back, rfl, rfl, queue, halves_chunk exceeds⟩, ?_, ?_⟩
      · rw [tokens_append]
        simpa [TokenWorkUnit.chunk] using spent
      · rw [List.length_append, List.length_singleton]
        exact room
  exact ⟨law.1, tokens_ofRequest law.1, law.2⟩

/-- Two prefills against a budget of 10 tokens: the second is split. -/
example :
    let s := ((new ⟨10, 8, 131072⟩).enqueue (.newPrefill "a" 6 0)).enqueue (.newPrefill "b" 9 0)
    s.schedule.1.map (fun unit => (unit.requestId, unit.tokenSpan)) = [("a", 6), ("b", 4)] ∧
      s.schedule.2.runQueue.map (fun unit => (unit.requestId, unit.tokenSpan)) = [("b", 5)] := by
  decide

end TokenBudgetScheduler

end TribunusCompute.Scheduling
