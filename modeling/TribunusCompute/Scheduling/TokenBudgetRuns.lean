import TribunusCompute.Scheduling.TokenBudget

/-!
# Dispatched work over many cycles

A unit that is dispatched whole makes its request active. The first part of a split
does not, and it may have no tokens at all when the budget is used up already.
-/
namespace TribunusCompute.Scheduling

inductive BudgetOp
  | enqueue (unit : TokenWorkUnit)
  | enqueueDecode (requestId : String) (priority : UInt32) (now : ℕ)
  | schedule
  | complete (requestId : String)
  | resetBudget

/-- A unit is enqueued with at least one token. -/
def BudgetOp.HasWork : BudgetOp → Prop
  | .enqueue unit => 1 ≤ unit.tokenSpan.toNat
  | _ => True

/-- The scheduler with its history: the units dispatched, and the requests that have been
dispatched and not completed since. -/
structure DispatchHistory where
  scheduler : TokenBudgetScheduler
  dispatched : List TokenWorkUnit
  running : Finset String

namespace DispatchHistory

open TokenBudgetScheduler

def start (config : TokenBudgetConfig) : DispatchHistory where
  scheduler := .new config
  dispatched := []
  running := ∅

def step (s : DispatchHistory) : BudgetOp → Option DispatchHistory
  | .enqueue unit => some { s with scheduler := s.scheduler.enqueue unit }
  | .enqueueDecode requestId priority now =>
    some { s with scheduler := s.scheduler.enqueueDecode requestId priority now }
  | .schedule =>
    some
      { scheduler := s.scheduler.schedule.2
        dispatched := s.dispatched ++ s.scheduler.schedule.1
        running := s.running ∪ requests s.scheduler.schedule.1 }
  | .complete requestId =>
    some
      { s with
        scheduler := s.scheduler.complete requestId
        running := s.running.erase requestId }
  | .resetBudget => some { s with scheduler := s.scheduler.resetBudget }

/-- Every unit dispatched has tokens, and every request dispatched stays active until it is
completed. -/
structure DispatchLaw (s : DispatchHistory) : Prop where
  work : ∀ unit ∈ s.dispatched, 1 ≤ unit.tokenSpan.toNat
  active : s.running ⊆ s.scheduler.activeRequests

/-- Where a cycle splits a unit, some of the budget is left for it, and its request is active or
has a unit in the same batch. -/
def SplitsStarted (s : DispatchHistory) : BudgetOp → Prop
  | .schedule =>
    ∀ front unit back, ∀ left : UInt32, s.scheduler.runQueue = front ++ unit :: back →
      tokens front + left.toNat = s.scheduler.totalBudgetTokens.toNat →
      front.length < s.scheduler.config.maxNumSeqs.toNat → left < unit.tokenSpan →
      1 ≤ left.toNat ∧ unit.requestId ∈ s.scheduler.activeRequests ∪ requests front
  | _ => True

structure Sound (s : DispatchHistory) : Prop where
  law : s.DispatchLaw
  waiting : ∀ unit ∈ s.scheduler.runQueue, 1 ≤ unit.tokenSpan.toNat

variable {s t : DispatchHistory}

theorem sound_start (config : TokenBudgetConfig) : (start config).Sound :=
  ⟨⟨fun _ member => absurd member List.not_mem_nil, fun _ member => member⟩,
    fun _ member => absurd member List.not_mem_nil⟩

theorem requests_append (front back : List TokenWorkUnit) :
    requests (front ++ back) = requests front ∪ requests back := by
  ext id
  simp only [Finset.mem_union, mem_requests, List.mem_append]
  constructor
  · rintro ⟨unit, here | there, rfl⟩
    · exact .inl ⟨unit, here, rfl⟩
    · exact .inr ⟨unit, there, rfl⟩
  · rintro (⟨unit, here, rfl⟩ | ⟨unit, there, rfl⟩)
    · exact ⟨unit, .inl here, rfl⟩
    · exact ⟨unit, .inr there, rfl⟩

/-! ## One cycle -/

theorem sound_whole (sound : s.Sound) {front rest : List TokenWorkUnit} {left : UInt32}
    (queue : s.scheduler.runQueue = front ++ rest) :
    Sound
      { scheduler :=
          { s.scheduler with
            runQueue := rest
            activeRequests := s.scheduler.activeRequests ∪ requests front
            totalBudgetTokens := left }
        dispatched := s.dispatched ++ front
        running := s.running ∪ requests front } := by
  have waiting := sound.waiting
  rw [queue] at waiting
  -- a unit dispatched now waited before, and what waits now did too
  refine ⟨⟨fun unit member => ?_, Finset.union_subset_union_left sound.law.active⟩,
    fun unit member => waiting unit (List.mem_append_right _ member)⟩
  rcases List.mem_append.mp member with old | new
  · exact sound.law.work unit old
  · exact waiting unit (List.mem_append_left _ new)

/-- A split keeps the law exactly if its first part has tokens and its request is active. -/
theorem law_split_iff (sound : s.Sound) {front back : List TokenWorkUnit} {unit : TokenWorkUnit}
    {left budget : UInt32} (queue : s.scheduler.runQueue = front ++ unit :: back)
    (rest : List TokenWorkUnit) :
    DispatchLaw
      { scheduler :=
          { s.scheduler with
            runQueue := rest
            activeRequests := s.scheduler.activeRequests ∪ requests front
            totalBudgetTokens := budget }
        dispatched := s.dispatched ++ (front ++ [unit.chunk left])
        running := s.running ∪ requests (front ++ [unit.chunk left]) } ↔
      1 ≤ left.toNat ∧ unit.requestId ∈ s.scheduler.activeRequests ∪ requests front := by
  have waiting := sound.waiting
  rw [queue] at waiting
  constructor
  · intro law
    -- the first part is dispatched like any unit, and the law speaks of it as well
    have first : unit.chunk left ∈ s.dispatched ++ (front ++ [unit.chunk left]) := by simp
    refine ⟨law.work _ first, law.active ?_⟩
    refine Finset.mem_union_right _ (mem_requests.mpr ⟨unit.chunk left, by simp, rfl⟩)
  · rintro ⟨some_, active⟩
    constructor
    · intro other member
      rcases List.mem_append.mp member with old | new
      · exact sound.law.work other old
      rcases List.mem_append.mp new with whole | part
      · exact waiting other (List.mem_append_left _ whole)
      · rw [List.mem_singleton.mp part]
        exact some_
    -- the units before it became active in this cycle, its own request by assumption
    · rw [requests_append, ← Finset.union_assoc]
      refine Finset.union_subset (Finset.union_subset_union_left sound.law.active) ?_
      intro id member
      obtain ⟨other, part, rfl⟩ := mem_requests.mp member
      rw [List.mem_singleton.mp part]
      exact active

theorem law_schedule_iff (sound : s.Sound) (taken : s.step .schedule = some t) :
    t.DispatchLaw ↔ s.SplitsStarted .schedule := by
  cases taken
  constructor
  -- a split that the queue and the budget describe is the one the cycle makes
  · intro law front unit back left queue spent room exceeds
    rw [schedule_split queue spent room exceeds] at law
    exact (law_split_iff sound queue _).mp law
  · intro started
    cases s.scheduler.ends with
    | whole front rest left queue spent room stop =>
      rw [schedule_whole queue spent room stop]
      exact (sound_whole sound queue).law
    | split front back unit left queue spent room exceeds =>
      rw [schedule_split queue spent room exceeds]
      have condition := started front unit back left queue spent room exceeds
      exact (law_split_iff sound queue _).mpr condition

/-- What a cycle leaves in the queue has work, also behind a split. -/
theorem waiting_schedule (sound : s.Sound) :
    ∀ unit ∈ s.scheduler.schedule.2.runQueue, 1 ≤ unit.tokenSpan.toNat := by
  have waiting := sound.waiting
  cases s.scheduler.ends with
  | whole front rest left queue spent room stop =>
    rw [schedule_whole queue spent room stop]
    exact fun unit member => waiting unit (queue ▸ List.mem_append_right _ member)
  | split front back unit left queue spent room exceeds =>
    rw [schedule_split queue spent room exceeds]
    intro other member
    rcases List.mem_cons.mp member with rfl | behind
    · -- a unit is split only where it exceeds what is left, so its second part has tokens
      have below := UInt32.lt_iff_toNat_lt.mp exceeds
      simp only [TokenWorkUnit.chunk]
      rw [UInt32.toNat_sub_of_le _ _ (UInt32.le_of_lt exceeds)]
      omega
    · exact waiting other (queue ▸ List.mem_append_right _ (List.mem_cons_of_mem _ behind))

/-! ## One call -/

theorem law_step_iff (sound : s.Sound) {op : BudgetOp} (taken : s.step op = some t) :
    t.DispatchLaw ↔ s.SplitsStarted op := by
  cases op with
  | schedule => exact law_schedule_iff sound taken
  | complete requestId =>
    -- the request leaves both sets
    cases taken
    exact iff_of_true ⟨sound.law.work, Finset.erase_subset_erase _ sound.law.active⟩ trivial
  | enqueue | enqueueDecode | resetBudget =>
    cases taken
    exact iff_of_true ⟨sound.law.work, sound.law.active⟩ trivial

theorem waiting_step (sound : s.Sound) {op : BudgetOp} (work : op.HasWork)
    (taken : s.step op = some t) :
    ∀ unit ∈ t.scheduler.runQueue, 1 ≤ unit.tokenSpan.toNat := by
  cases op with
  | schedule =>
    cases taken
    exact waiting_schedule sound
  | enqueue unit =>
    cases taken
    intro other member
    rcases List.mem_append.mp member with old | new
    · exact sound.waiting other old
    · exact List.mem_singleton.mp new ▸ work
  | enqueueDecode requestId priority now =>
    -- a decode has one token
    cases taken
    intro other member
    rcases List.mem_append.mp member with old | new
    · exact sound.waiting other old
    · rw [List.mem_singleton.mp new]
      exact le_rfl
  | complete | resetBudget =>
    cases taken
    exact sound.waiting

/-! ## Runs -/

/-- Along any calls that enqueue work, every unit dispatched has tokens and every request
dispatched stays active until it is completed, exactly if each split has budget left and an
active request. -/
theorem dispatchLaw_iff (config : TokenBudgetConfig) (ops : List BudgetOp)
    (work : ∀ op ∈ ops, op.HasWork) :
    ∃ t, Runs.exec step (start config) ops = some t ∧
      (Runs.Always step DispatchLaw (start config) ops ↔
        Runs.Guarded step SplitsStarted (start config) ops) := by
  -- no call fails, so every list of calls is a run
  have total : ∀ (s : DispatchHistory) (op : BudgetOp), ∃ t, s.step op = some t := by
    intro s op
    cases op <;> exact ⟨_, rfl⟩
  obtain ⟨t, run⟩ := Runs.exec_total step total (start config) ops
  refine ⟨t, run, Runs.always_iff_guarded_within step (fun s (sound : s.Sound) => sound.law) ?_ ?_
    (sound_start config) (Runs.guarded_of_forall step work _) run⟩
  · intro s op t sound work started taken
    exact ⟨(law_step_iff sound taken).mpr started, waiting_step sound work taken⟩
  · intro s op t sound _ taken law
    exact (law_step_iff sound taken).mp law

/-- A prefill and a second one of the same request, which is split behind the first. -/
def startedSplit : List BudgetOp :=
  [.enqueue (.newPrefill "a" 6 0), .enqueue (.newPrefill "a" 9 0), .schedule]

theorem startedSplit_guarded :
    Runs.Guarded step SplitsStarted (start ⟨10, 8, 131072⟩) startedSplit := by
  refine ⟨trivial, fun _ taken => ?_⟩
  cases taken
  refine ⟨trivial, fun _ taken => ?_⟩
  cases taken
  refine ⟨?_, fun _ _ => trivial⟩
  rintro front unit back left parted budget - exceeds
  replace parted : [.newPrefill "a" 6 0, .newPrefill "a" 9 0] = front ++ unit :: back := parted
  replace budget : tokens front + left.toNat = 10 := budget
  replace exceeds := UInt32.lt_iff_toNat_lt.mp exceeds
  rcases front with _ | ⟨first, _ | ⟨second, front⟩⟩
  -- the first prefill is not split
  · obtain ⟨rfl, -⟩ := List.cons.inj parted
    change 0 + left.toNat = 10 at budget
    change left.toNat < 6 at exceeds
    omega
  · obtain ⟨rfl, second⟩ := List.cons.inj parted
    obtain ⟨rfl, -⟩ := List.cons.inj second
    change 6 + left.toNat = 10 at budget
    exact ⟨by omega, by decide⟩
  · simp at parted

theorem startedSplit_dispatchLaw :
    ∃ t, Runs.exec step (start ⟨10, 8, 131072⟩) startedSplit = some t ∧
      t.dispatched.map (·.tokenSpan) = [6, 4] ∧
      Runs.Always step DispatchLaw (start ⟨10, 8, 131072⟩) startedSplit := by
  have work : ∀ op ∈ startedSplit, op.HasWork := by
    intro op member
    simp only [startedSplit, List.mem_cons, List.not_mem_nil, or_false] at member
    rcases member with rfl | rfl | rfl
    · exact Nat.le_of_ble_eq_true rfl
    · exact Nat.le_of_ble_eq_true rfl
    · trivial
  obtain ⟨t, run, law⟩ := dispatchLaw_iff ⟨10, 8, 131072⟩ startedSplit work
  refine ⟨t, run, ?_, law.mpr startedSplit_guarded⟩
  obtain rfl := Option.some.inj run
  decide

/-- The first part of a split runs without being active, and the next cycle dispatches a part
without tokens. -/
theorem split_prefill_not_active :
    ∃ s t, Runs.exec step (start ⟨4, 8, 131072⟩) [.enqueue (.newPrefill "a" 6 0), .schedule] =
        some s ∧ s.step .schedule = some t ∧
      s.running = {"a"} ∧ s.scheduler.activeRequests = ∅ ∧
      t.dispatched.map (·.tokenSpan) = [4, 0] ∧ ¬ s.DispatchLaw ∧ ¬ t.DispatchLaw := by
  refine ⟨_, _, rfl, rfl, by decide, by decide, by decide, ?_, ?_⟩
  · intro law
    exact absurd law.active (by decide)
  · intro law
    exact absurd law.active (by decide)

end DispatchHistory

end TribunusCompute.Scheduling
