import TribunusCompute.Scheduling.KvDrift
import TribunusCompute.Scheduling.Preemption

/-!
# The tokens a request is credited with

Runs of one scheduler with its caller, who processes the batch just built, preempts
between two batches and resumes each saved request once. The history of the run says
how many tokens were counted for a request and which requests are finished. A resume
that finds no free slot starts its request over.
-/
namespace TribunusCompute.Scheduling

/-- The requests `process_results` counts a token for. -/
def Scheduler.creditedBy (s : Scheduler) (batch : Batch) : List UInt64 :=
  batch.slots.filterMap fun batchSlot =>
    if s.slots.any fun slot => slot.id = batchSlot.id then batchSlot.requestId else none

/-- The scheduler, what its caller holds, and the history so far: the requests enqueued, one
entry for each token counted, and the requests that left when results were processed. -/
structure Service where
  scheduler : Scheduler
  held : List SavedRequest
  pending : Option Batch
  enqueued : List Request
  credited : List UInt64
  finished : List UInt64

inductive ServiceOp
  | enqueue (request : Request)
  | enqueueWithPriority (request : Request) (priority : UInt8)
  | nextBatch
  | processResults
  | preemptLowest
  | resume (k now : ℕ)
  deriving DecidableEq, Repr

namespace Service

def start (config : SchedulerConfig) (profile : Option ComputeRouteProfile)
    (pager : Option Memory.PagedIosurfaceAllocator) : Service where
  scheduler := Scheduler.start config profile pager
  held := []
  pending := none
  enqueued := []
  credited := []
  finished := []

/-- A request as `Request::new` builds it, for at least one token, with an id of its own. -/
def New (s : Service) (req : Request) : Prop :=
  req.slot = none ∧ 1 ≤ req.maxTokens ∧ req.id ∉ s.enqueued.map (·.id)

instance (s : Service) (req : Request) : Decidable (s.New req) :=
  inferInstanceAs (Decidable (_ ∧ _ ∧ _))

/-- One operation; `none` where the caller may not take it. -/
def step (s : Service) : ServiceOp → Option Service
  | .enqueue request =>
    if s.New request then
      some { s with
        scheduler := s.scheduler.enqueue request
        enqueued := s.enqueued ++ [request] }
    else none
  | .enqueueWithPriority request priority =>
    if s.New request then
      some { s with
        scheduler := s.scheduler.enqueueWithPriority request priority
        enqueued := s.enqueued ++ [request] }
    else none
  | .nextBatch =>
    let (batch, scheduler) := s.scheduler.nextBatch
    some { s with scheduler := scheduler, pending := some batch }
  | .processResults => do
    let batch ← s.pending
    let scheduler := s.scheduler.processResults batch
    let left := s.scheduler.active.filter fun req => req ∉ scheduler.active
    some { s with
      scheduler := scheduler
      pending := none
      credited := s.credited ++ s.scheduler.creditedBy batch
      finished := s.finished ++ left.map (·.id) }
  | .preemptLowest =>
    if s.pending.isSome then none
    else
      let (saved, scheduler) := s.scheduler.preemptLowest
      some { s with scheduler := scheduler, held := s.held ++ saved.toList }
  | .resume k now => do
    let saved ← s.held[k]?
    some { s with scheduler := s.scheduler.resume saved now, held := s.held.eraseIdx k }

/-! ## What should hold -/

/-- Where the requests are: in the queue, active, preempted and held, or finished. -/
def places (s : Service) : List UInt64 :=
  s.scheduler.queue.map (·.id) ++ s.scheduler.active.map (·.id) ++
    s.held.map (·.requestId) ++ s.finished

/-- No request is credited with more than its tokens, the requests finished are those credited
with all of them, and each request is in exactly one place. -/
structure ProgressLaw (s : Service) : Prop where
  bounded : ∀ req ∈ s.enqueued, s.credited.count req.id ≤ req.maxTokens
  finishes : ∀ req ∈ s.enqueued, req.id ∈ s.finished ↔ s.credited.count req.id = req.maxTokens
  places : s.places.Perm (s.enqueued.map (·.id))
  once : s.places.Nodup

/-- In a step, the requests that leave the active set are those credited with their last token
and those preempted. -/
def LeavesWhenDone (s : Service) (_ : ServiceOp) (t : Service) : Prop :=
  ∀ req ∈ s.scheduler.active, req.id ∉ t.scheduler.active.map (·.id) ↔
    t.credited.count req.id = req.maxTokens ∨ req.id ∈ t.held.map (·.requestId)

def ResumesInPlace (s : Service) : ServiceOp → Prop
  | .resume _ _ => ∃ slot ∈ s.scheduler.slots, slot.isFree
  | _ => True

instance (s : Service) (op : ServiceOp) : Decidable (s.ResumesInPlace op) :=
  match op with
  | .resume _ _ => inferInstanceAs <| Decidable <| ∃ slot ∈ s.scheduler.slots, slot.isFree
  | .enqueue _ | .enqueueWithPriority _ _ | .nextBatch | .processResults | .preemptLowest =>
    isTrue trivial

/-! ## The invariant -/

/-- What is known of the batch just built. -/
structure Built (scheduler : Scheduler) (batch : Batch) : Prop where
  current : scheduler.Current batch.slots
  occupied : ∀ slot ∈ batch.slots, slot.requestId ≠ none
  nodup : (occupants batch.slots).Nodup

/-- A request still to run has the tokens left that it was enqueued with. -/
def Budgeted (s : Service) (id : UInt64) (maxTokens : ℕ) : Prop :=
  ∃ req ∈ s.enqueued, req.id = id ∧ req.maxTokens = maxTokens

/-- Each request is in one place, and the tokens counted for it are those recorded there. -/
structure Inv (s : Service) : Prop where
  seated : s.scheduler.Seated
  places : s.places.Perm (s.enqueued.map (·.id))
  distinct : (s.enqueued.map (·.id)).Nodup
  positive : ∀ req ∈ s.enqueued, 1 ≤ req.maxTokens
  strangers : ∀ id ∈ s.credited, id ∈ s.enqueued.map (·.id)
  queued : ∀ req ∈ s.scheduler.queue, s.Budgeted req.id req.maxTokens ∧ req.id ∉ s.credited
  active : ∀ req ∈ s.scheduler.active, s.Budgeted req.id req.maxTokens
  running : ∀ slot ∈ s.scheduler.slots, ∀ req ∈ s.scheduler.active,
    slot.requestId = some req.id →
      s.credited.count req.id = slot.tokensGenerated ∧ slot.tokensGenerated < req.maxTokens
  saved : ∀ saved ∈ s.held, s.Budgeted saved.requestId saved.maxTokens ∧
    s.credited.count saved.requestId = saved.tokensGenerated ∧
      saved.tokensGenerated < saved.maxTokens
  finished : ∀ id ∈ s.finished, s.Budgeted id (s.credited.count id)
  pending : ∀ batch ∈ s.pending, Built s.scheduler batch

theorem inv_start (config : SchedulerConfig) (profile : Option ComputeRouteProfile)
    (pager : Option Memory.PagedIosurfaceAllocator) : (start config profile pager).Inv where
  seated := Scheduler.seated_start config profile pager
  places := .refl _
  distinct := List.nodup_nil
  positive := fun _ member => absurd member List.not_mem_nil
  strangers := fun _ member => absurd member List.not_mem_nil
  queued := fun _ member => absurd member List.not_mem_nil
  active := fun _ member => absurd member List.not_mem_nil
  running := fun _ _ _ member => absurd member List.not_mem_nil
  saved := fun _ member => absurd member List.not_mem_nil
  finished := fun _ member => absurd member List.not_mem_nil
  pending := fun _ none_ => nomatch none_

namespace Inv

variable {s : Service} (inv : s.Inv)

include inv

theorem once : s.places.Nodup := inv.places.nodup_iff.mpr inv.distinct

/-- An active request has been credited with less than all its tokens. -/
theorem active_count {req : Request} (member : req ∈ s.scheduler.active) :
    s.credited.count req.id < req.maxTokens := by
  obtain ⟨slot, inside, -, occupant⟩ := inv.seated.linked req member
  obtain ⟨count, less⟩ := inv.running slot inside req member occupant
  rwa [count]

theorem enqueued_unique {a b : Request} (memberA : a ∈ s.enqueued) (memberB : b ∈ s.enqueued)
    (same : a.id = b.id) : a = b :=
  List.inj_on_of_nodup_map inv.distinct memberA memberB same

theorem budget_eq {req : Request} (member : req ∈ s.enqueued) {maxTokens : ℕ}
    (budget : s.Budgeted req.id maxTokens) : req.maxTokens = maxTokens := by
  obtain ⟨other, inside, same, tokens⟩ := budget
  rw [← tokens, inv.enqueued_unique member inside same.symm]

theorem progressLaw : s.ProgressLaw := by
  -- In each place but the last, fewer tokens are credited than the request may have.
  have cases_ (req : Request) (member : req ∈ s.enqueued) :
      s.credited.count req.id < req.maxTokens ∧ req.id ∉ s.finished ∨
        s.credited.count req.id = req.maxTokens ∧ req.id ∈ s.finished := by
    have somewhere := inv.places.mem_iff.mpr (List.mem_map.mpr ⟨req, member, rfl⟩)
    have once := inv.once
    unfold Service.places at somewhere once
    have apart := List.disjoint_of_nodup_append once
    rcases List.mem_append.mp somewhere with unfinished | done
    · refine .inl ⟨?_, apart unfinished⟩
      rcases List.mem_append.mp unfinished with running | held
      · rcases List.mem_append.mp running with queued | active
        · obtain ⟨waiting, inside, same⟩ := List.mem_map.mp queued
          obtain ⟨-, untouched⟩ := inv.queued waiting inside
          rw [List.count_eq_zero.mpr (same ▸ untouched)]
          exact inv.positive req member
        · obtain ⟨running, inside, same⟩ := List.mem_map.mp active
          have count := inv.active_count inside
          have budget := inv.active running inside
          rw [same] at count budget
          rwa [inv.budget_eq member budget]
      · obtain ⟨saved, inside, same⟩ := List.mem_map.mp held
        obtain ⟨budget, count, less⟩ := inv.saved saved inside
        rw [same] at budget count
        rwa [inv.budget_eq member budget, count]
    · exact .inr ⟨(inv.budget_eq member (inv.finished req.id done)).symm, done⟩
  refine ⟨?_, ?_, inv.places, inv.once⟩
  · intro req member
    rcases cases_ req member with ⟨less, -⟩ | ⟨all, -⟩
    · exact less.le
    · exact all.le
  · intro req member
    rcases cases_ req member with ⟨less, unfinished⟩ | ⟨all, done⟩
    · exact iff_of_false unfinished less.ne
    · exact iff_of_true done all

end Inv

/-! ## Each operation keeps the invariant -/

theorem Budgeted.mono {s t : Service} {id : UInt64} {maxTokens : ℕ}
    (budget : s.Budgeted id maxTokens) (more : ∀ req ∈ s.enqueued, req ∈ t.enqueued) :
    t.Budgeted id maxTokens := by
  obtain ⟨req, member, same, tokens⟩ := budget
  exact ⟨req, more req member, same, tokens⟩

/-- The request waits under a priority that the caller may have changed. -/
theorem inv_enqueue {s : Service} (inv : s.Inv) {req : Request} (new : s.New req)
    (priority : UInt8) :
    Inv { s with
      scheduler := s.scheduler.enqueue { req with priority := priority }
      enqueued := s.enqueued ++ [req] } := by
  obtain ⟨noSlot, positive, stranger⟩ := new
  have more : ∀ other ∈ s.enqueued, other ∈ s.enqueued ++ [req] :=
    fun _ member => List.mem_append_left _ member
  -- an id that was never enqueued is nowhere, and has no credit
  have elsewhere : req.id ∉ s.places := fun inside => stranger (inv.places.mem_iff.mp inside)
  have untouched : req.id ∉ s.credited := fun inside => stranger (inv.strangers _ inside)
  have fresh : s.scheduler.Fresh { req with priority := priority } := by
    refine ⟨noSlot, fun inside => elsewhere ?_⟩
    rw [List.map_append] at inside
    exact List.mem_append_left _ (List.mem_append_left _ inside)
  refine ⟨Scheduler.seated_enqueue inv.seated fresh, ?_, ?_, ?_, ?_, ?_, ?_, inv.running, ?_, ?_, ?_⟩
  · refine List.perm_iff_count.mpr fun id => ?_
    have same := List.perm_iff_count.mp inv.places id
    simp only [Service.places, Scheduler.enqueue, List.map_append, List.count_append, List.map_cons,
      List.map_nil] at same ⊢
    omega
  · rw [List.map_append]
    exact List.Nodup.append inv.distinct (List.nodup_singleton _) (by simpa using stranger)
  · intro other member
    rcases List.mem_append.mp member with old | last
    · exact inv.positive other old
    · rwa [List.mem_singleton.mp last]
  · intro id member
    rw [List.map_append]
    exact List.mem_append_left _ (inv.strangers id member)
  · intro other member
    rcases List.mem_append.mp member with old | last
    · obtain ⟨budget, untouched⟩ := inv.queued other old
      exact ⟨budget.mono more, untouched⟩
    · rw [List.mem_singleton.mp last]
      exact ⟨⟨req, List.mem_append_right _ List.mem_cons_self, rfl, rfl⟩, untouched⟩
  · exact fun other member => (inv.active other member).mono more
  · intro saved member
    obtain ⟨budget, progress⟩ := inv.saved saved member
    exact ⟨budget.mono more, progress⟩
  · exact fun id member => (inv.finished id member).mono more
  · intro batch there
    obtain ⟨current, occupied, nodup⟩ := inv.pending batch there
    exact ⟨⟨current.nodup, current.present⟩, occupied, nodup⟩

theorem nextBatch_running {s : Scheduler} (seated : s.Seated) {slot : Slot} {req : Request}
    (member : slot ∈ s.nextBatch.2.slots) (running : req ∈ s.nextBatch.2.active)
    (occupant : slot.requestId = some req.id) :
    (∃ old ∈ s.slots, ∃ origin ∈ s.active, old.requestId = some origin.id ∧
      old.tokensGenerated = slot.tokensGenerated ∧ origin.id = req.id ∧
        origin.maxTokens = req.maxTokens) ∨
    ∃ origin ∈ s.queue, slot.tokensGenerated = 0 ∧ origin.id = req.id ∧
      origin.maxTokens = req.maxTokens := by
  obtain ⟨new, queue, -, -, ⟨-, active, slots⟩ | ⟨-, count, filled⟩⟩ :=
    Scheduler.nextBatch_cases seated
  · rw [slots] at member
    rw [active] at running
    obtain ⟨old, inside, rfl⟩ := List.mem_map.mp member
    left
    refine ⟨old, inside, req, running, ?_, ?_, rfl, rfl⟩
    · rw [← occupant]
      split <;> rfl
    · split <;> rfl
  · have nodup : ((s.active ++ new).map (·.id)).Nodup := by
      have distinct := (Scheduler.nextBatch_request_ids seated).nodup_iff.mpr seated.distinct
      rw [List.map_append, filled.request_ids] at distinct
      exact distinct.of_append_right
    obtain ⟨origin, before, same, -⟩ := filled.request_origin running
    have id : origin.id = req.id := by rw [same]
    have maxTokens : origin.maxTokens = req.maxTokens := by rw [same]
    rcases filled.slot_origin member with old | ⟨started, inside, waiting, starts⟩
    · left
      have old : slot ∈ s.slots := by
        rcases Scheduler.isFree_addSlots old with old | free
        · exact old
        · exact absurd (free.symm.trans occupant) (by simp)
      obtain ⟨running', active, id'⟩ := seated.occupant_active old occupant
      obtain rfl : running' = origin := List.inj_on_of_nodup_map nodup
        (List.mem_append_left _ active) before (id'.trans id.symm)
      exact ⟨slot, old, running', active, occupant.trans (congrArg some id.symm), rfl, id,
        maxTokens⟩
    · right
      have id' : started.id = req.id := Option.some.inj (starts.occupant.symm.trans occupant)
      obtain rfl : started = origin := List.inj_on_of_nodup_map nodup inside before
        (id'.trans id.symm)
      refine ⟨started, ?_, starts.tokens, id, maxTokens⟩
      -- An active request has a slot, so the one started comes from the queue.
      rcases List.mem_append.mp inside with active | admitted
      · obtain ⟨seat, -, named, -⟩ := seated.linked started active
        exact absurd (waiting.symm.trans named) (by simp)
      · exact queue.mem_iff.mp (List.mem_append_left _ admitted)

theorem nextBatch_active {s : Scheduler} (seated : s.Seated) {req : Request}
    (running : req ∈ s.nextBatch.2.active) :
    ∃ origin ∈ s.active ++ s.queue, origin.id = req.id ∧ origin.maxTokens = req.maxTokens := by
  obtain ⟨seat, inside, -, occupant⟩ := (Scheduler.seated_nextBatch seated).linked req running
  rcases nextBatch_running seated inside running occupant with
    ⟨-, -, origin, active, -, -, id, maxTokens⟩ | ⟨origin, queued, -, id, maxTokens⟩
  · exact ⟨origin, List.mem_append_left _ active, id, maxTokens⟩
  · exact ⟨origin, List.mem_append_right _ queued, id, maxTokens⟩

theorem inv_nextBatch {s : Service} (inv : s.Inv) :
    Inv { s with
      scheduler := s.scheduler.nextBatch.2
      pending := some s.scheduler.nextBatch.1 } := by
  have seated := Scheduler.seated_nextBatch inv.seated
  refine ⟨seated, ?_, inv.distinct, inv.positive, inv.strangers, ?_, ?_, ?_, inv.saved,
    inv.finished, ?_⟩
  · have moved := Scheduler.nextBatch_request_ids inv.seated
    rw [List.map_append, List.map_append] at moved
    exact ((moved.append_right _).append_right _).trans inv.places
  · exact fun req queued => inv.queued req (Scheduler.nextBatch_waiting inv.seated queued)
  · intro req running
    obtain ⟨origin, before, id, maxTokens⟩ := nextBatch_active inv.seated running
    rw [← id, ← maxTokens]
    rcases List.mem_append.mp before with active | queued
    · exact inv.active origin active
    · exact (inv.queued origin queued).1
  · intro slot member req running occupant
    -- the occupant was running before, or comes from the queue without a token
    rcases nextBatch_running inv.seated member running occupant with
      ⟨old, inside, origin, active, occupant', tokens, id, maxTokens⟩ |
        ⟨origin, queued, tokens, id, maxTokens⟩
    · rw [← tokens, ← id, ← maxTokens]
      exact inv.running old inside origin active occupant'
    · obtain ⟨⟨first, enqueued, -, budget⟩, untouched⟩ := inv.queued origin queued
      rw [tokens, ← id, ← maxTokens, ← budget]
      exact ⟨List.count_eq_zero.mpr untouched, inv.positive first enqueued⟩
  · rintro batch ⟨⟩
    have nodup : (occupants s.scheduler.nextBatch.2.slots).Nodup :=
      seated.occupants.nodup_iff.mpr seated.active_nodup
    have batch : s.scheduler.nextBatch.1.slots =
        s.scheduler.nextBatch.2.slots.filter fun slot => !slot.isFree := rfl
    refine ⟨Scheduler.current_nextBatch inv.seated, ?_, ?_⟩
    · intro slot member
      rw [batch] at member
      have taken := (List.mem_filter.mp member).2
      intro free
      simp [Slot.isFree, free] at taken
    · rw [batch]
      exact nodup.sublist (List.filter_sublist.filterMap _)

section Processing

variable {s : Scheduler} {batch : Batch} (seated : s.Seated) (built : Built s batch)

include built

/-- All slots of the batch are still there, so a token is counted for each of its requests. -/
theorem creditedBy_eq : s.creditedBy batch = occupants batch.slots := by
  unfold Scheduler.creditedBy occupants
  refine List.filterMap_congr fun batchSlot member => ?_
  obtain ⟨slot, inside, same, -⟩ := built.current.present batchSlot member
  rw [if_pos (List.any_eq_true.mpr ⟨slot, inside, decide_eq_true same⟩)]

include seated

theorem mem_batch_iff {slot : Slot} (member : slot ∈ s.slots) {id : UInt64}
    (occupant : slot.requestId = some id) :
    id ∈ occupants batch.slots ↔ slot.id ∈ batch.slots.map (·.id) := by
  have nodup : (occupants s.slots).Nodup :=
    seated.occupants.nodup_iff.mpr seated.active_nodup
  constructor
  · intro inside
    obtain ⟨batchSlot, there, occupant'⟩ := mem_occupants.mp inside
    obtain ⟨other, inside', same, occupant''⟩ := built.current.present batchSlot there
    obtain rfl := occupant_unique nodup member inside' occupant (occupant''.trans occupant')
    exact List.mem_map.mpr ⟨batchSlot, there, same.symm⟩
  · intro named
    obtain ⟨batchSlot, there, same⟩ := List.mem_map.mp named
    obtain ⟨other, inside', same', occupant'⟩ := built.current.present batchSlot there
    obtain rfl : slot = other :=
      List.inj_on_of_nodup_map seated.numbered.nodup member inside' (same.symm.trans same'.symm)
    exact mem_occupants.mpr ⟨batchSlot, there, occupant'.symm.trans occupant⟩

theorem batch_active {id : UInt64} (member : id ∈ occupants batch.slots) :
    id ∈ s.active.map (·.id) := by
  obtain ⟨batchSlot, there, occupant⟩ := mem_occupants.mp member
  obtain ⟨slot, inside, -, occupant'⟩ := built.current.present batchSlot there
  exact seated.occupants.mem_iff.mp
    (mem_occupants.mpr ⟨slot, inside, occupant'.trans occupant⟩)

end Processing

theorem stay_leave_perm (active : List Request) (p : Request → Bool) :
    (active.filter p ++ active.filter fun req => req ∉ active.filter p).Perm active := by
  have leave : (active.filter fun req => req ∉ active.filter p) = active.filter fun req => !p req :=
    List.filter_congr fun req member => by simp [List.mem_filter, member]
  rw [leave]
  exact List.filter_append_perm p active

/-- A token is counted for the requests of the batch, and those with their last token leave. -/
theorem inv_processResults {s : Service} (inv : s.Inv) {batch : Batch}
    (there : s.pending = some batch) :
    Inv { s with
      scheduler := s.scheduler.processResults batch
      pending := none
      credited := s.credited ++ s.scheduler.creditedBy batch
      finished := s.finished ++ (s.scheduler.active.filter fun req =>
        req ∉ (s.scheduler.processResults batch).active).map (·.id) } := by
  have built := inv.pending batch there
  have seated := Scheduler.seated_processResults inv.seated built.current
  obtain ⟨pager, processed⟩ :=
    Scheduler.processResults_spec inv.seated.numbered.nodup built.current
  rw [creditedBy_eq built]
  have counts (id : UInt64) : (s.credited ++ occupants batch.slots).count id =
      s.credited.count id + if id ∈ occupants batch.slots then 1 else 0 := by
    rw [List.count_append, built.nodup.count]
  -- Only active requests are credited, so that the others keep their counts.
  have aside {id : UInt64} (inactive : id ∉ s.scheduler.active.map (·.id)) :
      (s.credited ++ occupants batch.slots).count id = s.credited.count id := by
    rw [counts, if_neg fun inside => inactive (batch_active inv.seated built inside), Nat.add_zero]
  have once := inv.once
  unfold Service.places at once
  rw [List.append_assoc, List.append_assoc] at once
  have apart := List.disjoint_of_nodup_append once
  have apart' := List.disjoint_of_nodup_append once.of_append_right
  refine ⟨seated, ?_, inv.distinct, inv.positive, ?_, ?_, ?_, ?_, ?_, ?_, ?_⟩
  · -- The active requests are those that stay and those that leave.
    have parts : ((s.scheduler.processResults batch).active ++ s.scheduler.active.filter fun req =>
        req ∉ (s.scheduler.processResults batch).active).Perm s.scheduler.active := by
      rw [processed]
      exact stay_leave_perm _ _
    have queue : (s.scheduler.processResults batch).queue = s.scheduler.queue := by rw [processed]
    refine List.perm_iff_count.mpr fun id => ?_
    have same := List.perm_iff_count.mp inv.places id
    have parts := List.perm_iff_count.mp (parts.map (·.id)) id
    simp only [Service.places, List.count_append, List.map_append, queue] at same parts ⊢
    omega
  · intro id member
    rcases List.mem_append.mp member with old | new
    · exact inv.strangers id old
    · have active := batch_active inv.seated built new
      exact inv.places.mem_iff.mp (List.mem_append_left _ (List.mem_append_left _
        (List.mem_append_right _ active)))
  · intro req queued
    rw [processed] at queued
    obtain ⟨budget, untouched⟩ := inv.queued req queued
    refine ⟨budget, fun credited => ?_⟩
    rcases List.mem_append.mp credited with old | new
    · exact untouched old
    · exact apart (List.mem_map.mpr ⟨req, queued, rfl⟩)
        (List.mem_append_left _ (batch_active inv.seated built new))
  · intro req running
    rw [processed] at running
    exact inv.active req (List.mem_of_mem_filter running)
  · -- A slot of the batch has counted one token more, and the credit of its request as well.
    intro slot' member' req running occupant'
    rw [processed] at member' running
    obtain ⟨slot, member, rfl⟩ := List.mem_map.mp member'
    have active := List.mem_of_mem_filter running
    have occupant : slot.requestId = some req.id := by
      split at occupant'
      · rcases Scheduler.counted_requestId s.scheduler.active slot with free | same
        · exact absurd (free.symm.trans occupant') (by simp)
        · exact same.symm.trans occupant'
      · exact occupant'
    obtain ⟨count, less⟩ := inv.running slot member req active occupant
    rw [counts, count]
    by_cases named : slot.id ∈ batch.slots.map (·.id)
    · rw [if_pos ((mem_batch_iff inv.seated built member occupant).mpr named)]
      rw [if_pos named, Scheduler.counted_eq inv.seated active occupant] at occupant' ⊢
      split at occupant'
      next last => cases occupant'
      next more =>
        rw [if_neg more]
        exact ⟨rfl, Nat.lt_of_not_le more⟩
    · rw [if_neg fun inside => named ((mem_batch_iff inv.seated built member occupant).mp inside),
        if_neg named]
      exact ⟨rfl, less⟩
  · intro saved member
    have held : saved.requestId ∈ s.held.map (·.requestId) := List.mem_map.mpr ⟨saved, member, rfl⟩
    rw [aside fun active => apart' active (List.mem_append_left _ held)]
    exact inv.saved saved member
  · intro id member
    rcases List.mem_append.mp member with old | new
    · rw [aside fun active => apart' active (List.mem_append_right _ old)]
      exact inv.finished id old
    · -- A request leaves only when its slot counts the last of its tokens.
      obtain ⟨req, left, rfl⟩ := List.mem_map.mp new
      obtain ⟨active, gone⟩ := List.mem_filter.mp left
      obtain ⟨slot, inside, -, occupant⟩ := inv.seated.linked req active
      obtain ⟨count, less⟩ := inv.running slot inside req active occupant
      have gone : ¬ ∃ slot' ∈ s.scheduler.countedSlots batch, slot'.requestId = some req.id := by
        rintro ⟨slot', there', occupant'⟩
        refine of_decide_eq_true gone ?_
        rw [processed]
        exact List.mem_filter.mpr ⟨active,
          List.any_eq_true.mpr ⟨slot', there', decide_eq_true occupant'⟩⟩
      have after : _ ∈ s.scheduler.countedSlots batch := List.mem_map.mpr ⟨slot, inside, rfl⟩
      have named : slot.id ∈ batch.slots.map (·.id) := by
        by_contra unnamed
        rw [if_neg unnamed] at after
        exact gone ⟨slot, after, occupant⟩
      rw [if_pos named, Scheduler.counted_eq inv.seated active occupant] at after
      have last : req.maxTokens ≤ slot.tokensGenerated + 1 := by
        by_contra more
        rw [if_neg more] at after
        exact gone ⟨_, after, occupant⟩
      have all : slot.tokensGenerated + 1 = req.maxTokens := Nat.le_antisymm less last
      rw [counts, if_pos ((mem_batch_iff inv.seated built inside occupant).mpr named), count, all]
      exact inv.active req active
  · exact fun batch none_ => nomatch none_

theorem Budgeted.reprioritized {s : Service} (inv : s.Inv) {priority : Request → UInt8}
    {req : Request} (member : req ∈ s.scheduler.reprioritized priority) :
    s.Budgeted req.id req.maxTokens := by
  obtain ⟨old, active, rfl⟩ := List.mem_map.mp member
  exact inv.active old active

theorem inv_reprioritized {s : Service} (inv : s.Inv) (priority : Request → UInt8) :
    Inv { s with scheduler := { s.scheduler with active := s.scheduler.reprioritized priority } } := by
  refine ⟨Scheduler.seated_reprioritized inv.seated priority, ?_, inv.distinct, inv.positive,
    inv.strangers, inv.queued, fun req member => .reprioritized inv member, ?_, inv.saved,
    inv.finished, ?_⟩
  · have places := inv.places
    unfold Service.places at places ⊢
    rwa [Scheduler.reprioritized_ids]
  · intro slot member req running occupant
    obtain ⟨old, active, rfl⟩ := List.mem_map.mp running
    exact inv.running slot member old active occupant
  · intro batch there
    obtain ⟨current, occupied, nodup⟩ := inv.pending batch there
    exact ⟨⟨current.nodup, current.present⟩, occupied, nodup⟩

theorem inv_preemptLowest {s : Service} (inv : s.Inv) (idle : s.pending = none) :
    Inv { s with
      scheduler := s.scheduler.preemptLowest.2
      held := s.held ++ s.scheduler.preemptLowest.1.toList } := by
  obtain ⟨priority, kept | ⟨victimIdx, victim, before, slot, after, saved, preempted, counters,
    there, slots, occupant, saves, taken⟩⟩ := Scheduler.preemptLowest_cases inv.seated
  · rw [kept]
    simpa using inv_reprioritized inv priority
  · rw [taken]
    have inv' := inv_reprioritized inv priority
    have perm := Scheduler.eraseIdx_perm there
    have victimIn := List.mem_of_getElem? there
    have inside : slot ∈ s.scheduler.slots := by
      rw [slots]
      exact List.mem_append_right _ List.mem_cons_self
    obtain ⟨count, less⟩ := inv'.running slot inside victim victimIn occupant
    obtain ⟨numbered, distinct, waiting, linked, occupants⟩ :=
      Scheduler.seated_without inv'.seated there slots occupant
    refine ⟨⟨numbered, distinct, waiting, linked, occupants⟩, ?_, inv.distinct, inv.positive,
      inv.strangers, inv.queued, ?_, ?_, ?_, inv.finished, ?_⟩
    -- the victim goes from the running requests to those held
    · refine List.perm_iff_count.mpr fun id => ?_
      have same := List.perm_iff_count.mp inv'.places id
      have erased := List.perm_iff_count.mp (perm.map (·.id)) id
      simp only [Service.places, Scheduler.without, Option.toList_some, List.count_append,
        List.map_append, List.map_cons, List.map_nil, List.count_cons, saves.requestId,
        List.count_nil] at same erased ⊢
      omega
    · intro req member
      exact inv'.active req (perm.subset (List.mem_cons_of_mem _ member))
    · intro other member req running occupant'
      have active := perm.subset (List.mem_cons_of_mem _ running)
      refine inv'.running other ?_ req active occupant'
      rw [slots]
      refine Scheduler.mem_replaced member fun same => ?_
      rw [occupant'] at same
      cases same
    · intro other member
      rcases List.mem_append.mp member with old | new
      · exact inv.saved other old
      · obtain rfl := List.mem_singleton.mp new
        rw [saves.requestId, saves.maxTokens, saves.tokens]
        exact ⟨inv'.active victim victimIn, count, less⟩
    · intro batch pending
      rw [idle] at pending
      cases pending

theorem inv_resume {s : Service} (inv : s.Inv) {k : ℕ} {saved : SavedRequest}
    (there : s.held[k]? = some saved) (now : ℕ)
    (room : ∃ slot ∈ s.scheduler.slots, slot.isFree) :
    Inv { s with
      scheduler := s.scheduler.resume saved now
      held := s.held.eraseIdx k } := by
  have perm : (saved :: s.held.eraseIdx k).Perm s.held := by
    obtain ⟨inside, rfl⟩ := List.getElem?_eq_some_iff.mp there
    exact List.getElem_cons_eraseIdx_perm inside
  have member := List.mem_of_getElem? there
  obtain ⟨budget, count, less⟩ := inv.saved saved member
  obtain ⟨before, slot, after, resumed, req, preempted, slots, free, id, resumes, taken⟩ :=
    Scheduler.resume_eq room saved now
  have once := inv.once
  unfold Service.places at once
  have stranger : req.id ∉ (s.scheduler.queue ++ s.scheduler.active).map (·.id) := by
    intro running
    have apart := List.disjoint_of_nodup_append once.of_append_left
    rw [List.map_append] at running
    exact apart running (List.mem_map.mpr ⟨saved, member, resumes.id.symm⟩)
  have seated := Scheduler.seated_withResumed inv.seated slots free id resumes stranger
  have occupant : resumed.requestId = some req.id := resumes.occupant.trans (by rw [resumes.id])
  rw [taken]
  refine ⟨⟨seated.numbered, seated.distinct, seated.waiting, seated.linked, seated.occupants⟩, ?_,
    inv.distinct, inv.positive, inv.strangers, inv.queued, ?_, ?_, ?_, inv.finished, ?_⟩
  · refine List.perm_iff_count.mpr fun id => ?_
    have same := List.perm_iff_count.mp inv.places id
    have erased := List.perm_iff_count.mp (perm.map (·.requestId)) id
    simp only [Service.places, Scheduler.withResumed, List.count_append, List.map_append,
      List.map_cons, List.map_nil, List.count_cons, List.count_nil, resumes.id] at same erased ⊢
    omega
  · intro other running
    rcases List.mem_append.mp running with old | new
    · exact inv.active other old
    · obtain rfl := List.mem_singleton.mp new
      rwa [resumes.id, resumes.maxTokens]
  · intro other inside running active occupant'
    rcases List.mem_append.mp active with old | new
    · refine inv.running other ?_ running old occupant'
      rw [slots]
      refine Scheduler.mem_replaced inside fun same => stranger ?_
      -- The slot just taken stands for the request that is resumed.
      rw [occupant, occupant'] at same
      rw [← Option.some.inj same, List.map_append]
      exact List.mem_append_right _ (List.mem_map.mpr ⟨running, old, rfl⟩)
    · obtain rfl := List.mem_singleton.mp new
      have nodup := seated.occupants.nodup_iff.mpr seated.active_nodup
      have same : other = resumed :=
        occupant_unique nodup inside (List.mem_append_right _ List.mem_cons_self) occupant' occupant
      rw [same, resumes.tokens, resumes.id, resumes.maxTokens]
      exact ⟨count, less⟩
  · intro other inside
    exact inv.saved other (perm.subset (List.mem_cons_of_mem _ inside))
  · intro batch pending
    obtain ⟨current, occupied, nodup⟩ := inv.pending batch pending
    refine ⟨⟨current.nodup, fun batchSlot inside => ?_⟩, occupied, nodup⟩
    obtain ⟨other, there, same, occupant'⟩ := current.present batchSlot inside
    refine ⟨other, ?_, same, occupant'⟩
    refine Scheduler.mem_replaced (slots ▸ there) fun equal => ?_
    exact occupied batchSlot inside (occupant'.symm.trans (equal.trans free))

/-! ## Whole runs -/

/-- One operation in a state that admits it keeps the invariant, enqueues no request twice and
puts nobody back into the queue. -/
theorem step_spec {s t : Service} {op : ServiceOp} (inv : s.Inv) (inPlace : s.ResumesInPlace op)
    (taken : s.step op = some t) :
    t.Inv ∧ (∀ req ∈ s.enqueued, req ∈ t.enqueued) ∧
      ∀ req ∈ t.scheduler.queue, req ∈ s.scheduler.queue ∨ req.id ∉ s.enqueued.map (·.id) := by
  cases op with
  | enqueue req =>
    rw [step] at taken
    split at taken
    next new =>
      obtain rfl := Option.some.inj taken
      refine ⟨inv_enqueue inv new req.priority, fun _ old => List.mem_append_left _ old, ?_⟩
      intro other member
      rcases List.mem_append.mp member with old | last
      · exact .inl old
      · rw [List.mem_singleton.mp last]
        exact .inr new.2.2
    next => cases taken
  | enqueueWithPriority req priority =>
    rw [step] at taken
    split at taken
    next new =>
      obtain rfl := Option.some.inj taken
      refine ⟨inv_enqueue inv new priority, fun _ old => List.mem_append_left _ old, ?_⟩
      intro other member
      rcases List.mem_append.mp member with old | last
      · exact .inl old
      · rw [List.mem_singleton.mp last]
        exact .inr new.2.2
    next => cases taken
  | nextBatch =>
    obtain rfl := Option.some.inj taken
    exact ⟨inv_nextBatch inv, fun _ old => old,
      fun _ queued => .inl (Scheduler.nextBatch_waiting inv.seated queued)⟩
  | processResults =>
    obtain ⟨batch, there, result⟩ := Option.bind_eq_some_iff.mp taken
    obtain rfl := Option.some.inj result
    refine ⟨inv_processResults inv there, fun _ old => old, fun _ queued => .inl ?_⟩
    obtain ⟨pager, processed⟩ := Scheduler.processResults_spec inv.seated.numbered.nodup
      (inv.pending batch there).current
    rwa [processed] at queued
  | preemptLowest =>
    rw [step] at taken
    split at taken
    next => cases taken
    next idle =>
      obtain rfl := Option.some.inj taken
      refine ⟨inv_preemptLowest inv (Option.not_isSome_iff_eq_none.mp idle), fun _ old => old,
        fun req queued => .inl ?_⟩
      have queued : req ∈ s.scheduler.preemptLowest.2.queue := queued
      rwa [Scheduler.preemptLowest_queue inv.seated] at queued
  | resume k now =>
    -- A resumption in place seats the request again and does not queue it.
    obtain ⟨saved, there, result⟩ := Option.bind_eq_some_iff.mp taken
    obtain rfl := Option.some.inj result
    refine ⟨inv_resume inv there now inPlace, fun _ old => old, fun _ queued => .inl ?_⟩
    obtain ⟨before, slot, after, resumed, req, preempted, -, -, -, -, result⟩ :=
      Scheduler.resume_eq inPlace saved now
    rwa [result] at queued

theorem leavesWhenDone_step {s t : Service} {op : ServiceOp} (inv : s.Inv)
    (inPlace : s.ResumesInPlace op) (taken : s.step op = some t) : s.LeavesWhenDone op t := by
  obtain ⟨inv', more, queued⟩ := step_spec inv inPlace taken
  intro req active
  have once := inv.once
  have once' := inv'.once
  unfold Service.places at once once'
  have id : req.id ∈ s.scheduler.active.map (·.id) := List.mem_map.mpr ⟨req, active, rfl⟩
  obtain ⟨first, enqueued, same, budget⟩ := inv.active req active
  constructor
  · intro gone
    have somewhere : req.id ∈ t.places := by
      refine inv'.places.mem_iff.mpr (List.mem_map.mpr ⟨first, more first enqueued, same⟩)
    rcases List.mem_append.mp somewhere with unfinished | done
    · rcases List.mem_append.mp unfinished with running | held
      · rcases List.mem_append.mp running with waiting | running
        · -- Nobody goes back into the queue.
          obtain ⟨other, inside, equal⟩ := List.mem_map.mp waiting
          rcases queued other inside with old | stranger
          · have apart := List.disjoint_of_nodup_append once.of_append_left.of_append_left
            exact absurd id (apart (List.mem_map.mpr ⟨other, old, equal⟩))
          · exact absurd (List.mem_map.mpr ⟨first, enqueued, same.trans equal.symm⟩) stranger
        · exact absurd running gone
      · exact .inr held
    · obtain ⟨other, inside, equal, count⟩ := inv'.finished req.id done
      rw [← count, ← budget,
        inv'.enqueued_unique inside (more first enqueued) (equal.trans same.symm)]
      exact .inl rfl
  · intro done still
    obtain ⟨other, running, equal⟩ := List.mem_map.mp still
    rcases done with all | held
    · have less := inv'.active_count running
      obtain ⟨second, enqueued', same', budget'⟩ := inv'.active other running
      have one : second = first := inv'.enqueued_unique enqueued' (more first enqueued)
        (same'.trans (equal.trans same.symm))
      rw [equal, all, ← budget', one, budget] at less
      exact lt_irrefl _ less
    · have apart := List.disjoint_of_nodup_append once'.of_append_left
      exact apart (List.mem_append_right _ still) held

/-- In every run in which requests are resumed while a slot is free, no request is credited with
more than its tokens, lost or in two places, and a request leaves the active set exactly with
its last token or by preemption. -/
theorem progressLaw_of_resumesInPlace (config : SchedulerConfig)
    (profile : Option ComputeRouteProfile) (pager : Option Memory.PagedIosurfaceAllocator)
    (ops : List ServiceOp)
    (inPlace : Runs.Guarded step ResumesInPlace (start config profile pager) ops) :
    Runs.Always step ProgressLaw (start config profile pager) ops ∧
      Runs.Throughout step LeavesWhenDone (start config profile pager) ops := by
  obtain ⟨always, throughout⟩ := Runs.throughout_of_guarded step
    (fun s op t inv inPlace taken =>
      ⟨(step_spec inv inPlace taken).1, leavesWhenDone_step inv inPlace taken⟩)
    (inv_start config profile pager) inPlace
  exact ⟨Runs.always_mono step (fun s inv => inv.progressLaw) always, throughout⟩

def oneSlot : SchedulerConfig where
  maxBatchSize := 1
  maxPrefillBatch := 1
  defaultBackendId := 0
  kvCachePagesPerSlot := 1

def request (id : UInt64) (maxTokens : ℕ) : Request where
  id := id
  prompt := [1, 2, 3]
  maxTokens := maxTokens
  priority := 128
  state := .queued
  createdAt := 0
  slot := none

/-- A request is preempted, resumed into its slot and finished. -/
theorem progressLaw_resumedInPlace :
    Runs.Always step ProgressLaw (start oneSlot none none)
        [.enqueue (request 1 2), .nextBatch, .processResults, .preemptLowest, .resume 0 5,
          .nextBatch, .processResults] ∧
      Runs.Throughout step LeavesWhenDone (start oneSlot none none)
        [.enqueue (request 1 2), .nextBatch, .processResults, .preemptLowest, .resume 0 5,
          .nextBatch, .processResults] :=
  progressLaw_of_resumesInPlace oneSlot none none _ (by decide)

/-- Another request has taken the only slot, so the first starts over and is credited with a
third token. -/
theorem fullResume_credits_too_much :
    ∃ s, Runs.exec step (start oneSlot none none)
        [.enqueue (request 1 2), .nextBatch, .processResults, .preemptLowest,
          .enqueue (request 2 1), .nextBatch, .resume 0 5, .processResults, .nextBatch,
          .processResults, .nextBatch, .processResults] = some s ∧
      ¬ s.ProgressLaw := by
  refine ⟨_, rfl, fun law => ?_⟩
  have enqueued := law.bounded (request 1 2) (by decide)
  exact absurd enqueued (by decide)

end Service

end TribunusCompute.Scheduling
