import TribunusCompute.Scheduling.Progress

/-!
# How long the KV cache of a slot is

A caller that alternates `next_batch` and `process_results`, with requests enqueued in
between. A turn that admits a request prefills it and leaves the KV caches of the other
slots as they are, and yet their tokens are counted.
-/
namespace TribunusCompute.Scheduling

namespace Scheduler

/-- A request as `Request::new` builds it, with an id that no other request has. -/
def Fresh (s : Scheduler) (req : Request) : Prop :=
  req.slot = none ∧ req.id ∉ (s.queue ++ s.active).map (·.id)

instance (s : Scheduler) (req : Request) : Decidable (s.Fresh req) :=
  inferInstanceAs (Decidable (_ ∧ _))

def enqueueFresh (s : Scheduler) (req : Request) : Option Scheduler :=
  if s.Fresh req then some (s.enqueue req) else none

/-- A turn builds a batch and processes it; the requests are those enqueued while it runs. -/
inductive TurnOp
  | enqueue (request : Request)
  | enqueueWithPriority (request : Request) (priority : UInt8)
  | turn (during : List Request)
  deriving DecidableEq, Repr

def turn (s : Scheduler) : TurnOp → Option Scheduler
  | .enqueue request => s.enqueueFresh request
  | .enqueueWithPriority request priority =>
    if s.Fresh request then some (s.enqueueWithPriority request priority) else none
  | .turn during => do
    let (batch, s) := s.nextBatch
    let s ← Runs.exec enqueueFresh s during
    some (s.processResults batch)

/-- The cache of an occupied slot holds the prompt and all generated tokens but the last. -/
def KvLaw (s : Scheduler) : Prop :=
  ∀ slot ∈ s.slots, ∀ id, slot.requestId = some id →
    ∃ req ∈ s.active, req.id = id ∧
      slot.kvCacheLength + 1 = req.prompt.length + slot.tokensGenerated

/-- A turn that admits a request finds every request in a slot on its last token. -/
def AdmitsOnLastTokens (s : Scheduler) : TurnOp → Prop
  | .turn _ => s.Admits → ∀ slot ∈ s.slots, ∀ req ∈ s.active, slot.requestId = some req.id →
      req.maxTokens ≤ slot.tokensGenerated + 1
  | _ => True

instance (s : Scheduler) (op : TurnOp) : Decidable (s.AdmitsOnLastTokens op) :=
  match op with
  | .turn _ => inferInstanceAs <| Decidable <|
      s.Admits → ∀ slot ∈ s.slots, ∀ req ∈ s.active, slot.requestId = some req.id →
        req.maxTokens ≤ slot.tokensGenerated + 1
  | .enqueue _ | .enqueueWithPriority _ _ => isTrue trivial

/-! ## One turn -/

theorem turn_eq (s : Scheduler) (during : List Request) :
    s.turn (.turn during) =
      (Runs.exec enqueueFresh s.nextBatch.2 during).map (·.processResults s.nextBatch.1) := by
  rw [turn, Option.map_eq_bind]
  rfl

/-- A slot of a batch will have the right length once its token is counted, unless that token
is the last. -/
def Due (s : Scheduler) : Prop :=
  ∀ slot ∈ s.slots, ∀ req ∈ s.active, slot.requestId = some req.id →
    req.maxTokens ≤ slot.tokensGenerated + 1 ∨
      slot.kvCacheLength = req.prompt.length + slot.tokensGenerated

theorem Seated.occupant_active {s : Scheduler} (seated : s.Seated) {slot : Slot}
    (member : slot ∈ s.slots) {id : UInt64} (occupant : slot.requestId = some id) :
    ∃ req ∈ s.active, req.id = id :=
  List.mem_map.mp (seated.occupants.mem_iff.mp (mem_occupants.mpr ⟨slot, member, occupant⟩))

theorem Seated.active_unique {s : Scheduler} (seated : s.Seated) {a b : Request}
    (memberA : a ∈ s.active) (memberB : b ∈ s.active) (same : a.id = b.id) : a = b :=
  List.inj_on_of_nodup_map seated.active_nodup memberA memberB same

theorem kvLaw_of_seated {s : Scheduler} (seated : s.Seated) :
    s.KvLaw ↔ ∀ slot ∈ s.slots, ∀ req ∈ s.active, slot.requestId = some req.id →
      slot.kvCacheLength + 1 = req.prompt.length + slot.tokensGenerated := by
  constructor
  · intro law slot member req active occupant
    obtain ⟨other, active', same, length⟩ := law slot member req.id occupant
    obtain rfl := seated.active_unique active active' same.symm
    exact length
  · intro lengths slot member id occupant
    obtain ⟨req, active, rfl⟩ := seated.occupant_active member occupant
    exact ⟨req, active, rfl, lengths slot member req active occupant⟩

/-- Building a batch makes every slot due exactly if it admits nobody too early. -/
theorem due_nextBatch_iff {s : Scheduler} (seated : s.Seated) (law : s.KvLaw)
    (during : List Request) : s.nextBatch.2.Due ↔ s.AdmitsOnLastTokens (.turn during) := by
  have lengths := (kvLaw_of_seated seated).mp law
  obtain ⟨new, queue, admits, -, ⟨rfl, active, slots⟩ | ⟨some_, count, filled⟩⟩ :=
    nextBatch_cases seated
  · -- Nobody is admitted, and all caches grow by one.
    refine iff_of_true ?_ fun admitted => absurd admitted (admits.mp rfl)
    intro slot member req running occupant
    rw [slots] at member
    rw [active] at running
    obtain ⟨old, inside, rfl⟩ := List.mem_map.mp member
    split at occupant
    next free => simp [Slot.isFree, occupant] at free
    next taken =>
      rw [if_neg taken]
      exact .inr (lengths old inside req running occupant)
  · have admitted : s.Admits := by
      by_contra refused
      exact some_ (admits.mpr refused)
    -- a slot names its request by the id
    have nodup : ((s.active ++ new).map (·.id)).Nodup := by
      have distinct := (nextBatch_request_ids seated).nodup_iff.mpr seated.distinct
      rw [List.map_append, filled.request_ids] at distinct
      exact distinct.of_append_right
    constructor
    · -- An occupied slot stays as it was, so it is due only with its last token.
      intro due _ slot member req running occupant
      obtain ⟨seat, -, named, -⟩ := seated.linked req running
      have member' := filled.occupied_stays (List.mem_append_left _ member) (by simp [occupant])
      have running' := filled.seated_stays (List.mem_append_left _ running) (by simp [named])
      have length := lengths slot member req running occupant
      rcases due slot member' req running' occupant with last | length'
      · exact last
      · omega
    · intro early slot member req running occupant
      obtain ⟨origin, before, same, -⟩ := filled.request_origin running
      have id : origin.id = req.id := by rw [same]
      have prompt : origin.prompt = req.prompt := by rw [same]
      have maxTokens : origin.maxTokens = req.maxTokens := by rw [same]
      rcases filled.slot_origin member with old | ⟨started, inside, -, starts⟩
      -- an occupied slot was there before, and its request is at its last token
      · have old : slot ∈ s.slots := by
          rcases isFree_addSlots old with old | free
          · exact old
          · exact absurd (free.symm.trans occupant) (by simp)
        obtain ⟨req', running', id'⟩ := seated.occupant_active old occupant
        obtain rfl : req' = origin := List.inj_on_of_nodup_map nodup
          (List.mem_append_left _ running') before (id'.trans id.symm)
        left
        rw [← maxTokens]
        exact early admitted slot old req' running' (occupant.trans (congrArg some id.symm))
      · -- A slot that starts a request is due.
        have id' : started.id = req.id := Option.some.inj (starts.occupant.symm.trans occupant)
        obtain rfl : started = origin := List.inj_on_of_nodup_map nodup inside before
          (id'.trans id.symm)
        right
        rw [starts.length, starts.tokens, prompt, Nat.add_zero]

/-- Processing a batch of all occupied slots gives the law exactly if every slot was due. -/
theorem kvLaw_processResults_iff {s : Scheduler} (seated : s.Seated) {batch : Batch}
    (current : s.Current batch.slots)
    (whole : ∀ slot ∈ s.slots, slot.requestId ≠ none → slot.id ∈ batch.slots.map (·.id)) :
    (s.processResults batch).KvLaw ↔ s.Due := by
  have seated' := seated_processResults seated current
  rw [kvLaw_of_seated seated']
  obtain ⟨pager, processed⟩ := processResults_spec seated.numbered.nodup current
  have counted {slot : Slot} (member : slot ∈ s.slots) {req : Request} (running : req ∈ s.active)
      (occupant : slot.requestId = some req.id) :
      (if slot.id ∈ batch.slots.map (·.id) then slot.counted s.active else slot) =
        if req.maxTokens ≤ slot.tokensGenerated + 1 then slot.cleared
        else { slot with tokensGenerated := slot.tokensGenerated + 1 } := by
    rw [if_pos (whole slot member (by simp [occupant])), counted_eq seated running occupant]
  rw [processed]
  constructor
  -- a slot whose request ends is cleared, and any other counts one token more
  · intro lengths slot member req running occupant
    by_cases last : req.maxTokens ≤ slot.tokensGenerated + 1
    · exact .inl last
    · have inside : _ ∈ s.countedSlots batch := List.mem_map.mpr ⟨slot, member, rfl⟩
      rw [counted member running occupant, if_neg last] at inside
      have kept : req ∈ s.active.filter fun req =>
          (s.countedSlots batch).any fun slot => slot.requestId = some req.id :=
        List.mem_filter.mpr ⟨running, List.any_eq_true.mpr ⟨_, inside, decide_eq_true occupant⟩⟩
      have length := lengths _ inside req kept occupant
      right
      dsimp only at length
      omega
  · intro due slot' member' req kept occupant'
    obtain ⟨slot, member, rfl⟩ := List.mem_map.mp member'
    obtain ⟨running, -⟩ := List.mem_filter.mp kept
    have occupant : slot.requestId = some req.id := by
      split at occupant'
      · rcases counted_requestId s.active slot with free | same
        · exact absurd (free.symm.trans occupant') (by simp)
        · exact same.symm.trans occupant'
      · exact occupant'
    rw [counted member running occupant] at occupant' ⊢
    split at occupant'
    next last => cases occupant'
    next more =>
      rw [if_neg more]
      rcases due slot member req running occupant with last | length
      · exact absurd last more
      · dsimp only
        omega

theorem enqueueFresh_spec {s t : Scheduler} {req : Request} (enqueued : s.enqueueFresh req = some t) :
    s.Fresh req ∧ t = s.enqueue req := by
  unfold enqueueFresh at enqueued
  split at enqueued
  next fresh => exact ⟨fresh, (Option.some.inj enqueued).symm⟩
  next => cases enqueued

theorem seated_enqueue {s : Scheduler} (seated : s.Seated) {req : Request} (fresh : s.Fresh req) :
    (s.enqueue req).Seated := by
  refine ⟨seated.numbered, ?_, ?_, seated.linked, seated.occupants⟩
  · have moved : ((s.queue ++ [req] ++ s.active).map (·.id)).Perm
        ((req :: (s.queue ++ s.active)).map (·.id)) := by
      rw [List.append_assoc]
      exact List.perm_middle.map _
    exact moved.nodup_iff.mpr (List.nodup_cons.mpr ⟨fresh.2, seated.distinct⟩)
  · intro other member
    rcases List.mem_append.mp member with old | new
    · exact seated.waiting other old
    · rw [List.mem_singleton.mp new]
      exact fresh.1

/-- A turn keeps requests in their slots, and keeps the law exactly if it admits nobody too
early. -/
theorem turn_spec {s t : Scheduler} {op : TurnOp} (seated : s.Seated) (law : s.KvLaw)
    (taken : s.turn op = some t) : t.Seated ∧ (t.KvLaw ↔ s.AdmitsOnLastTokens op) := by
  cases op with
  | enqueue req =>
    obtain ⟨fresh, rfl⟩ := enqueueFresh_spec taken
    exact ⟨seated_enqueue seated fresh, iff_of_true law trivial⟩
  | enqueueWithPriority req priority =>
    rw [turn] at taken
    split at taken
    next fresh =>
      obtain rfl := Option.some.inj taken
      have seated' : (s.enqueue { req with priority := priority }).Seated :=
        seated_enqueue seated fresh
      exact ⟨seated', iff_of_true law trivial⟩
    next => cases taken
  | turn during =>
    rw [turn_eq] at taken
    obtain ⟨u, enqueued, rfl⟩ := Option.map_eq_some_iff.mp taken
    -- What is enqueued while the batch runs waits in the queue.
    have kept : u.Seated ∧ u.slots = s.nextBatch.2.slots ∧ u.active = s.nextBatch.2.active := by
      refine Runs.exec_keeps _ (P := fun u : Scheduler => u.Seated ∧
        u.slots = s.nextBatch.2.slots ∧ u.active = s.nextBatch.2.active) ?_
        ⟨seated_nextBatch seated, rfl, rfl⟩ enqueued
      rintro v req - w ⟨seated, slots, active⟩ taken
      obtain ⟨fresh, rfl⟩ := enqueueFresh_spec taken
      exact ⟨seated_enqueue seated fresh, slots, active⟩
    obtain ⟨seated', slots, active⟩ := kept
    have built := current_nextBatch seated
    have current : u.Current s.nextBatch.1.slots := ⟨built.nodup, slots ▸ built.present⟩
    refine ⟨seated_processResults seated' current, ?_⟩
    rw [kvLaw_processResults_iff seated' current, ← due_nextBatch_iff seated law during]
    · unfold Due
      rw [slots, active]
    · intro slot member occupied
      rw [slots] at member
      refine List.mem_map.mpr ⟨slot, List.mem_filter.mpr ⟨member, ?_⟩, rfl⟩
      simpa [Slot.isFree, Option.isSome_iff_ne_none] using occupied

theorem kvLaw_iff_of_seated {s t : Scheduler} {ops : List TurnOp} (seated : s.Seated)
    (law : s.KvLaw) (run : Runs.exec turn s ops = some t) :
    Runs.Always turn KvLaw s ops ↔ Runs.Guarded turn AdmitsOnLastTokens s ops := by
  refine Runs.always_iff_guarded turn (I := fun s : Scheduler => s.Seated ∧ s.KvLaw)
    (fun s inv => inv.2) ?_ ?_ ⟨seated, law⟩ run
  · rintro s op t ⟨seated, law⟩ admitted taken
    obtain ⟨seated', iff_⟩ := turn_spec seated law taken
    exact ⟨seated', iff_.mpr admitted⟩
  · rintro s op t ⟨seated, law⟩ taken law'
    exact (turn_spec seated law taken).2.mp law'

theorem kvLaw_start (config : SchedulerConfig) (profile : Option ComputeRouteProfile)
    (pager : Option Memory.PagedIosurfaceAllocator) : (start config profile pager).KvLaw := by
  intro slot member id occupant
  obtain ⟨req, active, -⟩ :=
    (seated_start config profile pager).occupant_active member occupant
  cases active

/-- In every run of turns, the KV lengths never drift exactly if each turn that admits a request
finds the others on their last tokens. -/
theorem kvLaw_iff_admitsOnLastTokens (config : SchedulerConfig)
    (profile : Option ComputeRouteProfile) (pager : Option Memory.PagedIosurfaceAllocator)
    (ops : List TurnOp) (t : Scheduler)
    (run : Runs.exec turn (start config profile pager) ops = some t) :
    Runs.Always turn KvLaw (start config profile pager) ops ↔
      Runs.Guarded turn AdmitsOnLastTokens (start config profile pager) ops :=
  kvLaw_iff_of_seated (seated_start config profile pager) (kvLaw_start config profile pager) run

def twoSlots : SchedulerConfig where
  maxBatchSize := 2
  maxPrefillBatch := 2
  defaultBackendId := 0
  kvCachePagesPerSlot := 1

def promptOfThree (id : UInt64) (maxTokens : ℕ) : Request where
  id := id
  prompt := [1, 2, 3]
  maxTokens := maxTokens
  priority := 0
  state := .queued
  createdAt := 0
  slot := none

/-- The second request is admitted when the first is on its last token. -/
theorem kvLaw_admittedInTime :
    Runs.Always turn KvLaw (start twoSlots none none)
      [.enqueue (promptOfThree 1 2), .turn [promptOfThree 2 4], .turn [], .turn []] := by
  have runs : (Runs.exec turn (start twoSlots none none)
      [.enqueue (promptOfThree 1 2), .turn [promptOfThree 2 4], .turn [],
        .turn []]).isSome = true := by decide
  obtain ⟨t, run⟩ := Option.isSome_iff_exists.mp runs
  exact (kvLaw_iff_admitsOnLastTokens twoSlots none none _ t run).mpr (by decide)

/-- The second request is admitted in the midst of the first. -/
theorem admission_lets_kvLength_drift :
    ¬ Runs.Always turn KvLaw (start twoSlots none none)
      [.enqueue (promptOfThree 1 4), .turn [promptOfThree 2 4], .turn []] := by
  have runs : (Runs.exec turn (start twoSlots none none)
      [.enqueue (promptOfThree 1 4), .turn [promptOfThree 2 4], .turn []]).isSome = true := by
    decide
  obtain ⟨t, run⟩ := Option.isSome_iff_exists.mp runs
  rw [kvLaw_iff_of_seated (seated_start twoSlots none none) (kvLaw_start twoSlots none none) run]
  decide

end Scheduler

end TribunusCompute.Scheduling
