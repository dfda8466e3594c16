import TribunusCompute.Library.TieOrder
import TribunusCompute.Scheduling.Scheduler

/-!
# In which order requests are admitted

`next_batch` sorts the queue by ascending priority value and takes requests from its
end, so the least urgent are admitted first, and of those with one priority the last.
A request is followed by its position in the queue.
-/
namespace TribunusCompute.Scheduling.Scheduler

/-- The queued requests with their positions, in the order in which polls take them. -/
def admissionOrder (queue : List Request) : List (Request × ℕ) :=
  (queue.zipIdx.insertionSort fun a b => a.1.priority ≤ b.1.priority).reverse

def room (s : Scheduler) : ℕ :=
  min s.config.maxBatchSize s.config.maxPrefillBatch - s.active.length

def admitted (s : Scheduler) : List (Request × ℕ) := (admissionOrder s.queue).take s.room

def remaining (s : Scheduler) : List (Request × ℕ) := (admissionOrder s.queue).drop s.room

/-- No request is left behind for a less urgent one, and of two with one priority the one that
was enqueued earlier is admitted first. -/
structure AdmitsByUrgency (s : Scheduler) : Prop where
  urgent : ∀ a ∈ s.admitted, ∀ b ∈ s.remaining, a.1.priority ≤ b.1.priority
  earliest : ∀ a ∈ s.queue.zipIdx, ∀ b ∈ s.queue.zipIdx, a.1.priority = b.1.priority →
    a.2 < b.2 → b ∈ s.admitted → [a, b].Sublist s.admitted

/-! ## What the poll moves -/

theorem admissionOrder_requests (queue : List Request) :
    (admissionOrder queue).map Prod.fst = (sortQueue queue).reverse := by
  -- the positions take no part in the comparison
  have sorted : (queue.zipIdx.insertionSort fun a b => a.1.priority ≤ b.1.priority).map Prod.fst =
      (queue.zipIdx.map Prod.fst).insertionSort fun a b => a.priority ≤ b.priority :=
    List.map_insertionSort _ _ _ _ fun _ _ _ _ => Iff.rfl
  rw [admissionOrder, List.map_reverse, sorted, List.zipIdx_map_fst]
  rfl

theorem poll_eq (config : SchedulerConfig) (queue active : List Request) :
    poll config queue active =
      (queue.drop (min config.maxBatchSize config.maxPrefillBatch - active.length),
        active ++ queue.take (min config.maxBatchSize config.maxPrefillBatch - active.length)) := by
  induction queue generalizing active with
  | nil => simp [poll]
  | cons req queue ih =>
    rw [poll]
    split
    next may =>
      -- With this request active there is room for one less.
      obtain ⟨room, more⟩ : ∃ room, min config.maxBatchSize config.maxPrefillBatch -
          active.length = room + 1 := Nat.exists_eq_succ_of_ne_zero (by omega)
      have less : min config.maxBatchSize config.maxPrefillBatch - (active ++ [req]).length =
          room := by
        rw [List.length_append, List.length_singleton]
        omega
      rw [ih, less, more]
      simp
    next full =>
      have none_ : min config.maxBatchSize config.maxPrefillBatch - active.length = 0 := by omega
      rw [none_]
      simp

def unseated (req : Request) : Request := { req with slot := none }

theorem prefill_unseated (config : SchedulerConfig) (profile : Option ComputeRouteProfile)
    (pager : Option Memory.PagedIosurfaceAllocator) (slots : List Slot) (reqs : List Request) :
    (prefill config profile pager slots reqs).1.map unseated = reqs.map unseated := by
  induction reqs generalizing pager slots with
  | nil => rfl
  | cons req reqs ih =>
    have seat : unseated (assignSlot config profile pager slots req).1 = unseated req := by
      unfold assignSlot
      split
      · split <;> rfl
      · rfl
    rw [prefill]
    simp only [List.map_cons, ih, seat]

/-- The next batch leaves what is left in the queue, and appends what is admitted to the active
requests, where a prefill only gives slots. -/
theorem nextBatch_moves (s : Scheduler) :
    s.nextBatch.2.queue = (s.remaining.map Prod.fst).reverse ∧
      s.nextBatch.2.active.map unseated = (s.active ++ s.admitted.map Prod.fst).map unseated := by
  have polled := poll_eq s.config (sortQueue s.queue).reverse s.active
  rw [← admissionOrder_requests, ← List.map_drop, ← List.map_take] at polled
  have admitted_ : s.admitted = (admissionOrder s.queue).take
    (min s.config.maxBatchSize s.config.maxPrefillBatch - s.active.length) := rfl
  have remaining_ : s.remaining = (admissionOrder s.queue).drop
    (min s.config.maxBatchSize s.config.maxPrefillBatch - s.active.length) := rfl
  rw [← admitted_, ← remaining_, admissionOrder_requests] at polled
  -- Neither a prefill, where a request has no slot, nor a decode touches the queue.
  unfold nextBatch
  rw [polled]
  dsimp only
  split
  · exact ⟨rfl, prefill_unseated _ _ _ _ _⟩
  · exact ⟨rfl, rfl⟩

/-- The queue keeps those it keeps of one priority in the order in which they were enqueued. -/
theorem nextBatch_keeps_order (s : Scheduler) (priority : UInt8) :
    s.nextBatch.2.queue.filter (·.priority = priority) <+:
      s.queue.filter (·.priority = priority) := by
  -- the sort is stable, and what the batch leaves is its front part
  have tied : (sortQueue s.queue).filter (·.priority = priority) =
      s.queue.filter (·.priority = priority) := by
    refine StableSort.filter_insertionSort _ _ fun a _ b _ here there => ?_
    rw [of_decide_eq_true here, of_decide_eq_true there]
    exact UInt8.le_refl _
  have kept : s.nextBatch.2.queue <+: sortQueue s.queue := by
    rw [(nextBatch_moves s).1, remaining, ← List.reverse_suffix, List.reverse_reverse,
      ← admissionOrder_requests]
    exact (List.drop_suffix _ _).map _
  exact tied ▸ kept.filter _

/-! ## Admission -/

theorem pairwise_zipIdx (queue : List Request) : queue.zipIdx.Pairwise fun a b => a.2 < b.2 := by
  have ascend : (queue.zipIdx.map Prod.snd).Pairwise (· < ·) := by
    rw [List.zipIdx_map_snd]
    exact List.pairwise_lt_range'
  exact List.pairwise_map.mp ascend

/-- Of two requests the one taken first has the greater priority value or, in a tie, the later
position. -/
theorem pairwise_admissionOrder (queue : List Request) :
    (admissionOrder queue).Pairwise fun a b =>
      b.1.priority ≤ a.1.priority ∧ (a.1.priority ≤ b.1.priority → b.2 < a.2) := by
  have total : Std.Total fun a b : Request × ℕ => a.1.priority ≤ b.1.priority :=
    ⟨fun a b => UInt8.le_total a.1.priority b.1.priority⟩
  have trans_ : IsTrans (Request × ℕ) fun a b => a.1.priority ≤ b.1.priority :=
    ⟨fun _ _ _ first then_ => UInt8.le_trans first then_⟩
  exact List.pairwise_reverse.mpr (StableSort.pairwise_insertionSort (pairwise_zipIdx queue))

theorem mem_admissionOrder {queue : List Request} {a : Request × ℕ} :
    a ∈ admissionOrder queue ↔ a ∈ queue.zipIdx := by
  rw [admissionOrder, List.mem_reverse, List.mem_insertionSort]

theorem nodup_admissionOrder (queue : List Request) : (admissionOrder queue).Nodup := by
  refine (List.reverse_perm _).nodup_iff.mpr ((List.perm_insertionSort _ _).nodup_iff.mpr ?_)
  refine (pairwise_zipIdx queue).imp ?_
  rintro a b before rfl
  exact absurd before (Nat.lt_irrefl _)

theorem eq_of_position {queue : List Request} {a b : Request × ℕ} (here : a ∈ queue.zipIdx)
    (there : b ∈ queue.zipIdx) (same : a.2 = b.2) : a = b := by
  rw [List.mem_zipIdx_iff_getElem?] at here there
  rw [same, there] at here
  exact Prod.ext (Option.some.inj here).symm same

theorem nodup_priorities_iff (queue : List Request) :
    (queue.map (·.priority)).Nodup ↔
      ∀ a ∈ queue.zipIdx, ∀ b ∈ queue.zipIdx, a.1.priority = b.1.priority → ¬ a.2 < b.2 := by
  have tagged : queue.map (·.priority) = queue.zipIdx.map (·.1.priority) :=
    calc queue.map (·.priority) = (queue.zipIdx.map Prod.fst).map (·.priority) := by
          rw [List.zipIdx_map_fst]
      _ = queue.zipIdx.map (·.1.priority) := List.map_map
  rw [tagged]
  constructor
  · intro distinct a here b there same before
    have equal : a = b := List.inj_on_of_nodup_map distinct here there same
    exact absurd before (equal ▸ Nat.lt_irrefl _)
  · intro apart
    have distinct : queue.zipIdx.Nodup :=
      (List.perm_insertionSort _ _).nodup_iff.mp
        ((List.reverse_perm _).nodup_iff.mp (nodup_admissionOrder queue))
    -- neither position is before the other
    refine distinct.map_on fun a here b there same => eq_of_position here there ?_
    have first := apart a here b there same
    have second := apart b there a here same.symm
    omega

theorem length_admissionOrder (queue : List Request) :
    (admissionOrder queue).length = queue.length := by
  rw [admissionOrder, List.length_reverse, List.length_insertionSort, List.length_zipIdx]

theorem admitted_append_remaining (s : Scheduler) :
    s.admitted ++ s.remaining = admissionOrder s.queue :=
  List.take_append_drop _ _

/-- Whoever is left behind is at least as urgent as whoever is admitted, and earlier in a tie, so
that admission by urgency leaves nobody behind. -/
theorem AdmitsByUrgency.whole {s : Scheduler} (law : s.AdmitsByUrgency) (some_ : s.room ≠ 0) :
    s.queue.length ≤ s.room := by
  by_contra beyond
  have all := length_admissionOrder s.queue
  -- someone is admitted and someone is left behind
  obtain ⟨a, taken⟩ : ∃ a, a ∈ s.admitted := by
    refine List.exists_mem_of_length_pos ?_
    rw [admitted, List.length_take, all]
    omega
  obtain ⟨b, kept⟩ : ∃ b, b ∈ s.remaining := by
    refine List.exists_mem_of_length_pos ?_
    rw [remaining, List.length_drop, all]
    omega
  have order := pairwise_admissionOrder s.queue
  have distinct := nodup_admissionOrder s.queue
  have inQueue {c : Request × ℕ} (member : c ∈ s.admitted ++ s.remaining) : c ∈ s.queue.zipIdx :=
    mem_admissionOrder.mp (s.admitted_append_remaining ▸ member)
  rw [← admitted_append_remaining] at order distinct
  obtain ⟨least, tie⟩ := (List.pairwise_append.mp order).2.2 a taken b kept
  -- The law makes the two a tie, and in a tie it wants `b` admitted before `a`.
  have urgent := law.urgent a taken b kept
  have first := law.earliest b (inQueue (List.mem_append_right _ kept)) a
    (inQueue (List.mem_append_left _ taken)) (UInt8.le_antisymm least urgent) (tie urgent) taken
  exact List.disjoint_of_nodup_append distinct (first.subset List.mem_cons_self) kept

/-- Of two with one priority the later is admitted first, so there are no such two where all are
admitted by urgency. -/
theorem AdmitsByUrgency.different {s : Scheduler} (law : s.AdmitsByUrgency)
    (whole : s.queue.length ≤ s.room) : (s.queue.map (·.priority)).Nodup := by
  have taken : s.admitted = admissionOrder s.queue :=
    List.take_of_length_le ((length_admissionOrder s.queue).trans_le whole)
  rw [nodup_priorities_iff]
  intro a here b there same before
  -- the law wants the earlier first, and the order of admission has the later first
  have first := law.earliest a here b there same before (taken ▸ mem_admissionOrder.mpr there)
  rw [taken] at first
  have pair := (pairwise_admissionOrder s.queue).sublist first
  have back := (List.pairwise_cons.mp pair).1 b List.mem_cons_self
  exact absurd (back.2 (same ▸ UInt8.le_refl _)) (Nat.not_lt.mpr before.le)

/-- What is admitted is the most urgent part of the queue, the earliest first, exactly if nothing
is admitted, or everything is and no two requests have the same priority. -/
theorem admitsByUrgency_iff (s : Scheduler) :
    s.nextBatch.2.queue = (s.remaining.map Prod.fst).reverse ∧
      s.nextBatch.2.active.map unseated = (s.active ++ s.admitted.map Prod.fst).map unseated ∧
      (s.AdmitsByUrgency ↔
        s.room = 0 ∨ s.queue.length ≤ s.room ∧ (s.queue.map (·.priority)).Nodup) := by
  refine ⟨(nextBatch_moves s).1, (nextBatch_moves s).2, ?_⟩
  constructor
  · intro law
    rw [or_iff_not_imp_left]
    intro some_
    exact ⟨law.whole some_, law.different (law.whole some_)⟩
  · rintro (none_ | ⟨whole, different⟩)
    · -- Both parts of the law are about admitted requests.
      have nobody : s.admitted = [] := by
        rw [admitted, none_, List.take_zero]
      exact ⟨by simp [nobody], by simp [nobody]⟩
    · have nobody : s.remaining = [] :=
        List.drop_of_length_le ((length_admissionOrder s.queue).trans_le whole)
      rw [nodup_priorities_iff] at different
      exact ⟨by simp [nobody], fun a here b there same before =>
        absurd before (different a here b there same)⟩

/-- Two requests of the highest and the lowest priority, with room for one. -/
def contested : Scheduler :=
  ((new config).enqueueWithPriority (request 1) 0).enqueueWithPriority (request 2) 255
where
  config : SchedulerConfig :=
    { maxBatchSize := 1, maxPrefillBatch := 1, defaultBackendId := 0, kvCachePagesPerSlot := 1 }
  request (id : UInt64) : Request :=
    { id := id
      prompt := [5]
      maxTokens := 4
      priority := 128
      state := .queued
      createdAt := 0
      slot := none }

/-- The request of the lowest priority is admitted, that of the highest stays in the queue. -/
theorem lowest_priority_admitted_first :
    contested.nextBatch.2.active.map (·.priority) = [255] ∧
      contested.nextBatch.2.queue.map (·.priority) = [0] ∧ ¬ contested.AdmitsByUrgency := by
  refine ⟨rfl, rfl, fun law => ?_⟩
  exact absurd (law.urgent _ List.mem_cons_self _ List.mem_cons_self) (by decide)

end TribunusCompute.Scheduling.Scheduler
