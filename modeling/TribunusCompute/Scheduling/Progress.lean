import TribunusCompute.Scheduling.PageOwnership

/-!
# What a step does to slots and requests

One lemma for each loop of the scheduler: which requests are polled, which slots a
prefill fills, and what processing a batch does to the slots in it.
-/
namespace TribunusCompute.Scheduling

/-- Slots carry their position as id. -/
def Numbered (slots : List Slot) : Prop := slots.map (·.id) = List.range slots.length

theorem Numbered.nodup {slots : List Slot} (numbered : Numbered slots) :
    (slots.map (·.id)).Nodup :=
  numbered ▸ List.nodup_range

theorem Numbered.of_ids {slots slots' : List Slot} (numbered : Numbered slots)
    (same : slots'.map (·.id) = slots.map (·.id)) : Numbered slots' := by
  have length := congrArg List.length same
  rw [List.length_map, List.length_map] at length
  rw [Numbered, same, numbered, length]

theorem Numbered.addSlots {slots : List Slot} (numbered : Numbered slots) (count : ℕ) :
    Numbered (Scheduler.addSlots slots count) := by
  unfold Numbered Scheduler.addSlots at *
  rw [List.map_append, numbered, List.length_append, List.length_map, List.length_range,
    List.range_add, List.map_map]
  rfl

theorem numbered_new (config : SchedulerConfig) : Numbered (Scheduler.new config).slots := by
  simp only [Numbered, Scheduler.new, List.map_map, List.length_map, List.length_range]
  exact List.map_id _

def occupants (slots : List Slot) : List UInt64 := slots.filterMap (·.requestId)

theorem occupants_split (before after : List Slot) (slot : Slot) :
    (occupants (before ++ slot :: after)).Perm
      (slot.requestId.toList ++ occupants (before ++ after)) := by
  unfold occupants
  rw [List.filterMap_append, List.filterMap_append]
  cases occupant : slot.requestId with
  | none => simp [occupant]
  | some id =>
    simp only [List.filterMap_cons, occupant, Option.toList_some, List.singleton_append]
    exact List.perm_middle

namespace Slot

def counted (active : List Request) (slot : Slot) : Slot :=
  match slot.requestId with
  | none => slot
  | some requestId =>
    let slot := { slot with tokensGenerated := slot.tokensGenerated + 1 }
    match active.find? (·.id = requestId) with
    | some req => if req.maxTokens ≤ slot.tokensGenerated then slot.cleared else slot
    | none => slot

theorem counted_id (active : List Request) (slot : Slot) : (slot.counted active).id = slot.id := by
  unfold counted
  split
  · rfl
  · dsimp only
    split
    · split <;> rfl
    · rfl

theorem find_id {slots : List Slot} (nodup : (slots.map (·.id)).Nodup) {slot : Slot}
    (member : slot ∈ slots) {id : ℕ} (same : slot.id = id) :
    ∃ before after, find (·.id = id) slots = some (before, slot, after) := by
  cases found : find (·.id = id) slots with
  | none => exact absurd same (by simpa using find_none.mp found slot member)
  | some result =>
    obtain ⟨before, slot', after⟩ := result
    obtain ⟨rfl, here⟩ := find_some found
    have unique : slot' = slot :=
      List.inj_on_of_nodup_map nodup (by simp) member ((of_decide_eq_true here).trans same.symm)
    exact ⟨before, after, by rw [unique]⟩

end Slot

namespace Scheduler

/-! ## Processing a batch -/

/-- One slot of the batch: its slot is counted, nothing else changes but the pager. -/
theorem processSlot_spec {s : Scheduler} (nodup : (s.slots.map (·.id)).Nodup) {slot batchSlot : Slot}
    (member : slot ∈ s.slots) (same : slot.id = batchSlot.id)
    (occupant : slot.requestId = batchSlot.requestId) :
    ∃ pager, s.processSlot batchSlot =
      { s with
        slots := s.slots.map fun other =>
          if other.id = batchSlot.id then other.counted s.active else other
        kvCachePager := pager } := by
  obtain ⟨before, after, found⟩ := Slot.find_id nodup member same
  obtain ⟨split_, -⟩ := Slot.find_some found
  have others (slots : List Slot) (apart : ∀ other ∈ slots, other.id ≠ batchSlot.id) :
      slots.map (fun other => if other.id = batchSlot.id then other.counted s.active else other) =
        slots := by
    conv_rhs => rw [← List.map_id slots]
    exact List.map_congr_left fun other inside => if_neg (apart other inside)
  have nodup' := nodup
  rw [split_, List.map_append, List.map_cons, List.nodup_middle] at nodup'
  have apart := (List.nodup_cons.mp nodup').1
  rw [← List.map_append, List.mem_map, not_exists] at apart
  have slots' : s.slots.map (fun other =>
      if other.id = batchSlot.id then other.counted s.active else other) =
        before ++ slot.counted s.active :: after := by
    rw [split_, List.map_append, List.map_cons, if_pos same, others before, others after]
    · intro other inside equal
      exact apart other ⟨List.mem_append_right _ inside, equal.trans same.symm⟩
    · intro other inside equal
      exact apart other ⟨List.mem_append_left _ inside, equal.trans same.symm⟩
  rw [slots']
  unfold processSlot Slot.counted
  rw [← occupant]
  cases occupied : slot.requestId with
  | none => exact ⟨s.kvCachePager, by rw [← split_]⟩
  | some requestId =>
    simp only [found]
    cases s.active.find? (·.id = requestId) with
    | none => exact ⟨s.kvCachePager, by simp [occupied]⟩
    | some req =>
      by_cases last : req.maxTokens ≤ slot.tokensGenerated + 1
      · exact ⟨s.kvCachePager.map (·.freeAll slot.kvCachePages), by simp [last, Slot.cleared]⟩
      · exact ⟨s.kvCachePager, by simp [last, occupied]⟩

/-- Every slot of the batch still stands for the request it stood for when the batch was
built. -/
structure Current (s : Scheduler) (batchSlots : List Slot) : Prop where
  nodup : (batchSlots.map (·.id)).Nodup
  present : ∀ batchSlot ∈ batchSlots, ∃ slot ∈ s.slots,
    slot.id = batchSlot.id ∧ slot.requestId = batchSlot.requestId

theorem foldl_processSlot_spec (batchSlots : List Slot) {s : Scheduler}
    (nodup : (s.slots.map (·.id)).Nodup) (current : s.Current batchSlots) :
    ∃ pager, batchSlots.foldl processSlot s =
      { s with
        slots := s.slots.map fun slot =>
          if slot.id ∈ batchSlots.map (·.id) then slot.counted s.active else slot
        kvCachePager := pager } := by
  induction batchSlots generalizing s with
  | nil => exact ⟨s.kvCachePager, by simp⟩
  | cons batchSlot rest ih =>
    obtain ⟨slot, member, same, occupant⟩ := current.present batchSlot List.mem_cons_self
    obtain ⟨pager, processed⟩ := processSlot_spec nodup member same occupant
    have nodupRest := current.nodup
    rw [List.map_cons, List.nodup_cons] at nodupRest
    obtain ⟨apart, nodupRest⟩ := nodupRest
    rw [List.foldl_cons, processed]
    -- The slot just counted is none of those the rest of the batch names.
    have ids (slots : List Slot) : (slots.map fun other =>
        if other.id = batchSlot.id then other.counted s.active else other).map (·.id) =
          slots.map (·.id) := by
      rw [List.map_map]
      refine List.map_congr_left fun other _ => ?_
      simp only [Function.comp_apply]
      split
      · exact other.counted_id s.active
      · rfl
    obtain ⟨pager', folded⟩ := @ih
      { s with
        slots := s.slots.map fun other =>
          if other.id = batchSlot.id then other.counted s.active else other
        kvCachePager := pager }
      (by rwa [ids]) ⟨nodupRest, fun other inside => by
        obtain ⟨slot', member', same', occupant'⟩ :=
          current.present other (List.mem_cons_of_mem _ inside)
        refine ⟨slot', List.mem_map.mpr ⟨slot', member', if_neg fun equal => apart ?_⟩,
          same', occupant'⟩
        exact List.mem_map.mpr ⟨other, inside, same'.symm.trans equal⟩⟩
    refine ⟨pager', folded.trans ?_⟩
    simp only [List.map_map]
    congr 1
    refine List.map_congr_left fun other _ => ?_
    by_cases here : other.id = batchSlot.id
    · simp only [Function.comp_apply, if_pos here, Slot.counted_id]
      rw [here, List.map_cons, if_neg apart, if_pos List.mem_cons_self]
    · simp only [Function.comp_apply, List.map_cons, List.mem_cons, here, false_or, if_false]

def countedSlots (s : Scheduler) (batch : Batch) : List Slot :=
  s.slots.map fun slot =>
    if slot.id ∈ batch.slots.map (·.id) then slot.counted s.active else slot

theorem processResults_spec {s : Scheduler} {batch : Batch} (nodup : (s.slots.map (·.id)).Nodup)
    (current : s.Current batch.slots) :
    ∃ pager, s.processResults batch =
      { s with
        slots := s.countedSlots batch
        active := s.active.filter fun req =>
          (s.countedSlots batch).any fun slot => slot.requestId = some req.id
        kvCachePager := pager } := by
  obtain ⟨pager, folded⟩ := foldl_processSlot_spec batch.slots nodup current
  refine ⟨pager, ?_⟩
  unfold processResults
  rw [folded]
  rfl

/-! ## Building a batch -/

structure Starts (slot : Slot) (req : Request) : Prop where
  occupant : slot.requestId = some req.id
  tokens : slot.tokensGenerated = 0
  length : slot.kvCacheLength = req.prompt.length

/-- What a prefill does to the slots and the active requests: a request without a slot takes a
free one, which starts it; the others keep theirs. -/
inductive Filled : List Slot → List Request → List Slot → List Request → Prop
  | done (slots : List Slot) : Filled slots [] slots []
  | seated {slots slots' : List Slot} {req : Request} {reqs reqs' : List Request}
      (slot : req.slot.isSome) (rest : Filled slots reqs slots' reqs') :
      Filled slots (req :: reqs) slots' (req :: reqs')
  | placed {before after slots' : List Slot} {slot started : Slot} {req : Request}
      {reqs reqs' : List Request} (waiting : req.slot = none) (free : slot.requestId = none)
      (id : started.id = slot.id) (starts : Starts started req)
      (rest : Filled (before ++ started :: after) reqs slots' reqs') :
      Filled (before ++ slot :: after) (req :: reqs) slots'
        ({ req with slot := some slot.id } :: reqs')

theorem filled_prefill (config : SchedulerConfig) (profile : Option ComputeRouteProfile)
    (pager : Option Memory.PagedIosurfaceAllocator) {slots : List Slot} {reqs : List Request}
    (enough : reqs.countP (·.slot.isNone) ≤ slots.countP Slot.isFree) :
    Filled slots reqs (prefill config profile pager slots reqs).2.1
      (prefill config profile pager slots reqs).1 := by
  induction reqs generalizing pager slots with
  | nil => exact .done slots
  | cons req reqs ih =>
    rw [List.countP_cons] at enough
    cases waiting : req.slot with
    | some k =>
      have seated : assignSlot config profile pager slots req = (req, slots, pager) := by
        rw [assignSlot, waiting]
        rfl
      rw [prefill, seated]
      exact .seated (by rw [waiting]; rfl) (ih pager (by simpa [waiting] using enough))
    | none =>
      rw [waiting, Option.isNone_none, if_pos rfl] at enough
      cases found : Slot.find Slot.isFree slots with
      | none =>
        -- There is a free slot, so the search finds one.
        have none_ : slots.countP Slot.isFree = 0 :=
          List.countP_eq_zero.mpr fun slot member => by
            simp [Slot.find_none.mp found slot member]
        omega
      | some result =>
        obtain ⟨before, slot, after⟩ := result
        obtain ⟨rfl, free⟩ := Slot.find_some found
        simp only [prefill, assignSlot, waiting, Option.isNone_none, if_true, found]
        refine .placed waiting ?_ ?_ ?_ (ih _ ?_)
        · simpa [Slot.isFree] using free
        · rfl
        · exact ⟨rfl, rfl, rfl⟩
        rw [List.countP_append, List.countP_cons, if_pos free] at enough
        rw [List.countP_append, List.countP_cons, if_neg (by simp [Slot.isFree])]
        omega

section Filled

variable {slots slots' : List Slot} {reqs reqs' : List Request}

theorem Filled.slot_ids (filled : Filled slots reqs slots' reqs') :
    slots'.map (·.id) = slots.map (·.id) := by
  induction filled with
  | done slots => rfl
  | seated _ _ ih => exact ih
  | placed _ _ id _ _ ih =>
    rw [ih, List.map_append, List.map_cons, List.map_append, List.map_cons, id]

theorem Filled.request_ids (filled : Filled slots reqs slots' reqs') :
    reqs'.map (·.id) = reqs.map (·.id) := by
  induction filled with
  | done slots => rfl
  | seated _ _ ih => rw [List.map_cons, List.map_cons, ih]
  | placed _ _ _ _ _ ih => rw [List.map_cons, List.map_cons, ih]

theorem Filled.request_origin (filled : Filled slots reqs slots' reqs') {req' : Request}
    (member : req' ∈ reqs') :
    ∃ req ∈ reqs, req' = { req with slot := req'.slot } ∧ req'.slot.isSome := by
  induction filled with
  | done slots => cases member
  | seated slot _ ih =>
    rcases List.mem_cons.mp member with rfl | late
    · exact ⟨req', List.mem_cons_self, rfl, slot⟩
    · obtain ⟨req, inside, same, some_⟩ := ih late
      exact ⟨req, List.mem_cons_of_mem _ inside, same, some_⟩
  | placed _ _ _ _ _ ih =>
    rcases List.mem_cons.mp member with rfl | late
    · exact ⟨_, List.mem_cons_self, rfl, rfl⟩
    · obtain ⟨req, inside, same, some_⟩ := ih late
      exact ⟨req, List.mem_cons_of_mem _ inside, same, some_⟩

theorem Filled.occupied_stays (filled : Filled slots reqs slots' reqs') {slot : Slot}
    (member : slot ∈ slots) (occupied : slot.requestId ≠ none) : slot ∈ slots' := by
  induction filled with
  | done slots => exact member
  | seated _ _ ih => exact ih member
  | placed _ free _ _ _ ih =>
    apply ih
    rcases List.mem_append.mp member with early | late
    · exact List.mem_append_left _ early
    · rcases List.mem_cons.mp late with rfl | late
      · exact absurd free occupied
      · exact List.mem_append_right _ (List.mem_cons_of_mem _ late)

theorem Filled.seated_stays (filled : Filled slots reqs slots' reqs') {req : Request}
    (member : req ∈ reqs) (seated : req.slot ≠ none) : req ∈ reqs' := by
  induction filled with
  | done slots => cases member
  | seated _ _ ih =>
    rcases List.mem_cons.mp member with rfl | late
    · exact List.mem_cons_self
    · exact List.mem_cons_of_mem _ (ih late)
  | placed waiting _ _ _ _ ih =>
    rcases List.mem_cons.mp member with rfl | late
    · exact absurd waiting seated
    · exact List.mem_cons_of_mem _ (ih late)

theorem Filled.slot_origin (filled : Filled slots reqs slots' reqs') {slot : Slot}
    (member : slot ∈ slots') :
    slot ∈ slots ∨ ∃ req ∈ reqs, req.slot = none ∧ Starts slot req := by
  induction filled with
  | done slots => exact .inl member
  | seated _ _ ih =>
    rcases ih member with old | ⟨req, inside, started⟩
    · exact .inl old
    · exact .inr ⟨req, List.mem_cons_of_mem _ inside, started⟩
  | placed waiting free id starts _ ih =>
    rcases ih member with old | ⟨req, inside, started⟩
    · rcases List.mem_append.mp old with early | late
      · exact .inl (List.mem_append_left _ early)
      · rcases List.mem_cons.mp late with rfl | late
        · exact .inr ⟨_, List.mem_cons_self, waiting, starts⟩
        · exact .inl (List.mem_append_right _ (List.mem_cons_of_mem _ late))
    · exact .inr ⟨req, List.mem_cons_of_mem _ inside, started⟩

theorem Filled.occupants (filled : Filled slots reqs slots' reqs') :
    (occupants slots').Perm
      (occupants slots ++ (reqs.filter (·.slot.isNone)).map (·.id)) := by
  induction filled with
  | done slots => simp
  | @seated slots slots' req reqs reqs' slot _ ih =>
    have seated : req.slot.isNone = false := by
      cases same : req.slot <;> simp_all
    rw [List.filter_cons_of_neg (by simp [seated])]
    exact ih
  | @placed before after slots' slot started req reqs reqs' waiting free id starts _ ih =>
    refine ih.trans ?_
    have old := occupants_split before after slot
    have new := occupants_split before after started
    rw [free] at old
    rw [starts.occupant] at new
    rw [List.filter_cons_of_pos (by simp [waiting]), List.map_cons]
    refine (new.append_right _).trans (List.Perm.trans ?_ (old.symm.append_right _))
    exact List.perm_middle.symm

theorem Filled.linked (filled : Filled slots reqs slots' reqs')
    (linked : ∀ req ∈ reqs, ∀ k, req.slot = some k →
      ∃ slot ∈ slots, slot.id = k ∧ slot.requestId = some req.id) :
    ∀ req ∈ reqs', ∀ k, req.slot = some k →
      ∃ slot ∈ slots', slot.id = k ∧ slot.requestId = some req.id := by
  induction filled with
  | done slots => exact linked
  | @seated slots slots' req reqs reqs' seat rest ih =>
    intro req' member k named
    rcases List.mem_cons.mp member with rfl | late
    · obtain ⟨slot, inside, id, occupant⟩ := linked req' List.mem_cons_self k named
      exact ⟨slot, rest.occupied_stays inside (by simp [occupant]), id, occupant⟩
    · exact ih (fun req inside => linked req (List.mem_cons_of_mem _ inside)) req' late k named
  | @placed before after slots' slot started req reqs reqs' waiting free id starts rest ih =>
    intro req' member k named
    rcases List.mem_cons.mp member with rfl | late
    · cases named
      exact ⟨started, rest.occupied_stays (by simp) (by simp [starts.occupant]), id,
        starts.occupant⟩
    · refine ih (fun req inside k named => ?_) req' late k named
      obtain ⟨other, here, id', occupant⟩ := linked req (List.mem_cons_of_mem _ inside) k named
      refine ⟨other, ?_, id', occupant⟩
      rcases List.mem_append.mp here with early | late
      · exact List.mem_append_left _ early
      · rcases List.mem_cons.mp late with rfl | late
        · exact absurd (free.symm.trans occupant) (by simp)
        · exact List.mem_append_right _ (List.mem_cons_of_mem _ late)

end Filled

def Admits (s : Scheduler) : Prop :=
  s.queue ≠ [] ∧ s.active.length < s.config.maxBatchSize ∧
    s.active.length < s.config.maxPrefillBatch

instance (s : Scheduler) : Decidable s.Admits :=
  inferInstanceAs (Decidable (_ ∧ _ ∧ _))

/-- The poll moves a front part of the list it is given, nothing exactly if it may not start. -/
theorem poll_spec (config : SchedulerConfig) (queue active : List Request) :
    ∃ new rest, queue = new ++ rest ∧ poll config queue active = (rest, active ++ new) ∧
      (new = [] ↔ queue = [] ∨
        ¬ (active.length < config.maxBatchSize ∧ active.length < config.maxPrefillBatch)) := by
  induction queue generalizing active with
  | nil => exact ⟨[], [], rfl, by simp [poll], by simp⟩
  | cons req queue ih =>
    by_cases may : active.length < config.maxBatchSize ∧ active.length < config.maxPrefillBatch
    · obtain ⟨new, rest, split_, polled, -⟩ := ih (active ++ [req])
      exact ⟨req :: new, rest, by rw [split_]; rfl,
        by rw [poll, if_pos may, polled]; simp, by simp [may]⟩
    · exact ⟨[], req :: queue, rfl, by rw [poll, if_neg may]; simp, by simp [may]⟩

theorem addSlots_zero (slots : List Slot) : addSlots slots 0 = slots := by
  simp [addSlots]

theorem isFree_addSlots {slots : List Slot} {count : ℕ} {slot : Slot}
    (member : slot ∈ addSlots slots count) : slot ∈ slots ∨ slot.requestId = none := by
  rcases List.mem_append.mp member with old | new
  · exact .inl old
  · obtain ⟨i, -, rfl⟩ := List.mem_map.mp new
    exact .inr rfl

theorem occupants_addSlots (slots : List Slot) (count : ℕ) :
    occupants (addSlots slots count) = occupants slots := by
  have free : ((List.range count).map fun i => Slot.new (slots.length + i)).filterMap
      (·.requestId) = [] := by
    rw [List.filterMap_eq_nil_iff]
    intro slot new
    obtain ⟨i, -, rfl⟩ := List.mem_map.mp new
    rfl
  rw [occupants, addSlots, List.filterMap_append, free, List.append_nil]
  rfl

/-- Queued requests wait without a slot, and every active request is in the slot it names. -/
structure Seated (s : Scheduler) : Prop where
  numbered : Numbered s.slots
  distinct : ((s.queue ++ s.active).map (·.id)).Nodup
  waiting : ∀ req ∈ s.queue, req.slot = none
  linked : ∀ req ∈ s.active, ∃ slot ∈ s.slots, req.slot = some slot.id ∧
    slot.requestId = some req.id
  occupants : (occupants s.slots).Perm (s.active.map (·.id))

theorem Seated.active_nodup {s : Scheduler} (seated : s.Seated) :
    (s.active.map (·.id)).Nodup := by
  have distinct := seated.distinct
  rw [List.map_append] at distinct
  exact distinct.of_append_right

def start (config : SchedulerConfig) (profile : Option ComputeRouteProfile)
    (pager : Option Memory.PagedIosurfaceAllocator) : Scheduler :=
  { new config with routeProfile := profile, kvCachePager := pager }

theorem seated_start (config : SchedulerConfig) (profile : Option ComputeRouteProfile)
    (pager : Option Memory.PagedIosurfaceAllocator) : (start config profile pager).Seated where
  numbered := numbered_new config
  distinct := List.nodup_nil
  waiting := fun _ member => absurd member List.not_mem_nil
  linked := fun _ member => absurd member List.not_mem_nil
  occupants := by
    have empty : Scheduling.occupants (new config).slots = [] := by
      rw [Scheduling.occupants, List.filterMap_eq_nil_iff]
      intro slot member
      obtain ⟨i, -, rfl⟩ := List.mem_map.mp member
      rfl
    exact List.perm_nil.mpr empty

/-- Either the poll admits requests and the free slots are filled, or every occupied slot is
extended. -/
theorem nextBatch_cases {s : Scheduler} (seated : s.Seated) :
    ∃ new, (new ++ s.nextBatch.2.queue).Perm s.queue ∧ (new = [] ↔ ¬ s.Admits) ∧
      s.nextBatch.2.config = s.config ∧
      ((new = [] ∧ s.nextBatch.2.active = s.active ∧ s.nextBatch.2.slots = decode s.slots) ∨
        (new ≠ [] ∧ ∃ count, Filled (addSlots s.slots count) (s.active ++ new)
          s.nextBatch.2.slots s.nextBatch.2.active)) := by
  obtain ⟨new, rest, split_, polled, none_⟩ :=
    poll_spec s.config (sortQueue s.queue).reverse s.active
  have sorted : (sortQueue s.queue).reverse.Perm s.queue :=
    (List.reverse_perm _).trans (List.perm_insertionSort _ s.queue)
  have queue : (new ++ rest.reverse).Perm s.queue :=
    ((List.reverse_perm rest).append_left new).trans (split_ ▸ sorted)
  have nothing : (sortQueue s.queue).reverse = [] ↔ s.queue = [] :=
    ⟨fun empty => List.nil_perm.mp (empty ▸ sorted),
      fun empty => List.perm_nil.mp (sorted.trans (empty ▸ List.Perm.refl _))⟩
  have admits : new = [] ↔ ¬ s.Admits := by
    rw [none_, nothing]
    unfold Admits
    tauto
  -- The requests without a slot are those just admitted.
  have old : s.active.countP (·.slot.isNone) = 0 := by
    apply List.countP_eq_zero.mpr
    intro req member
    obtain ⟨slot, -, named, -⟩ := seated.linked req member
    simp [named]
  have fresh : new.countP (·.slot.isNone) = new.length := by
    apply List.countP_eq_length.mpr
    intro req member
    have queued : req ∈ s.queue := queue.mem_iff.mp (List.mem_append_left _ member)
    simp [seated.waiting req queued]
  have count : (s.active ++ new).countP (·.slot.isNone) = new.length := by
    rw [List.countP_append, old, fresh, Nat.zero_add]
  refine ⟨new, ?_⟩
  unfold nextBatch
  simp only [polled, count]
  by_cases empty : new = []
  · subst empty
    rw [List.length_nil, if_neg (lt_irrefl 0)]
    exact ⟨queue, admits, rfl, .inl ⟨rfl, List.append_nil _, rfl⟩⟩
  · rw [if_pos (List.length_pos_iff.mpr empty)]
    refine ⟨queue, admits, rfl, .inr ⟨empty, new.length - s.slots.countP Slot.isFree, ?_⟩⟩
    have slots : (if s.slots.countP Slot.isFree < new.length then
        addSlots s.slots (new.length - s.slots.countP Slot.isFree) else s.slots) =
          addSlots s.slots (new.length - s.slots.countP Slot.isFree) := by
      split
      · rfl
      next enough => rw [Nat.sub_eq_zero_of_le (Nat.le_of_not_lt enough), addSlots_zero]
    rw [slots]
    apply filled_prefill
    have added : ((List.range (new.length - s.slots.countP Slot.isFree)).map fun i =>
        Slot.new (s.slots.length + i)).countP Slot.isFree =
          new.length - s.slots.countP Slot.isFree := by
      rw [List.countP_eq_length.mpr, List.length_map, List.length_range]
      intro slot member
      obtain ⟨i, -, rfl⟩ := List.mem_map.mp member
      rfl
    rw [count, addSlots, List.countP_append, added]
    omega

theorem decode_ids (slots : List Slot) : (decode slots).map (·.id) = slots.map (·.id) := by
  rw [decode, List.map_map]
  refine List.map_congr_left fun slot _ => ?_
  simp only [Function.comp_apply]
  split <;> rfl

theorem decode_occupants (slots : List Slot) :
    (decode slots).map (·.requestId) = slots.map (·.requestId) := by
  rw [decode, List.map_map]
  refine List.map_congr_left fun slot _ => ?_
  simp only [Function.comp_apply]
  split <;> rfl

theorem occupants_of_requestIds {slots slots' : List Slot}
    (same : slots'.map (·.requestId) = slots.map (·.requestId)) :
    Scheduling.occupants slots' = Scheduling.occupants slots := by
  have through (slots : List Slot) :
      Scheduling.occupants slots = (slots.map (·.requestId)).filterMap id := by
    rw [List.filterMap_map]
    rfl
  rw [through, through, same]

theorem nextBatch_request_ids {s : Scheduler} (seated : s.Seated) :
    ((s.nextBatch.2.queue ++ s.nextBatch.2.active).map (·.id)).Perm
      ((s.queue ++ s.active).map (·.id)) := by
  obtain ⟨new, queue, -, -, built⟩ := nextBatch_cases seated
  have moved : ((s.nextBatch.2.queue ++ (s.active ++ new)).map (·.id)).Perm
      ((s.queue ++ s.active).map (·.id)) := by
    apply List.Perm.map
    refine (List.perm_append_comm).trans ?_
    rw [List.append_assoc]
    exact (queue.append_left s.active).trans List.perm_append_comm
  rcases built with ⟨rfl, active, -⟩ | ⟨-, count, filled⟩
  · rw [List.append_nil] at moved
    rwa [active]
  · rw [List.map_append, filled.request_ids, ← List.map_append]
    exact moved

theorem nextBatch_waiting {s : Scheduler} (seated : s.Seated) {req : Request}
    (queued : req ∈ s.nextBatch.2.queue) : req ∈ s.queue := by
  obtain ⟨new, queue, -, -, -⟩ := nextBatch_cases seated
  exact queue.mem_iff.mp (List.mem_append_right _ queued)

theorem seated_nextBatch {s : Scheduler} (seated : s.Seated) : s.nextBatch.2.Seated := by
  have distinct := (nextBatch_request_ids seated).nodup_iff.mpr seated.distinct
  have waiting := fun req queued => seated.waiting req (nextBatch_waiting seated queued)
  obtain ⟨new, queue, -, -, ⟨-, active, slots⟩ | ⟨-, count, filled⟩⟩ := nextBatch_cases seated
  · -- Extending a slot changes neither its id nor its occupant.
    refine ⟨seated.numbered.of_ids ?_, distinct, waiting, ?_, ?_⟩
    · rw [slots, decode_ids]
    · intro req member
      obtain ⟨slot, inside, named, occupant⟩ := seated.linked req (active ▸ member)
      have kept : (if slot.isFree then slot
          else { slot with kvCacheLength := slot.kvCacheLength + 1 }) ∈ s.nextBatch.2.slots := by
        rw [slots]
        exact List.mem_map.mpr ⟨slot, inside, rfl⟩
      rw [if_neg (by simp [Slot.isFree, occupant])] at kept
      exact ⟨_, kept, named, occupant⟩
    · rw [slots, active, occupants_of_requestIds (decode_occupants s.slots)]
      exact seated.occupants
  · have unseated (req : Request) (member : req ∈ new) : req.slot = none :=
      seated.waiting req (queue.mem_iff.mp (List.mem_append_left _ member))
    refine ⟨(seated.numbered.addSlots count).of_ids filled.slot_ids, distinct, waiting, ?_, ?_⟩
    · have linked := filled.linked fun req member k named => by
        rcases List.mem_append.mp member with old | admitted
        · obtain ⟨slot, inside, named', occupant⟩ := seated.linked req old
          cases named.symm.trans named'
          exact ⟨slot, List.mem_append_left _ inside, rfl, occupant⟩
        · exact absurd (named.symm.trans (unseated req admitted)) (by simp)
      intro req member
      obtain ⟨-, -, -, some_⟩ := filled.request_origin member
      obtain ⟨k, named⟩ := Option.isSome_iff_exists.mp some_
      obtain ⟨slot, inside, rfl, occupant⟩ := linked req member k named
      exact ⟨slot, inside, named, occupant⟩
    -- those running have slots already, and those admitted get one each
    · have old : s.active.filter (·.slot.isNone) = [] := by
        apply List.filter_eq_nil_iff.mpr
        intro req member
        obtain ⟨slot, -, named, -⟩ := seated.linked req member
        simp [named]
      have fresh : new.filter (·.slot.isNone) = new :=
        List.filter_eq_self.mpr fun req member => by simp [unseated req member]
      have occupants := filled.occupants
      rw [occupants_addSlots, List.filter_append, old, fresh, List.nil_append] at occupants
      rw [filled.request_ids, List.map_append]
      exact occupants.trans (seated.occupants.append_right _)

theorem current_nextBatch {s : Scheduler} (seated : s.Seated) :
    s.nextBatch.2.Current s.nextBatch.1.slots := by
  have nodup := (seated_nextBatch seated).numbered.nodup
  have batch : s.nextBatch.1.slots = s.nextBatch.2.slots.filter fun slot => !slot.isFree := rfl
  rw [batch]
  constructor
  · exact nodup.sublist (List.filter_sublist.map _)
  · intro slot member
    exact ⟨slot, List.mem_of_mem_filter member, rfl, rfl⟩

/-! ## Processing keeps requests in their slots -/

/-- A slot with an active request counts one token, and is given up with the last one. -/
theorem counted_eq {s : Scheduler} (seated : s.Seated) {slot : Slot} {req : Request}
    (active : req ∈ s.active) (occupant : slot.requestId = some req.id) :
    slot.counted s.active =
      if req.maxTokens ≤ slot.tokensGenerated + 1 then slot.cleared
      else { slot with tokensGenerated := slot.tokensGenerated + 1 } := by
  have found : s.active.find? (·.id = req.id) = some req := by
    cases search : s.active.find? (·.id = req.id) with
    | none => exact absurd (List.find?_eq_none.mp search req active) (by simp)
    | some other =>
      have same := List.find?_some search
      have member := List.mem_of_find?_eq_some search
      rw [List.inj_on_of_nodup_map seated.active_nodup member active (of_decide_eq_true same)]
  unfold Slot.counted
  rw [occupant]
  simp only [found]
  rfl

theorem counted_requestId (active : List Request) (slot : Slot) :
    (slot.counted active).requestId = none ∨ (slot.counted active).requestId = slot.requestId := by
  unfold Slot.counted
  split
  · exact .inr rfl
  next occupied =>
    dsimp only
    split
    · split
      · exact .inl rfl
      · exact .inr rfl
    · exact .inr rfl

end Scheduler

theorem occupant_unique {slots : List Slot} (nodup : (occupants slots).Nodup) {a b : Slot}
    (memberA : a ∈ slots) (memberB : b ∈ slots) {id : UInt64} (occupantA : a.requestId = some id)
    (occupantB : b.requestId = some id) : a = b := by
  have apart := List.pairwise_filterMap.mp nodup
  have : Std.Symm fun a b : Slot =>
      ∀ x, a.requestId = some x → ∀ y, b.requestId = some y → x ≠ y :=
    ⟨fun _ _ distinct y eqB x eqA same => distinct x eqA y eqB same.symm⟩
  by_contra different
  exact apart.forall memberA memberB different id occupantA id occupantB rfl

theorem mem_occupants {slots : List Slot} {id : UInt64} :
    id ∈ occupants slots ↔ ∃ slot ∈ slots, slot.requestId = some id :=
  List.mem_filterMap

theorem occupants_sublist {slots : List Slot} {f : Slot → Slot}
    (given : ∀ slot ∈ slots, (f slot).requestId = none ∨ (f slot).requestId = slot.requestId) :
    (occupants (slots.map f)).Sublist (occupants slots) := by
  induction slots with
  | nil => exact .slnil
  | cons slot slots ih =>
    have rest := ih fun other member => given other (List.mem_cons_of_mem _ member)
    unfold occupants at rest ⊢
    rw [List.map_cons]
    rcases given slot List.mem_cons_self with free | same
    · rw [List.filterMap_cons_none free]
      cases occupant : slot.requestId with
      | none => rwa [List.filterMap_cons_none occupant]
      | some id =>
        rw [List.filterMap_cons_some occupant]
        exact rest.cons id
    · cases occupant : slot.requestId with
      | none =>
        rwa [List.filterMap_cons_none occupant, List.filterMap_cons_none (same.trans occupant)]
      | some id =>
        rw [List.filterMap_cons_some occupant, List.filterMap_cons_some (same.trans occupant)]
        exact rest.cons_cons id

namespace Scheduler

theorem countedSlots_ids (s : Scheduler) (batch : Batch) :
    (s.countedSlots batch).map (·.id) = s.slots.map (·.id) := by
  rw [countedSlots, List.map_map]
  refine List.map_congr_left fun slot _ => ?_
  simp only [Function.comp_apply]
  split
  · exact slot.counted_id s.active
  · rfl

theorem seated_processResults {s : Scheduler} (seated : s.Seated) {batch : Batch}
    (current : s.Current batch.slots) : (s.processResults batch).Seated := by
  obtain ⟨pager, processed⟩ := processResults_spec seated.numbered.nodup current
  rw [processed]
  -- A slot that counts a token keeps its request or gives it up.
  have given : ∀ slot ∈ s.slots,
      (if slot.id ∈ batch.slots.map (·.id) then slot.counted s.active else slot).requestId = none ∨
      (if slot.id ∈ batch.slots.map (·.id) then slot.counted s.active else slot).requestId =
        slot.requestId := by
    intro slot _
    split
    · exact counted_requestId s.active slot
    · exact .inr rfl
  have fewer : (Scheduling.occupants (s.countedSlots batch)).Sublist
      (Scheduling.occupants s.slots) := occupants_sublist given
  have nodup : (Scheduling.occupants s.slots).Nodup :=
    seated.occupants.nodup_iff.mpr seated.active_nodup
  refine ⟨seated.numbered.of_ids (s.countedSlots_ids batch), ?_, seated.waiting, ?_, ?_⟩
  · refine seated.distinct.sublist (List.Sublist.map _ ?_)
    exact List.Sublist.append_left List.filter_sublist _
  · -- The slot a kept request still occupies is the one it names.
    intro req member
    obtain ⟨active, kept⟩ := List.mem_filter.mp member
    obtain ⟨slot', inside', occupant'⟩ := List.any_eq_true.mp kept
    have occupant' := of_decide_eq_true occupant'
    obtain ⟨slot, inside, rfl⟩ := List.mem_map.mp inside'
    obtain ⟨seat, here, named, occupant⟩ := seated.linked req active
    have same : slot.requestId = some req.id := by
      rcases given slot inside with free | same
      · exact absurd (free.symm.trans occupant') (by simp)
      · exact same.symm.trans occupant'
    obtain rfl := occupant_unique nodup inside here same occupant
    refine ⟨_, inside', ?_, occupant'⟩
    rw [named]
    congr 1
    split
    · exact (slot.counted_id s.active).symm
    · rfl
  · -- Those that stay active are those whose slots keep them.
    have active : ((s.active.filter fun req =>
        (s.countedSlots batch).any fun slot => slot.requestId = some req.id).map (·.id)).Nodup :=
      seated.active_nodup.sublist (List.filter_sublist.map _)
    refine (List.perm_ext_iff_of_nodup (nodup.sublist fewer) active).mpr fun id => ?_
    constructor
    · intro inside
      obtain ⟨req, member, rfl⟩ := List.mem_map.mp (seated.occupants.mem_iff.mp (fewer.subset inside))
      refine List.mem_map.mpr ⟨req, List.mem_filter.mpr ⟨member, ?_⟩, rfl⟩
      obtain ⟨slot, here, occupant⟩ := mem_occupants.mp inside
      exact List.any_eq_true.mpr ⟨slot, here, decide_eq_true occupant⟩
    · intro inside
      obtain ⟨req, member, rfl⟩ := List.mem_map.mp inside
      obtain ⟨slot, here, occupant⟩ := List.any_eq_true.mp (List.mem_filter.mp member).2
      exact mem_occupants.mpr ⟨slot, here, of_decide_eq_true occupant⟩

end Scheduler

end TribunusCompute.Scheduling
