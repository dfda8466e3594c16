import TribunusCompute.Scheduling.Progress

/-!
# Preemption and resumption

What `preempt_lowest` and `resume` do to slots and active requests, and that requests
stay in the slots they name.
-/
namespace TribunusCompute.Scheduling

structure SavedRequest.Saves (saved : SavedRequest) (victim : Request) (slot : Slot) : Prop where
  requestId : saved.requestId = victim.id
  maxTokens : saved.maxTokens = victim.maxTokens
  tokens : saved.tokensGenerated = slot.tokensGenerated

structure SavedRequest.Resumes (saved : SavedRequest) (req : Request) (slot : Slot) : Prop where
  occupant : slot.requestId = some saved.requestId
  tokens : slot.tokensGenerated = saved.tokensGenerated
  id : req.id = saved.requestId
  maxTokens : req.maxTokens = saved.maxTokens
  named : req.slot = some slot.id

namespace Scheduler

/-! ## Taking a slot away -/

def reprioritized (s : Scheduler) (priority : Request → UInt8) : List Request :=
  s.active.map fun req => { req with priority := priority req }

theorem applyStarvationBoosts_eq (s : Scheduler) : ∃ priority,
    s.applyStarvationBoosts = { s with active := s.reprioritized priority } := by
  unfold applyStarvationBoosts reprioritized
  generalize boost : (fun req : Request => _) = f
  have boosted (req : Request) : ∃ priority, f req = { req with priority := priority } := by
    rw [← boost]
    dsimp only
    split
    · split
      · exact ⟨_, rfl⟩
      · exact ⟨req.priority, rfl⟩
    · exact ⟨req.priority, rfl⟩
  choose priority same using boosted
  refine ⟨priority, ?_⟩
  congr 1
  exact List.map_congr_left fun req _ => same req

theorem reprioritized_ids (s : Scheduler) (priority : Request → UInt8) :
    (s.reprioritized priority).map (·.id) = s.active.map (·.id) := by
  rw [reprioritized, List.map_map]
  rfl

theorem seated_reprioritized {s : Scheduler} (seated : s.Seated) (priority : Request → UInt8) :
    Seated { s with active := s.reprioritized priority } := by
  refine ⟨seated.numbered, ?_, seated.waiting, ?_, ?_⟩
  · rw [List.map_append, reprioritized_ids, ← List.map_append]
    exact seated.distinct
  · intro req member
    obtain ⟨old, active, rfl⟩ := List.mem_map.mp member
    exact seated.linked old active
  · rw [reprioritized_ids]
    exact seated.occupants

theorem foldl_choice {α β : Type} {f : Option β → α → Option β} {value : α → β}
    (choice : ∀ best entry, f best entry = best ∨ f best entry = some (value entry))
    (entries : List α) (best : Option β) :
    entries.foldl f best = best ∨ ∃ entry ∈ entries, entries.foldl f best = some (value entry) := by
  induction entries generalizing best with
  | nil => exact .inl rfl
  | cons entry entries ih =>
    rw [List.foldl_cons]
    rcases ih (f best entry) with kept | ⟨late, member, same⟩
    · rcases choice best entry with same | taken
      · exact .inl (kept.trans same)
      · exact .inr ⟨entry, List.mem_cons_self, kept.trans taken⟩
    · exact .inr ⟨late, List.mem_cons_of_mem _ member, same⟩

theorem victimOf_some {active : List Request} {i : ℕ} {victim : Request}
    (found : victimOf active = some (i, victim)) : active[i]? = some victim := by
  unfold victimOf at found
  generalize lower : (fun (best : Option (ℕ × Request)) (entry : Request × ℕ) => _) = f at found
  have choice (best : Option (ℕ × Request)) (entry : Request × ℕ) :
      f best entry = best ∨ f best entry = some (entry.2, entry.1) := by
    rw [← lower]
    dsimp only
    split
    · exact .inr rfl
    · split
      · exact .inr rfl
      · exact .inl rfl
  rcases foldl_choice choice active.zipIdx none with none_ | ⟨entry, member, same⟩
  · exact absurd (found.symm.trans none_) (by simp)
  · cases found.symm.trans same
    exact List.mem_zipIdx_iff_getElem?.mp member

def without (s : Scheduler) (victimIdx : ℕ) (before : List Slot) (slot : Slot)
    (after : List Slot) : Scheduler :=
  { s with active := s.active.eraseIdx victimIdx, slots := before ++ slot.cleared :: after }

theorem preemptVictim_eq (s : Scheduler) (victimIdx : ℕ) {victim : Request} {slotId : ℕ}
    {before after : List Slot} {slot : Slot} (named : victim.slot = some slotId)
    (found : Slot.find (·.id = slotId) s.slots = some (before, slot, after)) :
    ∃ saved preempted counters,
      s.preemptVictim victimIdx victim = (some saved,
        { s.without victimIdx before slot after with
          preempted := preempted, starvationCounters := counters }) ∧
      saved.Saves victim slot := by
  unfold preemptVictim
  rw [named]
  simp only [found]
  exact ⟨_, _, _, rfl, rfl, rfl, rfl⟩

/-- A preemption changes priorities only, or takes an active request out of its slot. -/
theorem preemptLowest_cases {s : Scheduler} (seated : s.Seated) :
    ∃ priority,
      s.preemptLowest = (none, { s with active := s.reprioritized priority }) ∨
      ∃ victimIdx victim before slot after saved preempted counters,
        (s.reprioritized priority)[victimIdx]? = some victim ∧
        s.slots = before ++ slot :: after ∧ slot.requestId = some victim.id ∧
        saved.Saves victim slot ∧
        s.preemptLowest = (some saved,
          { without { s with active := s.reprioritized priority } victimIdx before slot after with
            preempted := preempted, starvationCounters := counters }) := by
  have same : s.reprioritized (·.priority) = s.active := List.map_id _
  unfold preemptLowest
  split
  · exact ⟨(·.priority), .inl (by rw [same])⟩
  split
  · exact ⟨(·.priority), .inl (by rw [same])⟩
  obtain ⟨priority, boosted⟩ := applyStarvationBoosts_eq s
  refine ⟨priority, ?_⟩
  simp only [boosted]
  split
  · exact .inl rfl
  next victimIdx victim found =>
    split
    · exact .inl rfl
    have there := victimOf_some found
    obtain ⟨seat, member, named, occupant⟩ :=
      (seated_reprioritized seated priority).linked victim (List.mem_of_getElem? there)
    obtain ⟨before, after, search⟩ := Slot.find_id seated.numbered.nodup member rfl
    obtain ⟨saved, preempted, counters, result, saves⟩ :=
      preemptVictim_eq { s with active := s.reprioritized priority } victimIdx named search
    exact .inr ⟨victimIdx, victim, before, seat, after, saved, preempted, counters, there,
      (Slot.find_some search).1, occupant, saves, result⟩

theorem preemptLowest_queue {s : Scheduler} (seated : s.Seated) :
    s.preemptLowest.2.queue = s.queue := by
  obtain ⟨priority, kept | ⟨victimIdx, victim, before, slot, after, saved, preempted, counters,
    -, -, -, -, taken⟩⟩ := preemptLowest_cases seated
  · rw [kept]
  · rw [taken]
    rfl

theorem mem_replaced {before after : List Slot} {slot slot' other : Slot}
    (member : other ∈ before ++ slot :: after) (apart : other.requestId ≠ slot.requestId) :
    other ∈ before ++ slot' :: after := by
  rcases List.mem_append.mp member with early | late
  · exact List.mem_append_left _ early
  · rcases List.mem_cons.mp late with rfl | late
    · exact absurd rfl apart
    · exact List.mem_append_right _ (List.mem_cons_of_mem _ late)

theorem eraseIdx_perm {active : List Request} {i : ℕ} {victim : Request}
    (there : active[i]? = some victim) : (victim :: active.eraseIdx i).Perm active := by
  obtain ⟨inside, rfl⟩ := List.getElem?_eq_some_iff.mp there
  exact List.getElem_cons_eraseIdx_perm inside

theorem seated_without {s : Scheduler} (seated : s.Seated) {victimIdx : ℕ} {victim : Request}
    (there : s.active[victimIdx]? = some victim) {before after : List Slot} {slot : Slot}
    (slots : s.slots = before ++ slot :: after) (occupant : slot.requestId = some victim.id) :
    (s.without victimIdx before slot after).Seated := by
  have perm := eraseIdx_perm there
  have ids : (victim.id :: (s.active.eraseIdx victimIdx).map (·.id)).Perm
      (s.active.map (·.id)) := perm.map _
  have distinct := ids.nodup_iff.mpr seated.active_nodup
  refine ⟨seated.numbered.of_ids ?_, ?_, seated.waiting, ?_, ?_⟩
  · simp [without, slots, Slot.cleared]
  · refine seated.distinct.sublist (List.Sublist.map _ ?_)
    exact List.Sublist.append_left (List.eraseIdx_sublist _ _) _
  · intro req member
    obtain ⟨other, inside, named, occupant'⟩ :=
      seated.linked req (perm.subset (List.mem_cons_of_mem _ member))
    refine ⟨other, mem_replaced (slots ▸ inside) ?_, named, occupant'⟩
    -- Two requests with one id would be one request.
    rw [occupant, occupant']
    intro same
    have same := Option.some.inj same
    exact (List.nodup_cons.mp distinct).1 (same ▸ List.mem_map.mpr ⟨req, member, rfl⟩)
  · have old := occupants_split before after slot
    have new := occupants_split before after slot.cleared
    rw [← slots, occupant] at old
    have rest := old.symm.trans (seated.occupants.trans ids.symm)
    exact new.trans (List.Perm.cons_inv rest)

/-! ## Giving a slot back -/

def withResumed (s : Scheduler) (before : List Slot) (resumed : Slot) (after : List Slot)
    (req : Request) : Scheduler :=
  { s with slots := before ++ resumed :: after, active := s.active ++ [req] }

/-- While some slot is free, a resumed request goes on where it was saved. -/
theorem resume_eq {s : Scheduler} (room : ∃ slot ∈ s.slots, slot.isFree) (saved : SavedRequest)
    (now : ℕ) :
    ∃ before slot after resumed req preempted,
      s.slots = before ++ slot :: after ∧ slot.requestId = none ∧ resumed.id = slot.id ∧
      saved.Resumes req resumed ∧
      s.resume saved now =
        { s.withResumed before resumed after req with preempted := preempted } := by
  unfold resume
  cases found : Slot.find Slot.isFree s.slots with
  | none =>
    obtain ⟨slot, member, free⟩ := room
    exact absurd free (by simp [Slot.find_none.mp found slot member])
  | some result =>
    obtain ⟨before, slot, after⟩ := result
    obtain ⟨slots, free⟩ := Slot.find_some found
    refine ⟨before, slot, after, _, _, _, slots, by simpa [Slot.isFree] using free, ?_, ?_, rfl⟩
    · rfl
    · exact ⟨rfl, rfl, rfl, rfl, rfl⟩

theorem seated_withResumed {s : Scheduler} (seated : s.Seated) {before after : List Slot}
    {slot resumed : Slot} {saved : SavedRequest} {req : Request}
    (slots : s.slots = before ++ slot :: after) (free : slot.requestId = none)
    (id : resumed.id = slot.id) (resumes : saved.Resumes req resumed)
    (stranger : req.id ∉ (s.queue ++ s.active).map (·.id)) :
    (s.withResumed before resumed after req).Seated := by
  have occupant : resumed.requestId = some req.id := resumes.occupant.trans (by rw [resumes.id])
  refine ⟨seated.numbered.of_ids ?_, ?_, seated.waiting, ?_, ?_⟩
  · simp [withResumed, slots, id]
  · have moved : ((s.queue ++ (s.active ++ [req])).map (·.id)).Perm
        ((req :: (s.queue ++ s.active)).map (·.id)) := by
      rw [← List.append_assoc]
      exact (List.perm_append_singleton req _).map _
    exact moved.nodup_iff.mpr (List.nodup_cons.mpr ⟨stranger, seated.distinct⟩)
  · intro other member
    rcases List.mem_append.mp member with old | new
    · obtain ⟨seat, inside, named, occupant'⟩ := seated.linked other old
      refine ⟨seat, mem_replaced (slots ▸ inside) ?_, named, occupant'⟩
      rw [free, occupant']
      exact Option.some_ne_none _
    · obtain rfl := List.mem_singleton.mp new
      exact ⟨resumed, by simp [withResumed], resumes.named, occupant⟩
  · have old := occupants_split before after slot
    have new := occupants_split before after resumed
    rw [← slots, free] at old
    rw [occupant] at new
    have rest : (Scheduling.occupants (before ++ after)).Perm (s.active.map (·.id)) :=
      old.symm.trans seated.occupants
    have last : (req.id :: s.active.map (·.id)).Perm ((s.active ++ [req]).map (·.id)) :=
      (List.perm_append_singleton req s.active).symm.map _
    exact new.trans ((rest.cons req.id).trans last)

end Scheduler

end TribunusCompute.Scheduling
