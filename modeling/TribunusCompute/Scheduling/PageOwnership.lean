import TribunusCompute.Library.Lists
import TribunusCompute.Library.Runs
import TribunusCompute.Scheduling.Scheduler

/-!
# Who owns the pages

Runs of one scheduler with a pager, with the saved requests its caller holds. Each
operation moves pages between slots, saved requests and the pager. One of them can
lose pages: a resume that finds no free slot.
-/
namespace TribunusCompute.Scheduling

open Memory Ownership

/-- The scheduler, the saved requests not resumed so far, and the most recent batch. -/
structure World where
  scheduler : Scheduler
  held : List SavedRequest
  lastBatch : Option Batch

inductive SchedulerOp
  | enqueue (request : Request)
  | enqueueWithPriority (request : Request) (priority : UInt8)
  | nextBatch
  | processResults
  | preemptLowest
  | resume (k now : ℕ)
  | drainAll
  deriving DecidableEq, Repr

namespace World

def start (config : SchedulerConfig) (numPages pageSize : ℕ) : World where
  scheduler := (Scheduler.new config).setKvCachePager (.new numPages pageSize)
  held := []
  lastBatch := none

/-- One operation; `none` when there is no batch to process or no such saved request. Draining
returns saved requests that the caller holds already. -/
def step (w : World) : SchedulerOp → Option World
  | .enqueue request => some { w with scheduler := w.scheduler.enqueue request }
  | .enqueueWithPriority request priority =>
    some { w with scheduler := w.scheduler.enqueueWithPriority request priority }
  | .nextBatch =>
    let (batch, scheduler) := w.scheduler.nextBatch
    some { w with scheduler := scheduler, lastBatch := some batch }
  | .processResults => do
    let batch ← w.lastBatch
    some { w with scheduler := w.scheduler.processResults batch }
  | .preemptLowest =>
    let (saved, scheduler) := w.scheduler.preemptLowest
    some { w with scheduler := scheduler, held := w.held ++ saved.toList }
  | .resume k now => do
    let saved ← w.held[k]?
    some { w with scheduler := w.scheduler.resume saved now, held := w.held.eraseIdx k }
  | .drainAll => some { w with scheduler := w.scheduler.drainAll.2 }

def owners (w : World) : List (List ℕ) :=
  (w.scheduler.slots.filter fun slot => !slot.isFree).map (·.kvCachePages) ++
    w.held.map (·.kvCachePages)

/-- Every allocated page has one owner, and a page without an owner is free. -/
def PagesOwned (w : World) : Prop :=
  ∃ pager, w.scheduler.kvCachePager = some pager ∧ Owns w.owners.flatten pager.isAllocated

/-- A saved request with pages is resumed while some slot is free. -/
def KeepsPages (w : World) : SchedulerOp → Prop
  | .resume k _ => ∀ saved ∈ w.held[k]?, saved.kvCachePages ≠ [] →
      ∃ slot ∈ w.scheduler.slots, slot.isFree
  | _ => True

instance (w : World) (op : SchedulerOp) : Decidable (w.KeepsPages op) :=
  match op with
  | .resume k _ => inferInstanceAs <| Decidable <|
      ∀ saved ∈ w.held[k]?, saved.kvCachePages ≠ [] → ∃ slot ∈ w.scheduler.slots, slot.isFree
  | .enqueue _ | .enqueueWithPriority _ _ | .nextBatch | .processResults | .preemptLowest
  | .drainAll => isTrue trivial

end World

/-! ## The pager's books -/

def slotPages (slots : List Slot) : List ℕ := slots.flatMap (·.kvCachePages)

/-- The slots and what is held elsewhere balance with the pager; a free slot lists no page. -/
structure Ledger (slots : List Slot) (elsewhere : List ℕ) (pager : PagedIosurfaceAllocator) :
    Prop where
  owns : Owns (slotPages slots ++ elsewhere) pager.isAllocated
  clear : ∀ slot ∈ slots, slot.isFree → slot.kvCachePages = []

theorem isAllocated_freeAll (pager : PagedIosurfaceAllocator) (pages : List ℕ) (q : ℕ) :
    (pager.freeAll pages).isAllocated q = (pager.isAllocated q && !decide (q ∈ pages)) := by
  rw [PagedIosurfaceAllocator.isAllocated_eq, PagedIosurfaceAllocator.isAllocated_eq,
    PagedIosurfaceAllocator.isFree_freeAll, PagedIosurfaceAllocator.numPages_freeAll]
  rcases em (q < pager.numPages) with inside | beyond
  · simp [inside]
  · simp [beyond]

theorem isAllocated_allocatePages {pager pager' : PagedIosurfaceAllocator} {count : ℕ}
    {pages : List ℕ} (found : pager.allocatePages count = some (pages, pager')) :
    pages.Nodup ∧ (∀ q ∈ pages, pager.isAllocated q = false) ∧
      ∀ q, pager'.isAllocated q = (pager.isAllocated q || decide (q ∈ pages)) := by
  obtain ⟨nodup, -, free, size, after⟩ := pager.allocatePages_some found
  refine ⟨nodup, fun q member => ?_, fun q => ?_⟩
  · rw [PagedIosurfaceAllocator.isAllocated_eq, free q member, Bool.not_true, Bool.and_false]
  · rw [PagedIosurfaceAllocator.isAllocated_eq, PagedIosurfaceAllocator.isAllocated_eq, size, after]
    rcases em (q ∈ pages) with member | other
    · simp [member, pager.isFree_lt (free q member)]
    · simp [other]

section Books

variable {before after slots : List Slot} {slot slot' : Slot} {elsewhere pages : List ℕ}
  {pager pager' : PagedIosurfaceAllocator}

theorem ledger_iff : Ledger (before ++ slot :: after) elsewhere pager ↔
    Owns (slot.kvCachePages ++ (slotPages (before ++ after) ++ elsewhere)) pager.isAllocated ∧
      (slot.isFree → slot.kvCachePages = []) ∧
      ∀ other ∈ before ++ after, other.isFree → other.kvCachePages = [] := by
  have same : (slotPages (before ++ slot :: after) ++ elsewhere).Perm
      (slot.kvCachePages ++ (slotPages (before ++ after) ++ elsewhere)) := by
    simp only [slotPages, List.flatMap_append, List.flatMap_cons, ← List.append_assoc]
    exact ((List.perm_append_comm).append_right _).append_right _
  constructor
  · rintro ⟨owns, clear⟩
    refine ⟨owns.perm same, clear slot (by simp), fun other member => clear other ?_⟩
    rcases List.mem_append.mp member with early | late
    · simp [early]
    · simp [late]
  · rintro ⟨owns, here, others⟩
    refine ⟨owns.perm same.symm, fun other member => ?_⟩
    rcases List.mem_append.mp member with early | late
    · exact others other (List.mem_append_left _ early)
    · rcases List.mem_cons.mp late with rfl | late
      · exact here
      · exact others other (List.mem_append_right _ late)

theorem Ledger.perm (ledger : Ledger slots elsewhere pager) (same : elsewhere.Perm pages) :
    Ledger slots pages pager :=
  ⟨ledger.owns.perm (same.append_left _), ledger.clear⟩

theorem Ledger.keep (ledger : Ledger (before ++ slot :: after) elsewhere pager)
    (same : slot'.kvCachePages = slot.kvCachePages) (occupied : slot'.isFree → slot.isFree) :
    Ledger (before ++ slot' :: after) elsewhere pager := by
  rw [ledger_iff] at ledger ⊢
  rw [same]
  exact ⟨ledger.1, fun free => ledger.2.1 (occupied free), ledger.2.2⟩

theorem Ledger.release (ledger : Ledger (before ++ slot :: after) elsewhere pager) :
    Ledger (before ++ slot.cleared :: after) elsewhere (pager.freeAll slot.kvCachePages) := by
  rw [ledger_iff] at ledger ⊢
  exact ⟨ledger.1.release (isAllocated_freeAll pager _), fun _ => rfl, ledger.2.2⟩

theorem Ledger.handOver (ledger : Ledger (before ++ slot :: after) elsewhere pager) :
    Ledger (before ++ slot.cleared :: after) (elsewhere ++ slot.kvCachePages) pager := by
  rw [ledger_iff] at ledger ⊢
  have moved : (slot.kvCachePages ++ (slotPages (before ++ after) ++ elsewhere)).Perm
      (slotPages (before ++ after) ++ elsewhere ++ slot.kvCachePages) := List.perm_append_comm
  rw [List.append_assoc] at moved
  exact ⟨ledger.1.perm moved, fun _ => rfl, ledger.2.2⟩

theorem Ledger.attach (ledger : Ledger (before ++ slot :: after) (pages ++ elsewhere) pager)
    (free : slot.isFree) (same : slot'.kvCachePages = pages) (occupied : slot'.isFree = false) :
    Ledger (before ++ slot' :: after) elsewhere pager := by
  rw [ledger_iff] at ledger ⊢
  obtain ⟨owns, here, others⟩ := ledger
  refine ⟨owns.perm ?_, fun free => absurd free (by simp [occupied]), others⟩
  rw [here free, same, List.nil_append, ← List.append_assoc, ← List.append_assoc]
  exact List.perm_append_comm.append_right _

theorem Ledger.allocate (ledger : Ledger (before ++ slot :: after) elsewhere pager)
    (free : slot.isFree) {count : ℕ} (found : pager.allocatePages count = some (pages, pager'))
    (same : slot'.kvCachePages = pages) (occupied : slot'.isFree = false) :
    Ledger (before ++ slot' :: after) elsewhere pager' := by
  rw [ledger_iff] at ledger ⊢
  obtain ⟨owns, here, others⟩ := ledger
  obtain ⟨nodup, fresh, taken⟩ := isAllocated_allocatePages found
  rw [here free, List.nil_append] at owns
  refine ⟨?_, fun free => absurd free (by simp [occupied]), others⟩
  rw [same]
  exact owns.acquire nodup fresh taken

end Books

/-- The books of a scheduler that has a pager. -/
def Balanced (slots : List Slot) (elsewhere : List ℕ) (pager : Option PagedIosurfaceAllocator) :
    Prop :=
  ∃ pager', pager = some pager' ∧ Ledger slots elsewhere pager'

theorem Slot.find_some {p : Slot → Bool} {slots before after : List Slot} {slot : Slot}
    (found : Slot.find p slots = some (before, slot, after)) :
    slots = before ++ slot :: after ∧ p slot = true := by
  induction slots generalizing before with
  | nil => cases found
  | cons first slots ih =>
    rw [Slot.find] at found
    split at found
    next here =>
      cases found
      exact ⟨rfl, here⟩
    next =>
      simp only [Option.map_eq_some_iff, Prod.mk.injEq, Prod.exists] at found
      obtain ⟨before', slot', after', found, rfl, rfl, rfl⟩ := found
      obtain ⟨rfl, here⟩ := ih found
      exact ⟨rfl, here⟩

theorem Slot.find_none {p : Slot → Bool} {slots : List Slot} :
    Slot.find p slots = none ↔ ∀ slot ∈ slots, p slot = false := by
  induction slots with
  | nil => simp [Slot.find]
  | cons first slots ih => cases here : p first <;> simp [Slot.find, here, ih]

namespace Scheduler

variable {elsewhere : List ℕ} {slots : List Slot} {pager : Option PagedIosurfaceAllocator}

/-- A free slot that starts a request, with pages or, where none are left, without. -/
theorem balanced_allocateSlotPages (config : SchedulerConfig) {before after : List Slot}
    {slot slot' : Slot} (free : slot.isFree) (occupied : slot'.isFree = false)
    (pages : slot'.kvCachePages = (allocateSlotPages config slot.kvCachePages pager).1)
    (balanced : Balanced (before ++ slot :: after) elsewhere pager) :
    Balanced (before ++ slot' :: after) elsewhere
      (allocateSlotPages config slot.kvCachePages pager).2 := by
  obtain ⟨pager, rfl, ledger⟩ := balanced
  unfold allocateSlotPages at pages ⊢
  cases allocation : pager.allocatePages config.kvCachePagesPerSlot with
  | none =>
    simp only [allocation] at pages ⊢
    exact ⟨pager, rfl, ledger.keep pages fun _ => free⟩
  | some result =>
    obtain ⟨pageIds, pager'⟩ := result
    simp only [allocation] at pages ⊢
    exact ⟨pager', rfl, ledger.allocate free allocation pages occupied⟩

theorem balanced_assignSlot (config : SchedulerConfig) (profile : Option ComputeRouteProfile)
    (req : Request) (balanced : Balanced slots elsewhere pager) :
    Balanced (assignSlot config profile pager slots req).2.1 elsewhere
      (assignSlot config profile pager slots req).2.2 := by
  unfold assignSlot
  split
  case isFalse => exact balanced
  split
  case h_2 => exact balanced
  next before slot after found =>
    obtain ⟨rfl, free⟩ := Slot.find_some found
    exact balanced_allocateSlotPages config free rfl rfl balanced

theorem balanced_prefill (config : SchedulerConfig) (profile : Option ComputeRouteProfile)
    (active : List Request) (balanced : Balanced slots elsewhere pager) :
    Balanced (prefill config profile pager slots active).2.1 elsewhere
      (prefill config profile pager slots active).2.2 := by
  induction active generalizing slots pager with
  | nil => exact balanced
  | cons req active ih => exact ih (balanced_assignSlot config profile req balanced)

theorem balanced_addSlots (count : ℕ) (balanced : Balanced slots elsewhere pager) :
    Balanced (addSlots slots count) elsewhere pager := by
  obtain ⟨pager, rfl, owns, clear⟩ := balanced
  refine ⟨pager, rfl, ?_, fun slot member free => ?_⟩
  · have noPages : slotPages ((List.range count).map fun i => Slot.new (slots.length + i)) = [] := by
      rw [slotPages, List.flatMap_map]
      exact List.flatMap_eq_nil_iff.mpr fun _ _ => rfl
    have same : slotPages (addSlots slots count) = slotPages slots := by
      rw [addSlots, slotPages, List.flatMap_append, ← slotPages, ← slotPages, noPages,
        List.append_nil]
    rwa [same]
  · rcases List.mem_append.mp member with old | new
    · exact clear slot old free
    · obtain ⟨i, -, rfl⟩ := List.mem_map.mp new
      rfl

theorem balanced_decode (balanced : Balanced slots elsewhere pager) :
    Balanced (decode slots) elsewhere pager := by
  obtain ⟨pager, rfl, owns, clear⟩ := balanced
  have pages : slotPages (decode slots) = slotPages slots := by
    simp only [slotPages, decode, List.flatMap_map]
    refine List.flatMap_congr fun slot _ => ?_
    split <;> rfl
  refine ⟨pager, rfl, pages ▸ owns, fun slot member free => ?_⟩
  obtain ⟨old, inside, rfl⟩ := List.mem_map.mp member
  split at free
  next oldFree => rw [if_pos oldFree, clear old inside oldFree]
  next occupied => exact absurd free occupied

theorem balanced_nextBatch {s : Scheduler} (balanced : Balanced s.slots elsewhere s.kvCachePager) :
    Balanced s.nextBatch.2.slots elsewhere s.nextBatch.2.kvCachePager := by
  unfold nextBatch
  simp only
  split
  next =>
    apply balanced_prefill
    split
    next => exact balanced_addSlots _ balanced
    next => exact balanced
  next => exact balanced_decode balanced

theorem balanced_processSlot {s : Scheduler} (batchSlot : Slot)
    (balanced : Balanced s.slots elsewhere s.kvCachePager) :
    Balanced (s.processSlot batchSlot).slots elsewhere (s.processSlot batchSlot).kvCachePager := by
  unfold processSlot
  split
  case h_1 => exact balanced
  split
  case h_1 => exact balanced
  next before slot after found =>
    obtain ⟨pager, installed, ledger⟩ := balanced
    rw [(Slot.find_some found).1] at ledger
    have counted : Ledger (before ++ { slot with tokensGenerated := slot.tokensGenerated + 1 } ::
        after) elsewhere pager := ledger.keep rfl id
    simp only
    split
    next req _ =>
      split
      next => exact ⟨_, congrArg (Option.map (·.freeAll slot.kvCachePages)) installed, counted.release⟩
      next => exact ⟨pager, installed, counted⟩
    next => exact ⟨pager, installed, counted⟩

theorem balanced_processResults {s : Scheduler} (batch : Batch)
    (balanced : Balanced s.slots elsewhere s.kvCachePager) :
    Balanced (s.processResults batch).slots elsewhere (s.processResults batch).kvCachePager := by
  have all (batchSlots : List Slot) : Balanced (batchSlots.foldl processSlot s).slots elsewhere
      (batchSlots.foldl processSlot s).kvCachePager := by
    induction batchSlots generalizing s with
    | nil => exact balanced
    | cons batchSlot batchSlots ih => exact ih (balanced_processSlot batchSlot balanced)
  exact all batch.slots

theorem balanced_preemptVictim {s : Scheduler} (victimIdx : ℕ) (victim : Request)
    (balanced : Balanced s.slots elsewhere s.kvCachePager) :
    Balanced (s.preemptVictim victimIdx victim).2.slots
      (elsewhere ++ (s.preemptVictim victimIdx victim).1.toList.flatMap (·.kvCachePages))
      (s.preemptVictim victimIdx victim).2.kvCachePager := by
  unfold preemptVictim
  split
  case h_1 => simpa using balanced
  split
  case h_1 => simpa using balanced
  next before slot after found =>
    obtain ⟨pager, installed, ledger⟩ := balanced
    rw [(Slot.find_some found).1] at ledger
    refine ⟨pager, installed, ?_⟩
    simpa using ledger.handOver

theorem balanced_preemptLowest {s : Scheduler}
    (balanced : Balanced s.slots elsewhere s.kvCachePager) :
    Balanced s.preemptLowest.2.slots
      (elsewhere ++ s.preemptLowest.1.toList.flatMap (·.kvCachePages))
      s.preemptLowest.2.kvCachePager := by
  have unchanged : Balanced s.slots (elsewhere ++ []) s.kvCachePager := by
    rwa [List.append_nil]
  unfold preemptLowest
  split
  case isTrue => exact unchanged
  split
  case isTrue => exact unchanged
  simp only
  split
  case h_1 => exact unchanged
  split
  case isTrue => exact unchanged
  exact balanced_preemptVictim _ _ balanced

theorem balanced_resume {s : Scheduler} (saved : SavedRequest) (now : ℕ)
    (room : saved.kvCachePages ≠ [] → ∃ slot ∈ s.slots, slot.isFree)
    (balanced : Balanced s.slots (saved.kvCachePages ++ elsewhere) s.kvCachePager) :
    Balanced (s.resume saved now).slots elsewhere (s.resume saved now).kvCachePager := by
  unfold resume
  obtain ⟨pager, installed, ledger⟩ := balanced
  simp only
  split
  next before slot after found =>
    obtain ⟨split_, free⟩ := Slot.find_some found
    rw [split_] at ledger
    exact ⟨pager, installed, ledger.attach free rfl rfl⟩
  next full =>
    have none_ : saved.kvCachePages = [] := by
      by_contra some_
      obtain ⟨slot, member, free⟩ := room some_
      have occupied := Slot.find_none.mp full slot member
      rw [free] at occupied
      cases occupied
    rw [none_, List.nil_append] at ledger
    exact ⟨pager, installed, ledger⟩

theorem balanced_drainSlots (before : List Slot)
    (balanced : Balanced (before ++ slots) elsewhere pager) :
    Balanced (before ++ (drainSlots pager slots).1) elsewhere (drainSlots pager slots).2 := by
  induction slots generalizing before pager with
  | nil => exact balanced
  | cons slot slots ih =>
    rw [drainSlots]
    split
    next =>
      rw [List.append_cons] at balanced ⊢
      exact ih _ balanced
    next =>
      obtain ⟨pager, rfl, ledger⟩ := balanced
      have released := ledger.release
      rw [List.append_cons] at released ⊢
      exact ih _ ⟨_, rfl, released⟩

end Scheduler

namespace World

/-- The books balance with the saved requests that are held. -/
def Inv (w : World) : Prop :=
  Balanced w.scheduler.slots (w.held.flatMap (·.kvCachePages)) w.scheduler.kvCachePager

theorem inv_start (config : SchedulerConfig) (numPages pageSize : ℕ) :
    (start config numPages pageSize).Inv := by
  refine ⟨_, rfl, ?_, fun slot member _ => ?_⟩
  · have noPages : slotPages (start config numPages pageSize).scheduler.slots = [] := by
      simp [slotPages, start, Scheduler.new, Scheduler.setKvCachePager, Slot.new]
    rw [noPages]
    refine owns_nil fun q => ?_
    rw [PagedIosurfaceAllocator.isAllocated_eq, PagedIosurfaceAllocator.isFree_new]
    exact Bool.and_not_self _
  · obtain ⟨i, -, rfl⟩ := List.mem_map.mp member
    rfl

theorem owners_flatten {w : World}
    (clear : ∀ slot ∈ w.scheduler.slots, slot.isFree → slot.kvCachePages = []) :
    w.owners.flatten = slotPages w.scheduler.slots ++ w.held.flatMap (·.kvCachePages) := by
  have occupied (slots : List Slot)
      (clear : ∀ slot ∈ slots, slot.isFree → slot.kvCachePages = []) :
      ((slots.filter fun slot => !slot.isFree).map (·.kvCachePages)).flatten =
        slotPages slots := by
    induction slots with
    | nil => rfl
    | cons slot slots ih =>
      have rest := ih fun other member => clear other (List.mem_cons_of_mem _ member)
      rw [slotPages, List.flatMap_cons, ← slotPages, ← rest]
      cases free : slot.isFree with
      | true => simp [free, clear slot List.mem_cons_self free]
      | false => simp [free]
  rw [owners, List.flatten_append, occupied _ clear, List.flatMap_def]

theorem Inv.pagesOwned {w : World} (inv : w.Inv) : w.PagesOwned := by
  obtain ⟨pager, installed, owns, clear⟩ := inv
  refine ⟨pager, installed, ?_⟩
  rwa [owners_flatten clear]

theorem perm_eraseIdx {held : List SavedRequest} {k : ℕ} {saved : SavedRequest}
    (there : held[k]? = some saved) :
    (held.flatMap (·.kvCachePages)).Perm
      (saved.kvCachePages ++ (held.eraseIdx k).flatMap (·.kvCachePages)) := by
  obtain ⟨inside, rfl⟩ := List.getElem?_eq_some_iff.mp there
  rw [← List.flatMap_cons]
  exact (List.getElem_cons_eraseIdx_perm inside).symm.flatMap_right _

theorem inv_step {w t : World} {op : SchedulerOp} (inv : w.Inv) (keeps : w.KeepsPages op)
    (taken : w.step op = some t) : t.Inv := by
  cases op with
  | enqueue request =>
    cases taken
    exact inv
  | enqueueWithPriority request priority =>
    cases taken
    exact inv
  | nextBatch =>
    cases taken
    exact Scheduler.balanced_nextBatch inv
  | processResults =>
    obtain ⟨batch, -, result⟩ := Option.bind_eq_some_iff.mp taken
    cases result
    exact Scheduler.balanced_processResults batch inv
  | preemptLowest =>
    cases taken
    unfold Inv
    rw [List.flatMap_append]
    exact Scheduler.balanced_preemptLowest inv
  | resume k now =>
    obtain ⟨saved, there, result⟩ := Option.bind_eq_some_iff.mp taken
    cases result
    obtain ⟨pager, installed, ledger⟩ := inv
    exact Scheduler.balanced_resume saved now (keeps saved there)
      ⟨pager, installed, ledger.perm (perm_eraseIdx there)⟩
  | drainAll =>
    cases taken
    exact Scheduler.balanced_drainSlots [] inv

/-- A resume that finds no free slot leaves the pages of the saved request without an owner. -/
theorem keepsPages_of_pagesOwned {w t : World} {op : SchedulerOp} (inv : w.Inv)
    (taken : w.step op = some t) (owned : t.PagesOwned) : w.KeepsPages op := by
  cases op with
  | resume k now =>
    intro saved there some_
    by_contra full
    have occupied : Slot.find Slot.isFree w.scheduler.slots = none := by
      refine Slot.find_none.mpr fun slot member => ?_
      by_contra free
      exact full ⟨slot, member, by simpa using free⟩
    obtain ⟨saved', there', result⟩ := Option.bind_eq_some_iff.mp taken
    obtain rfl : saved = saved' := Option.some.inj (there.symm.trans there')
    cases result
    obtain ⟨pager, installed, ledger⟩ := inv
    obtain ⟨pager', installed', owns⟩ := owned
    have slots : (w.scheduler.resume saved now).slots = w.scheduler.slots := by
      simp [Scheduler.resume, occupied]
    have pagers : (w.scheduler.resume saved now).kvCachePager = w.scheduler.kvCachePager := by
      simp [Scheduler.resume, occupied]
    obtain rfl : pager = pager' := by
      rw [pagers, installed] at installed'
      exact Option.some.inj installed'
    rw [owners_flatten (slots ▸ ledger.clear)] at owns
    simp only [slots] at owns
    have before : Owns (saved.kvCachePages ++ (slotPages w.scheduler.slots ++
        (w.held.eraseIdx k).flatMap (·.kvCachePages))) pager.isAllocated := by
      refine ledger.owns.perm (((perm_eraseIdx there).append_left _).trans ?_)
      rw [← List.append_assoc, ← List.append_assoc]
      exact List.perm_append_comm.append_right _
    exact some_ (before.forget_iff.mp owns)
  | _ => trivial

/-- From balanced books on, the pages stay owned exactly as long as every resume has room. -/
theorem pagesOwned_iff_of_inv {w t : World} {ops : List SchedulerOp} (inv : w.Inv)
    (run : Runs.exec step w ops = some t) :
    Runs.Always step PagesOwned w ops ↔ Runs.Guarded step KeepsPages w ops :=
  Runs.always_iff_guarded step (fun _ inv => inv.pagesOwned)
    (fun _ _ _ inv keeps taken => inv_step inv keeps taken)
    (fun _ _ _ inv taken owned => keepsPages_of_pagesOwned inv taken owned) inv run

/-- Along a run the pages are owned exactly where no saved request with pages is resumed while
all slots are occupied. -/
theorem pagesOwned_iff_keepsPages (config : SchedulerConfig) (numPages pageSize : ℕ)
    (ops : List SchedulerOp) (t : World)
    (run : Runs.exec step (start config numPages pageSize) ops = some t) :
    Runs.Always step PagesOwned (start config numPages pageSize) ops ↔
      Runs.Guarded step KeepsPages (start config numPages pageSize) ops :=
  pagesOwned_iff_of_inv (inv_start config numPages pageSize) run

def oneSlot : SchedulerConfig where
  maxBatchSize := 1
  maxPrefillBatch := 1
  defaultBackendId := 0
  kvCachePagesPerSlot := 2

def request (id : UInt64) : Request where
  id := id
  prompt := [1, 2, 3]
  maxTokens := 2
  priority := 128
  state := .queued
  createdAt := 0
  slot := none

/-- A request is preempted, resumed into its slot and finished. -/
theorem pagesOwned_preemptedAndResumed :
    Runs.Always step PagesOwned (start oneSlot 4 512)
      [.enqueue (request 1), .nextBatch, .preemptLowest, .resume 0 5, .nextBatch,
        .processResults, .processResults, .drainAll] := by
  have runs : (Runs.exec step (start oneSlot 4 512)
      [.enqueue (request 1), .nextBatch, .preemptLowest, .resume 0 5, .nextBatch,
        .processResults, .processResults, .drainAll]).isSome = true := by decide
  obtain ⟨t, run⟩ := Option.isSome_iff_exists.mp runs
  exact (pagesOwned_iff_keepsPages oneSlot 4 512 _ t run).mpr (by decide)

/-- A second request takes the only slot before the first is resumed. -/
def lostPagesRun : List SchedulerOp :=
  [.enqueue (request 1), .nextBatch, .preemptLowest, .enqueue (request 2), .nextBatch,
    .resume 0 5]

theorem fullResume_loses_pages :
    ¬ Runs.Always step PagesOwned (start oneSlot 4 512) lostPagesRun := by
  have runs : (Runs.exec step (start oneSlot 4 512) lostPagesRun).isSome = true := by decide
  obtain ⟨t, run⟩ := Option.isSome_iff_exists.mp runs
  rw [pagesOwned_iff_of_inv (inv_start oneSlot 4 512) run]
  decide

end World

end TribunusCompute.Scheduling
