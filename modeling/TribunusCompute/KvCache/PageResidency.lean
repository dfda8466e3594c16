import TribunusCompute.KvCache.PageMigration

/-!
# Where the data of a page is

The field of a page's tier holds its data and the other fields are empty. Every
transition but the two that leave L2 keeps this: those drop the handle and fill
nothing.
-/
namespace TribunusCompute.KvCache

namespace TiersPage

variable {page moved : TiersPage} {hot cold now : ℕ}

/-- The data is in the field of the current tier and nowhere else. -/
def Populated (page : TiersPage) : Prop :=
  match page.currentTier with
  | .l1AneSram => page.l1Data.isSome ∧ page.l2Handle = none ∧ page.l3Data = none
  | .l2Iosurface => page.l2Handle.isSome ∧ page.l1Data = none ∧ page.l3Data = none
  | .l3DramHeap => page.l3Data.isSome ∧ page.l1Data = none ∧ page.l2Handle = none
  | .l4Disk => page.l1Data = none ∧ page.l2Handle = none ∧ page.l3Data = none

instance : (page : TiersPage) → Decidable page.Populated
  | ⟨_, _, _, .l1AneSram, _, _, _⟩ | ⟨_, _, _, .l2Iosurface, _, _, _⟩
  | ⟨_, _, _, .l3DramHeap, _, _, _⟩ | ⟨_, _, _, .l4Disk, _, _, _⟩ =>
    inferInstanceAs (Decidable (_ ∧ _ ∧ _))

theorem Populated.touch (populated : page.Populated) : (page.touch now).Populated := populated

/-- Data in the L3 field means that the page is at L3. -/
theorem Populated.evicted {bytes : List UInt8} (populated : page.Populated)
    (l3 : page.l3Data = some bytes) :
    ({ page with l3Data := none, currentTier := .l4Disk } : TiersPage).Populated := by
  obtain ⟨l1Data, l2Handle, l3Data, tier, access, first, last⟩ := page
  cases tier <;> simp_all [Populated]

theorem Populated.loaded (populated : page.Populated) (tier : page.currentTier = .l4Disk)
    (data : List UInt8) :
    ({ page with l3Data := some data, currentTier := .l3DramHeap } : TiersPage).Populated := by
  simp only [Populated, tier] at populated
  simp [Populated, populated]

theorem Populated.promoteToL1 (populated : page.Populated) (tier : page.currentTier ≠ .l2Iosurface)
    (promoted : page.promoteToL1 = .ok moved) :
    moved.Populated ∧ moved.currentTier ≠ .l2Iosurface := by
  obtain ⟨l1Data, l2Handle, l3Data, currentTier, access, first, last⟩ := page
  cases currentTier with
  | l2Iosurface => exact absurd rfl tier
  | l3DramHeap =>
    cases l3Data with
    | none => cases promoted
    | some bytes =>
      cases promoted
      simp only [Populated] at populated
      simp [Populated, populated]
  | l1AneSram | l4Disk =>
    cases promoted
    exact ⟨populated, tier⟩

theorem Populated.demoteToL3 (populated : page.Populated) (tier : page.currentTier ≠ .l2Iosurface)
    (demoted : page.demoteToL3 = .ok moved) :
    moved.Populated ∧ moved.currentTier ≠ .l2Iosurface := by
  obtain ⟨l1Data, l2Handle, l3Data, currentTier, access, first, last⟩ := page
  cases currentTier with
  | l2Iosurface => exact absurd rfl tier
  | l1AneSram =>
    cases l1Data with
    | none => cases demoted
    | some fp16 =>
      cases demoted
      simp only [Populated] at populated
      simp [Populated, populated]
  | l3DramHeap | l4Disk =>
    cases demoted
    exact ⟨populated, tier⟩

/-- A page that is not at L2 keeps its data through a migration. -/
theorem Populated.migrate (populated : page.Populated) (tier : page.currentTier ≠ .l2Iosurface)
    (migrated : page.migrate hot cold now = .ok moved) : moved.Populated := by
  rw [TiersPage.migrate, Outcome.bind_ok_iff] at migrated
  obtain ⟨first, moves, demotes⟩ := migrated
  have between : first.Populated ∧ first.currentTier ≠ .l2Iosurface := by
    unfold moveByAge at moves
    split at moves
    next => exact populated.promoteToL1 tier moves
    next =>
      split at moves
      next => exact populated.demoteToL3 tier moves
      next =>
        cases moves
        exact ⟨populated, tier⟩
  unfold demoteAged at demotes
  split at demotes
  next => exact (between.1.demoteToL3 between.2 demotes).1
  next =>
    cases demotes
    exact between.1

/-- A page at L2 keeps its data exactly if it stays where it is. -/
theorem Populated.migrate_l2 (populated : page.Populated) (tier : page.currentTier = .l2Iosurface)
    (migrated : page.migrate hot cold now = .ok moved) :
    moved.Populated ↔ hot ≤ page.age now ∧ page.age now ≤ cold := by
  obtain ⟨l1Data, l2Handle, l3Data, currentTier, access, first, last⟩ := page
  cases tier
  simp only [Populated, Option.isSome_iff_exists] at populated
  obtain ⟨⟨handle, rfl⟩, rfl, rfl⟩ := populated
  simp only [TiersPage.migrate, age] at migrated ⊢
  rcases Nat.lt_or_ge (now - access) hot with recent | late
  · -- Promoted without data, so a demotion after it would fail.
    simp only [moveByAge, recent, TiersPage.promoteToL1, ne_eq, reduceCtorEq, not_false_eq_true,
      and_self, if_true, bind, Except.bind, demoteAged] at migrated
    split at migrated
    next => cases migrated
    next =>
      cases migrated
      exact iff_of_false (by simp [Populated]) (by omega)
  · rcases Nat.lt_or_ge cold (now - access) with old | young
    · -- Demoted without data; the second check sees a page that is no longer at L1.
      simp only [moveByAge, Nat.not_lt.mpr late, old, false_and, if_false, ne_eq, reduceCtorEq,
        not_false_eq_true, and_self, if_true, TiersPage.demoteToL3, bind, Except.bind, demoteAged,
        and_false] at migrated
      cases migrated
      exact iff_of_false (by simp [Populated]) (by omega)
    · simp only [moveByAge, Nat.not_lt.mpr late, Nat.not_lt.mpr young, false_and, if_false, bind,
        Except.bind, demoteAged] at migrated
      cases migrated
      exact iff_of_true (by simp [Populated]) ⟨late, young⟩

end TiersPage

/-! ## The calls -/

structure PageStore where
  service : PageMigrationService
  disk : PageDisk

/-- A call at an instant; `clock` says when the pages it loads are touched. -/
inductive MigrationOp
  | tick (now : ℕ)
  | checkAndEvict (now : ℕ)
  | prefetchPredicted (now : ℕ) (clock : ℕ → ℕ)
  | touchToken (tokenId : UInt32) (now : ℕ)

namespace PageMigrationService

open TiersPage

def AllPopulated (s : PageMigrationService) : Prop := ∀ page ∈ s.pages, page.Populated

instance (s : PageMigrationService) : Decidable s.AllPopulated :=
  inferInstanceAs (Decidable (∀ page ∈ s.pages, page.Populated))

/-- No page at L2 is recent enough to be promoted, or old enough to be demoted. -/
def LeavesL2 (s : PageMigrationService) (now : ℕ) : Prop :=
  ∀ page ∈ s.pages, page.currentTier = .l2Iosurface →
    s.hotThreshold ≤ page.age now ∧ page.age now ≤ s.coldThreshold

instance (s : PageMigrationService) (now : ℕ) : Decidable (s.LeavesL2 now) :=
  inferInstanceAs (Decidable (∀ page ∈ s.pages, _ → _))

variable {s t : PageMigrationService} {disk disk' : PageDisk} {now : ℕ}

theorem migrated_of_tickPages {hot cold : ℕ} {pages pushed : List TiersPage}
    (ticked : tickPages hot cold now pages = (.ok (), pushed)) :
    List.Forall₂ (fun page moved => page.migrate hot cold now = .ok moved) pages pushed := by
  induction pages generalizing pushed with
  | nil =>
    cases ticked
    exact .nil
  | cons page rest ih =>
    simp only [tickPages] at ticked
    split at ticked
    next => cases ticked
    next moved migrated =>
      cases later : tickPages hot cold now rest with
      | mk result rest' =>
        rw [later] at ticked
        cases ticked
        exact .cons migrated (ih later)

theorem populated_iff_of_migrated {hot cold : ℕ} {pages pushed : List TiersPage}
    (populated : ∀ page ∈ pages, page.Populated)
    (each : List.Forall₂ (fun page moved => page.migrate hot cold now = .ok moved) pages pushed) :
    (∀ moved ∈ pushed, moved.Populated) ↔ ∀ page ∈ pages, page.currentTier = .l2Iosurface →
      hot ≤ page.age now ∧ page.age now ≤ cold := by
  induction each with
  | nil => simp
  | @cons page _ _ _ migrated _ ih =>
    obtain ⟨here, later⟩ := List.forall_mem_cons.mp populated
    rw [List.forall_mem_cons, List.forall_mem_cons]
    refine and_congr ?_ (ih later)
    by_cases tier : page.currentTier = .l2Iosurface
    · rw [here.migrate_l2 tier migrated]
      exact ⟨fun stays _ => stays, fun stays => stays tier⟩
    · exact iff_of_true (here.migrate tier migrated) fun l2 => absurd l2 tier

/-- A successful tick keeps the data where it belongs exactly if no page leaves L2. -/
theorem allPopulated_tick_iff (populated : s.AllPopulated) (ticked : s.tick now = (.ok (), t)) :
    t.AllPopulated ↔ s.LeavesL2 now := by
  unfold tick at ticked
  cases pass : tickPages s.hotThreshold s.coldThreshold now s.pages with
  | mk result pushed =>
    rw [pass] at ticked
    cases ticked
    exact populated_iff_of_migrated populated (migrated_of_tickPages pass)

theorem AllPopulated.modify {idx : ℕ} {f : TiersPage → TiersPage} (populated : s.AllPopulated)
    (kept : ∀ page ∈ s.pages, s.pages[idx]? = some page → (f page).Populated) :
    ({ s with pages := s.pages.modify idx f } : PageMigrationService).AllPopulated := by
  intro p member
  obtain ⟨i, at_i⟩ := List.mem_iff_getElem?.mp member
  simp only [List.getElem?_modify] at at_i
  obtain ⟨page, before, rfl⟩ := Option.map_eq_some_iff.mp at_i
  have old := List.mem_of_getElem? before
  split
  next same => exact kept page old (same ▸ before)
  next => exact populated page old

theorem AllPopulated.evictAll {indices : List ℕ} {evicted count : ℕ} (populated : s.AllPopulated)
    (evicts : evictAll indices s disk evicted = .ok (count, t, disk')) : t.AllPopulated := by
  induction indices generalizing s disk evicted with
  | nil =>
    cases evicts
    exact populated
  | cons idx rest ih =>
    simp only [PageMigrationService.evictAll] at evicts
    split at evicts
    next => cases evicts
    next page found =>
      obtain ⟨⟨file, disk₁⟩, wrote, evicts⟩ := Outcome.bind_ok_iff.mp evicts
      refine ih (populated.modify fun page' member found' => ?_) evicts
      obtain rfl : page = page' := Option.some.inj (found.symm.trans found')
      -- Only a page with its data at L3 is written.
      unfold evictPageToDisk at wrote
      split at wrote
      next => cases wrote
      next l3 => exact (populated page member).evicted l3

theorem AllPopulated.prefetchAll {clock : ℕ → ℕ} {tokens : List UInt32} {prefetched count : ℕ}
    (populated : s.AllPopulated)
    (loads : prefetchAll clock tokens s disk prefetched = .ok (count, t, disk')) :
    t.AllPopulated := by
  induction tokens generalizing s disk prefetched with
  | nil =>
    cases loads
    exact populated
  | cons adj rest ih =>
    simp only [PageMigrationService.prefetchAll] at loads
    split at loads
    next => exact ih populated loads
    next page found =>
      obtain ⟨⟨data, disk₁⟩, -, loads⟩ := Outcome.bind_ok_iff.mp loads
      refine ih ?_ loads
      have onDisk : page.currentTier = .l4Disk := by
        have covers := List.find?_some found
        simp only [PageMigrationService.onDisk, Bool.and_eq_true, beq_iff_eq] at covers
        exact covers.1
      intro p member
      rcases List.mem_or_eq_of_mem_set member with old | rfl
      · exact populated p old
      · exact ((populated page (List.mem_of_find?_eq_some found)).loaded onDisk data).touch

theorem AllPopulated.touchToken (populated : s.AllPopulated) (tokenId : UInt32) :
    (s.touchToken tokenId now).AllPopulated :=
  populated.modify fun page member _ => (populated page member).touch

end PageMigrationService

namespace PageStore

open PageMigrationService

/-- One call; `none` when it returns an error. -/
def step (s : PageStore) : MigrationOp → Option PageStore
  | .tick now =>
    match s.service.tick now with
    | (.ok (), service) => some { s with service := service }
    | (.error _, _) => none
  | .checkAndEvict now =>
    match s.service.checkAndEvict s.disk now with
    | .ok (_, service, disk) => some { service := service, disk := disk }
    | .error _ => none
  | .prefetchPredicted now clock =>
    match s.service.prefetchPredicted s.disk now clock with
    | .ok (_, service, disk) => some { service := service, disk := disk }
    | .error _ => none
  | .touchToken tokenId now => some { s with service := s.service.touchToken tokenId now }

def Populated (s : PageStore) : Prop := s.service.AllPopulated

instance (s : PageStore) : Decidable s.Populated :=
  inferInstanceAs (Decidable s.service.AllPopulated)

/-- No tick promotes or demotes a page at L2. -/
def KeepsL2 (s : PageStore) : MigrationOp → Prop
  | .tick now => s.service.LeavesL2 now
  | _ => True

instance (s : PageStore) (op : MigrationOp) : Decidable (s.KeepsL2 op) :=
  match op with
  | .tick now => inferInstanceAs (Decidable (s.service.LeavesL2 now))
  | .checkAndEvict _ | .prefetchPredicted .. | .touchToken .. => isTrue trivial

theorem populated_step_iff {s t : PageStore} {op : MigrationOp} (populated : s.Populated)
    (taken : s.step op = some t) : t.Populated ↔ s.KeepsL2 op := by
  cases op with
  | tick now =>
    simp only [step] at taken
    split at taken
    next service ticked =>
      cases taken
      exact allPopulated_tick_iff populated ticked
    next => cases taken
  | checkAndEvict now =>
    refine iff_of_true ?_ trivial
    simp only [step] at taken
    split at taken
    next count service disk evicts =>
      cases taken
      exact AllPopulated.evictAll populated evicts
    next => cases taken
  | prefetchPredicted now clock =>
    refine iff_of_true ?_ trivial
    simp only [step] at taken
    split at taken
    next count service disk loads =>
      cases taken
      exact AllPopulated.prefetchAll populated loads
    next => cases taken
  | touchToken tokenId now =>
    cases taken
    exact iff_of_true (AllPopulated.touchToken populated tokenId) trivial

/-- In every run of calls from pages with their data in place, it stays in place where no tick
moves a page at L2; and where the calls succeed, only there. -/
theorem populated_iff_keepsL2 (s : PageStore) (populated : s.Populated) (ops : List MigrationOp) :
    (Runs.Guarded step KeepsL2 s ops → Runs.Always step Populated s ops) ∧
      ∀ t, Runs.exec step s ops = some t →
        Runs.Always step Populated s ops → Runs.Guarded step KeepsL2 s ops := by
  constructor
  · exact Runs.always_of_guarded step
      (fun s op t inv keeps taken => (populated_step_iff inv taken).mpr keeps) populated
  · intro t run
    refine (Runs.always_iff_guarded step (fun _ inv => inv) ?_ ?_ populated run).mp
    · exact fun s op t inv keeps taken => (populated_step_iff inv taken).mpr keeps
    · exact fun s op t inv taken after => (populated_step_iff inv taken).mp after

/-- A recent and an old page: the first is promoted, the second goes to disk. -/
theorem populated_promotedAndEvicted :
    Runs.Always step Populated
      { service :=
          { pages := [TiersPage.new 0 256 .l3DramHeap 90, TiersPage.new 256 512 .l3DramHeap 0]
            hotThreshold := 50
            coldThreshold := 60 }
        disk := fun _ => none }
      [.tick 100, .checkAndEvict 100, .prefetchPredicted 100 fun _ => 100] :=
  (populated_iff_keepsL2 _ (by decide) _).1 (by decide)

/-- A page at L2 with its handle is recent: the tick leaves it at L1 without data. -/
theorem promotedL2Page_losesData :
    ∃ s t : PageStore, s.Populated ∧ Runs.exec step s [.tick 1] = some t ∧ ¬t.Populated := by
  let page : TiersPage :=
    { TiersPage.new 0 256 .l2Iosurface 0 with l2Handle := some (Memory.BlockHandle.new 0 0) }
  exact ⟨⟨⟨[page], 5, 30⟩, fun _ => none⟩, _, by decide, rfl, by decide⟩

end PageStore

end TribunusCompute.KvCache
