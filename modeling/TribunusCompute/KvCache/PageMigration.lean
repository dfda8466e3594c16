import TribunusCompute.Library.LittleEndian
import TribunusCompute.Library.Outcome
import TribunusCompute.Library.Runs
import TribunusCompute.Memory.BlockAllocator

/-!
# Pages that migrate between tiers

`kv_cache.rs`: `PageMigrationService`. A page keeps its data in the field of its
tier; `tick` promotes recent pages and demotes old ones, and two further calls
move pages to disk and back. Instants are numbers, `f32` are bit patterns, and
the files of the disk are a map from names to contents.
-/
namespace TribunusCompute.KvCache

open Memory (BlockHandle)

inductive KVCacheTier
  | l1AneSram
  | l2Iosurface
  | l3DramHeap
  | l4Disk
  deriving DecidableEq, Repr

structure TiersPage where
  l1Data : Option (List UInt32)
  l2Handle : Option BlockHandle
  l3Data : Option (List UInt8)
  currentTier : KVCacheTier
  lastAccess : ℕ
  tokenStart : UInt32
  /-- Exclusive. -/
  tokenEnd : UInt32
  deriving DecidableEq, Repr

/-! ## The compressor -/

namespace AneCompressor

def compressToL3 (_ : List UInt8) : List UInt8 := []

def decompressFromL3 (_ : List UInt8) : List UInt8 := []

end AneCompressor

/-- `chunks_exact(4)` read as `f32`: a rest of up to three bytes is dropped. -/
def floatsOfBytes : List UInt8 → List UInt32
  | a :: b :: c :: d :: rest =>
    UInt32.ofNat (LittleEndian.decode [a, b, c, d]) :: floatsOfBytes rest
  | _ => []

/-- `align_to::<u8>()` of a slice of `f32`. -/
def bytesOfFloats (floats : List UInt32) : List UInt8 :=
  floats.flatMap fun x => LittleEndian.encode 4 x.toNat

namespace TiersPage

def new (tokenStart tokenEnd : UInt32) (initialTier : KVCacheTier) (now : ℕ) : TiersPage where
  l1Data := if initialTier = .l1AneSram then some [] else none
  l2Handle := none
  l3Data := if initialTier = .l3DramHeap then some [] else none
  currentTier := initialTier
  lastAccess := now
  tokenStart := tokenStart
  tokenEnd := tokenEnd

def touch (page : TiersPage) (now : ℕ) : TiersPage := { page with lastAccess := now }

def containsToken (page : TiersPage) (tokenId : UInt32) : Bool :=
  page.tokenStart ≤ tokenId && tokenId < page.tokenEnd

def range (page : TiersPage) : UInt32 × UInt32 := (page.tokenStart, page.tokenEnd)

/-- `now.duration_since(page.last_access)`, which saturates at zero. -/
def age (page : TiersPage) (now : ℕ) : ℕ := now - page.lastAccess

def promoteToL1 (page : TiersPage) : Except String TiersPage :=
  match page.currentTier with
  | .l3DramHeap =>
    match page.l3Data with
    | none => .error "promote_to_l1: L3 page has no l3_data"
    | some bytes => .ok
        { page with
          l1Data := some (floatsOfBytes (AneCompressor.decompressFromL3 bytes))
          l3Data := none
          currentTier := .l1AneSram }
  | .l2Iosurface =>
    match page.l2Handle with
    | none => .error "promote_to_l1: L2 page has no l2_handle"
    -- The handle is dropped, and nothing is stored in its place.
    | some _ => .ok { page with l2Handle := none, currentTier := .l1AneSram }
  | .l1AneSram => .ok page
  | .l4Disk => .ok page

def demoteToL3 (page : TiersPage) : Except String TiersPage :=
  match page.currentTier with
  | .l1AneSram =>
    match page.l1Data with
    | none => .error "demote_to_l3: L1 page has no l1_data"
    | some fp16 => .ok
        { page with
          l3Data := some (AneCompressor.compressToL3 (bytesOfFloats fp16))
          l1Data := none
          currentTier := .l3DramHeap }
  | .l2Iosurface => .ok { page with l2Handle := none, currentTier := .l3DramHeap }
  | .l3DramHeap => .ok page
  | .l4Disk => .ok page

/-- A page in its optimal tier is skipped. -/
def moveByAge (hot cold age : ℕ) (page : TiersPage) : Except String TiersPage :=
  if age < hot ∧ page.currentTier ≠ .l1AneSram then page.promoteToL1
  else if cold < age ∧ page.currentTier ≠ .l3DramHeap then page.demoteToL3
  else .ok page

def demoteAged (cold age : ℕ) (page : TiersPage) : Except String TiersPage :=
  if cold < age ∧ page.currentTier = .l1AneSram then page.demoteToL3 else .ok page

/-- The body of the loop of `tick`. -/
def migrate (hot cold now : ℕ) (page : TiersPage) : Except String TiersPage :=
  page.moveByAge hot cold (page.age now) >>= demoteAged cold (page.age now)

end TiersPage

/-! ## The disk -/

abbrev PageDisk := String → Option (List UInt8)

def kvCacheDiskDir : String := "/tmp/tribunus-kv-cache"

def pageFile (tokenStart : UInt32) : String :=
  kvCacheDiskDir ++ "/page_" ++ String.ofList (Nat.toDigits 16 tokenStart.toNat) ++ ".kvp"

/-- The file name and the disk after the write, which succeeds. -/
def evictPageToDisk (disk : PageDisk) (page : TiersPage) : Except String (String × PageDisk) :=
  match page.l3Data with
  | none => .error "evict_page_to_disk: page has no l3_data"
  | some compressed =>
    .ok (pageFile page.tokenStart,
      Function.update disk (pageFile page.tokenStart) (some compressed))

/-- The file is removed once it is read. -/
def loadPageFromDisk (disk : PageDisk) (filename : String) :
    Except String (List UInt8 × PageDisk) :=
  match disk filename with
  | none => .error "read KV page: No such file or directory (os error 2)"
  | some data => .ok (data, Function.update disk filename none)

/-! ## The service -/

structure PageMigrationService where
  pages : List TiersPage
  hotThreshold : ℕ
  coldThreshold : ℕ
  deriving DecidableEq, Repr

namespace PageMigrationService

/-- The loop of `tick` over the pages taken out of the service: the result, and the pages pushed
back. An error drops the page at hand and those after it together with the vector. -/
def tickPages (hot cold now : ℕ) : List TiersPage → Except String Unit × List TiersPage
  | [] => (.ok (), [])
  | page :: rest =>
    match page.migrate hot cold now with
    -- `?` returns with the vector half consumed.
    | .error e => (.error e, [])
    | .ok moved =>
      let (result, pushed) := tickPages hot cold now rest
      (result, moved :: pushed)

def tick (s : PageMigrationService) (now : ℕ) : Except String Unit × PageMigrationService :=
  let (result, pushed) := tickPages s.hotThreshold s.coldThreshold now s.pages
  (result, { s with pages := pushed })

def markEvicted (s : PageMigrationService) (idx : ℕ) : PageMigrationService :=
  { s with
    pages := s.pages.modify idx fun page =>
      { page with l3Data := none, currentTier := .l4Disk } }

/-- The eviction loop over the indices, the last first: the count, the service, the disk. -/
def evictAll : List ℕ → PageMigrationService → PageDisk → ℕ →
    Except String (ℕ × PageMigrationService × PageDisk)
  | [], s, disk, evicted => .ok (evicted, s, disk)
  | idx :: rest, s, disk, evicted =>
    match s.pages[idx]? with
    -- Never taken: the indices are those of the list itself.
    | none => .error "index out of bounds"
    | some page => do
      let (_, disk) ← evictPageToDisk disk page
      evictAll rest (s.markEvicted idx) disk (evicted + 1)

def toEvict (s : PageMigrationService) (now : ℕ) : List ℕ :=
  (s.pages.zipIdx.filter fun (page, _) =>
    s.coldThreshold < page.age now && page.currentTier == .l3DramHeap).map Prod.snd

def checkAndEvict (s : PageMigrationService) (disk : PageDisk) (now : ℕ) :
    Except String (ℕ × PageMigrationService × PageDisk) :=
  evictAll (s.toEvict now).reverse s disk 0

/-- The tokens before and after the recently used pages that are not on disk. -/
def adjacentTokens (s : PageMigrationService) (now : ℕ) : List UInt32 :=
  let hotTokens := (s.pages.filter fun page =>
    page.age now < s.hotThreshold && page.currentTier != .l4Disk).map TiersPage.tokenStart
  hotTokens.flatMap fun hotStart =>
    [if hotStart < 256 then 0 else hotStart - 256, hotStart + 256]

def onDisk (tokenId : UInt32) (page : TiersPage) : Bool :=
  page.currentTier == .l4Disk && page.containsToken tokenId

/-- The loading loop: the first page on disk that contains the token comes back to L3. The
`n`-th page loaded is touched at `clock n`. -/
def prefetchAll (clock : ℕ → ℕ) : List UInt32 → PageMigrationService → PageDisk → ℕ →
    Except String (ℕ × PageMigrationService × PageDisk)
  | [], s, disk, prefetched => .ok (prefetched, s, disk)
  | adj :: rest, s, disk, prefetched =>
    match s.pages.find? (onDisk adj) with
    | none => prefetchAll clock rest s disk prefetched
    | some page => do
      let (data, disk) ← loadPageFromDisk disk (pageFile page.tokenStart)
      let loaded : TiersPage := { page with l3Data := some data, currentTier := .l3DramHeap }
      prefetchAll clock rest
        { s with
          pages := s.pages.set (s.pages.findIdx (onDisk adj)) (loaded.touch (clock prefetched)) }
        disk (prefetched + 1)

def prefetchPredicted (s : PageMigrationService) (disk : PageDisk) (now : ℕ) (clock : ℕ → ℕ) :
    Except String (ℕ × PageMigrationService × PageDisk) :=
  prefetchAll clock (s.adjacentTokens now) s disk 0

def touchToken (s : PageMigrationService) (tokenId : UInt32) (now : ℕ) : PageMigrationService :=
  let idx := s.pages.findIdx fun page => page.containsToken tokenId
  { s with pages := s.pages.modify idx fun page => page.touch now }

end PageMigrationService

/-! ## What one migration does -/

namespace TiersPage

variable {page moved : TiersPage} {hot cold now : ℕ}

theorem promoteToL1_range (promoted : page.promoteToL1 = .ok moved) :
    moved.range = page.range := by
  unfold promoteToL1 at promoted
  cases tier : page.currentTier <;> rw [tier] at promoted <;> dsimp only at promoted
  case l2Iosurface | l3DramHeap => split at promoted <;> cases promoted; rfl
  all_goals cases promoted; rfl

theorem demoteToL3_range (demoted : page.demoteToL3 = .ok moved) : moved.range = page.range := by
  unfold demoteToL3 at demoted
  cases tier : page.currentTier <;> rw [tier] at demoted <;> dsimp only at demoted
  case l1AneSram => split at demoted <;> cases demoted; rfl
  all_goals cases demoted; rfl

theorem migrate_range (migrated : page.migrate hot cold now = .ok moved) :
    moved.range = page.range := by
  rw [migrate, Outcome.bind_ok_iff] at migrated
  obtain ⟨first, moves, demotes⟩ := migrated
  have moved_range : moved.range = first.range := by
    unfold demoteAged at demotes
    split at demotes
    next => exact demoteToL3_range demotes
    next =>
      cases demotes
      rfl
  rw [moved_range]
  unfold moveByAge at moves
  split at moves
  next => exact promoteToL1_range moves
  next =>
    split at moves
    next => exact demoteToL3_range moves
    next =>
      cases moves
      rfl

/-- The data that the page's migration would read is missing. A page both recent and old, which
the thresholds allow, is promoted and then demoted. -/
def Stuck (page : TiersPage) (hot cold now : ℕ) : Prop :=
  match page.currentTier with
  | .l1AneSram => cold < page.age now ∧ page.l1Data = none
  | .l2Iosurface => page.age now < hot ∧
      (page.l2Handle = none ∨ cold < page.age now ∧ page.l1Data = none)
  | .l3DramHeap => page.age now < hot ∧ page.l3Data = none
  | .l4Disk => False

instance (page : TiersPage) (hot cold now : ℕ) : Decidable (page.Stuck hot cold now) := by
  unfold Stuck
  split <;> infer_instance

theorem migrate_fails_iff :
    (∃ e, page.migrate hot cold now = .error e) ↔ page.Stuck hot cold now := by
  obtain ⟨l1, l2, l3, tier, access, first, last⟩ := page
  unfold migrate moveByAge Stuck
  cases tier with
  | l1AneSram =>
    by_cases old : cold < now - access <;> cases l1 <;>
      simp [age, old, demoteToL3, demoteAged, bind, Except.bind]
  | l2Iosurface =>
    by_cases recent : now - access < hot <;> by_cases old : cold < now - access <;> cases l2 <;>
      cases l1 <;>
      simp [age, recent, old, promoteToL1, demoteToL3, demoteAged, bind, Except.bind]
  | l3DramHeap =>
    by_cases recent : now - access < hot <;> by_cases old : cold < now - access <;> cases l3 <;>
      simp [age, recent, old, promoteToL1, demoteToL3, demoteAged, bind, Except.bind]
  | l4Disk =>
    simp [promoteToL1, demoteToL3, demoteAged, bind, Except.bind]

theorem migrate_ok_of_not_stuck (free : ¬page.Stuck hot cold now) :
    ∃ moved, page.migrate hot cold now = .ok moved := by
  cases migrated : page.migrate hot cold now with
  | error e => exact absurd (migrate_fails_iff.mp ⟨e, migrated⟩) free
  | ok moved => exact ⟨moved, rfl⟩

end TiersPage

/-! ## A tick and the pages it was given -/

namespace PageMigrationService

open TiersPage

variable {hot cold now : ℕ}

theorem tickPages_of_free {pages : List TiersPage}
    (free : ∀ page ∈ pages, ¬page.Stuck hot cold now) :
    ∃ pushed, tickPages hot cold now pages = (.ok (), pushed) ∧
      List.Forall₂ (fun page moved => page.migrate hot cold now = .ok moved) pages pushed := by
  induction pages with
  | nil => exact ⟨[], rfl, .nil⟩
  | cons page rest ih =>
    obtain ⟨moved, migrated⟩ := migrate_ok_of_not_stuck (free page List.mem_cons_self)
    obtain ⟨pushed, ticked, each⟩ := ih fun p member => free p (List.mem_cons_of_mem _ member)
    exact ⟨moved :: pushed, by simp only [tickPages, migrated, ticked], .cons migrated each⟩

theorem ranges_of_migrated {pages pushed : List TiersPage}
    (each : List.Forall₂ (fun page moved => page.migrate hot cold now = .ok moved) pages pushed) :
    pushed.map range = pages.map range := by
  induction each with
  | nil => rfl
  | cons migrated _ ih => simp only [List.map_cons, migrate_range migrated, ih]

theorem tickPages_of_stuck {pages : List TiersPage} {page : TiersPage} (member : page ∈ pages)
    (stuck : page.Stuck hot cold now) :
    ∃ e pushed, tickPages hot cold now pages = (.error e, pushed) ∧
      pushed.length < pages.length := by
  induction pages with
  | nil => cases member
  | cons first rest ih =>
    cases migrated : first.migrate hot cold now with
    | error e => exact ⟨e, [], by simp only [tickPages, migrated], by simp⟩
    | ok moved =>
      -- The loop has not ended at this page, so the stuck one is a later one.
      rcases List.mem_cons.mp member with rfl | later
      · obtain ⟨e, fails⟩ := migrate_fails_iff.mpr stuck
        cases migrated.symm.trans fails
      · obtain ⟨e, pushed, ticked, fewer⟩ := ih later
        refine ⟨e, moved :: pushed, by simp only [tickPages, migrated, ticked], ?_⟩
        simpa using fewer

/-- The service tracks the same token ranges in the same order after the call, and after an error
the page whose migration failed is as it was. -/
structure KeepsPages (s : PageMigrationService) (now : ℕ) : Prop where
  ranges : (s.tick now).2.pages.map range = s.pages.map range
  failed : ∀ before page after, s.pages = before ++ page :: after →
    (∀ p ∈ before, ∃ moved, p.migrate s.hotThreshold s.coldThreshold now = .ok moved) →
    (∃ e, page.migrate s.hotThreshold s.coldThreshold now = .error e) →
      (s.tick now).2.pages[before.length]? = some page

/-- A tick keeps the pages exactly if none of them is stuck. -/
theorem keepsPages_iff (s : PageMigrationService) (now : ℕ) :
    s.KeepsPages now ↔ ∀ page ∈ s.pages, ¬page.Stuck s.hotThreshold s.coldThreshold now := by
  constructor
  · -- The ranges of the pages an error drops are missing.
    intro keeps page member stuck
    obtain ⟨e, pushed, ticked, fewer⟩ := tickPages_of_stuck member stuck
    have length := congrArg List.length keeps.ranges
    simp only [tick, ticked, List.length_map] at length
    omega
  · intro free
    obtain ⟨pushed, ticked, each⟩ := tickPages_of_free free
    refine ⟨?_, ?_⟩
    · simp only [tick, ticked]
      exact ranges_of_migrated each
    · intro before page after split _ fails
      -- There is no failing page.
      have member : page ∈ s.pages := by simp [split]
      exact absurd (migrate_fails_iff.mp fails) (free page member)

/-- A page added at L2 has no handle yet: the tick fails on it and loses it, together with the
page after it. -/
theorem newL2Page_losesPages :
    ¬KeepsPages
      { pages := [TiersPage.new 0 256 .l2Iosurface 0, TiersPage.new 256 512 .l1AneSram 0]
        hotThreshold := 5
        coldThreshold := 30 } 1 :=
  fun keeps => absurd keeps.ranges (by decide)

end PageMigrationService

end TribunusCompute.KvCache
