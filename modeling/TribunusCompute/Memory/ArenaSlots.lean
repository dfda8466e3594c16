import Mathlib.Data.Rat.Floor
import TribunusCompute.Library.Strides
import TribunusCompute.Lowering.Scheduled

/-!
# The slots of a memory plan

`plan_from_scheduled_module` gives each region that needs memory a slice of one arena. The slices
start one page apart, whatever their sizes, so that they are disjoint exactly when no slice but
the last is larger than a page.
-/
namespace TribunusCompute.Memory

open Lowering (ScheduledRegion ScheduledModule)

/-- What the plan uses of `f64`. -/
structure RatioOps (F : Type*) where
  one : F
  ofU64 : ℕ → F
  div : F → F → F
  toU64 : F → UInt64

/-- A slice of the arena, by its address and the expected size of the allocation. -/
structure MemoryPlanSlot where
  iosurfacePtr : ℕ
  size : ℕ
  deriving DecidableEq, Repr

/-- The slots, in the order of the allocations. -/
structure MemoryPlan where
  slots : List MemoryPlanSlot
  deriving DecidableEq, Repr

namespace MemoryPlan

def new : MemoryPlan := ⟨[]⟩

def addSlot (plan : MemoryPlan) (ptr size : ℕ) : MemoryPlan := ⟨plan.slots ++ [⟨ptr, size⟩]⟩

def isEmpty (plan : MemoryPlan) : Bool := plan.slots.isEmpty

end MemoryPlan

section

variable {F : Type*} (ops : RatioOps F) (ratio : F)

/-- The bytes of a region under the compression ratio. -/
def scaledBytes (region : ScheduledRegion) : ℕ :=
  (ops.toU64 (ops.div (ops.ofU64 region.tempMemoryBytes) ratio)).toNat

/-- One turn of the loop over the regions. -/
def planRegion (basePtr : ℕ) (plan : MemoryPlan) (region : ScheduledRegion) : MemoryPlan :=
  let scaled := scaledBytes ops ratio region
  if scaled = 0 then plan
  else
    -- one page for each slot before, whatever its size
    let offset := plan.slots.length * 4096
    plan.addSlot (basePtr + offset) scaled

end

/-- The plan for the scheduled regions, in the arena at `basePtr`. -/
def planFromScheduledModule {F : Type*} (ops : RatioOps F) (scheduled : ScheduledModule)
    (basePtr : ℕ) (compressionRatio : Option F) : Option MemoryPlan :=
  let ratio := compressionRatio.getD ops.one
  let plan := scheduled.regions.foldl (planRegion ops ratio basePtr) .new
  if plan.isEmpty then none else some plan

def MemoryPlanSlot.slice (slot : MemoryPlanSlot) : Set ℕ :=
  Set.Ico slot.iosurfacePtr (slot.iosurfacePtr + slot.size)

def MemoryPlan.SlicesDisjoint (plan : MemoryPlan) : Prop :=
  plan.slots.Pairwise fun left right => Disjoint left.slice right.slice

section

variable {F : Type*} (ops : RatioOps F)

/-- The sizes of the slots: what the regions need, where they need something. -/
def slotSizes (scheduled : ScheduledModule) (compressionRatio : Option F) : List ℕ :=
  (scheduled.regions.map (scaledBytes ops (compressionRatio.getD ops.one))).filter (· ≠ 0)

def MemoryPlanSlot.piece (slot : MemoryPlanSlot) : ℕ × ℕ := (slot.iosurfacePtr, slot.size)

theorem pieces_foldl_planRegion (ratio : F) (basePtr : ℕ) (regions : List ScheduledRegion)
    (plan : MemoryPlan) :
    (regions.foldl (planRegion ops ratio basePtr) plan).slots.map MemoryPlanSlot.piece =
      plan.slots.map MemoryPlanSlot.piece ++
        Strides.pieces 4096 (basePtr + plan.slots.length * 4096)
          ((regions.map (scaledBytes ops ratio)).filter (· ≠ 0)) := by
  induction regions generalizing plan with
  | nil => simp [Strides.pieces]
  | cons region regions ih =>
    rw [List.foldl_cons, ih, List.map_cons]
    -- a region that needs no memory gets no slot
    by_cases nothing : scaledBytes ops ratio region = 0
    · have skipped : planRegion ops ratio basePtr plan region = plan := if_pos nothing
      rw [skipped, List.filter_cons_of_neg (by simpa using nothing)]
    · have added : planRegion ops ratio basePtr plan region =
          plan.addSlot (basePtr + plan.slots.length * 4096) (scaledBytes ops ratio region) :=
        if_neg nothing
      rw [added, List.filter_cons_of_pos (by simpa using nothing), Strides.pieces]
      -- the next piece starts where one more slot puts it
      have next : basePtr + (plan.slots.length + 1) * 4096 =
          basePtr + plan.slots.length * 4096 + 4096 := by ring
      simp [MemoryPlan.addSlot, MemoryPlanSlot.piece, next]

theorem pieces_planFromScheduledModule {scheduled : ScheduledModule} {basePtr : ℕ}
    {compressionRatio : Option F} {plan : MemoryPlan}
    (planned : planFromScheduledModule ops scheduled basePtr compressionRatio = some plan) :
    plan.slots.map MemoryPlanSlot.piece =
      Strides.pieces 4096 basePtr (slotSizes ops scheduled compressionRatio) := by
  unfold planFromScheduledModule at planned
  simp only at planned
  split at planned
  next => cases planned
  next =>
    obtain rfl := Option.some.inj planned
    rw [pieces_foldl_planRegion]
    simp [MemoryPlan.new, slotSizes]

/-- The slices of a plan are disjoint exactly when no slot but the last is larger than a page. -/
theorem slicesDisjoint_iff (scheduled : ScheduledModule) (basePtr : ℕ)
    (compressionRatio : Option F) (plan : MemoryPlan)
    (planned : planFromScheduledModule ops scheduled basePtr compressionRatio = some plan) :
    plan.SlicesDisjoint ↔
      ∀ size ∈ (slotSizes ops scheduled compressionRatio).dropLast, size ≤ 4096 := by
  -- an empty slice would be apart from any other
  have nonempty : ∀ size ∈ slotSizes ops scheduled compressionRatio, 0 < size := by
    intro size member
    have kept := (List.mem_filter.mp member).2
    exact Nat.pos_of_ne_zero (by simpa using kept)
  rw [← Strides.pairwise_disjoint_pieces_iff basePtr nonempty,
    ← pieces_planFromScheduledModule ops planned, List.pairwise_map]
  exact Iff.rfl

end

/-- Ratios as exact numbers. The conversion to an integer rounds down and saturates. -/
def exactRatios : RatioOps ℚ where
  one := 1
  ofU64 := fun n => n
  div := fun a b => a / b
  toU64 := fun q => UInt64.ofNat (min ⌊q⌋.toNat (2 ^ 64 - 1))

def regionOfBytes (tempMemoryBytes : ℕ) : ScheduledRegion where
  regionId := ⟨0⟩
  name := "layer"
  operations := []
  selectedBackend := ⟨0⟩
  physicalTensors := []
  inputs := []
  outputs := []
  dependencies := []
  stateEffects := []
  tempMemoryBytes
  isFence := false

/-- A module whose regions only need memory. -/
def moduleOfBytes (bytes : List ℕ) : ScheduledModule :=
  { ScheduledModule.new "source" with regions := bytes.map regionOfBytes }

/-- Two regions of two pages: the second starts in the middle of the first. -/
theorem twoPages_not_slicesDisjoint :
    ¬ ∀ (scheduled : ScheduledModule) (basePtr : ℕ) (compressionRatio : Option ℚ)
        (plan : MemoryPlan),
      planFromScheduledModule exactRatios scheduled basePtr compressionRatio = some plan →
      plan.SlicesDisjoint := by
  intro all
  have apart := all (moduleOfBytes [8192, 8192]) 65536 none
    ⟨[⟨65536, 8192⟩, ⟨69632, 8192⟩]⟩ (by decide +kernel)
  have pair := (List.pairwise_cons.mp apart).1 _ List.mem_cons_self
  have shared : 69632 ∈ (MemoryPlanSlot.mk 65536 8192).slice := by
    constructor <;> decide
  exact Set.disjoint_left.mp pair shared ⟨Nat.le_refl _, by decide⟩

/-- A page and then two pages, at four bytes for one. -/
theorem pageThenTwo_slicesDisjoint :
    (MemoryPlan.mk [⟨65536, 4096⟩, ⟨69632, 8192⟩]).SlicesDisjoint :=
  (slicesDisjoint_iff exactRatios (moduleOfBytes [16384, 32768]) 65536 (some 4) _
    (by decide +kernel)).mpr (by decide +kernel)

end TribunusCompute.Memory
