import TribunusCompute.Backend.BoundaryPlans
import TribunusCompute.Library.LittleEndian

/-!
# The digest of a boundary plan

The bytes that are hashed determine the plan: every list comes after its length, and the policy
after a byte that says which fields follow.
-/
namespace TribunusCompute.Backend

open Lowering Delimited

/-- The discriminant of a policy, and the fields of an eager one. -/
def EvaluationPolicy.bytes : EvaluationPolicy → List UInt8
  | .backendLazy => [0]
  | .explicitRegion => [1]
  | .explicitOperation => [2]
  | .eager releaseInputsAfterUse prohibitDeferredNodes =>
    [3, releaseInputsAfterUse.toUInt8, prohibitDeferredNodes.toUInt8]

def SynchronizationPolicy.discriminant : SynchronizationPolicy → UInt8
  | .none => 0
  | .barrier => 1
  | .stream => 2
  | .device => 3

def boundaryBytes (plan : ExecutionBoundaryPlan) : List UInt8 :=
  [1] ++
  LittleEndian.encode 8 plan.groupId.id ++
  LittleEndian.encode 4 plan.backendId.id ++
  counted 4 (LittleEndian.encode 8 ·.id) plan.operations ++
  counted 4 (LittleEndian.encode 8 ·.id) plan.materializedOutputs ++
  plan.policy.bytes ++
  [plan.synchronization.discriminant] ++
  counted 4 (LittleEndian.encode 8 ·.id) plan.releaseAfter

/-- The digest in hexadecimal, by a hash that gives it so. -/
def computeBoundaryDigest (sha256 : List UInt8 → String) (plan : ExecutionBoundaryPlan) : String :=
  sha256 (boundaryBytes plan)

structure SealedExecutionBoundaryPlan where
  plan : ExecutionBoundaryPlan
  contentDigest : String
  deriving DecidableEq, Repr

namespace SealedExecutionBoundaryPlan

def «seal» (sha256 : List UInt8 → String) (plan : ExecutionBoundaryPlan) :
    SealedExecutionBoundaryPlan :=
  ⟨plan, computeBoundaryDigest sha256 plan⟩

def verify (sha256 : List UInt8 → String) (self : SealedExecutionBoundaryPlan) : Bool :=
  self.contentDigest = computeBoundaryDigest sha256 self.plan

end SealedExecutionBoundaryPlan

/-! ## Injectivity -/

/-- The ids are numbers of their types, and no list has more elements than its length has
numbers. -/
structure ExecutionBoundaryPlan.Sized (plan : ExecutionBoundaryPlan) : Prop where
  group : plan.groupId.id < 2 ^ 64
  backend : plan.backendId.id < 2 ^ 32
  operations : ∀ op ∈ plan.operations, op.id < 2 ^ 64
  outputs : ∀ t ∈ plan.materializedOutputs, t.id < 2 ^ 64
  released : ∀ t ∈ plan.releaseAfter, t.id < 2 ^ 64
  lengths : plan.operations.length < 2 ^ 32 ∧ plan.materializedOutputs.length < 2 ^ 32 ∧
    plan.releaseAfter.length < 2 ^ 32

theorem toUInt8_inj {a b : Bool} : a.toUInt8 = b.toUInt8 ↔ a = b := by
  cases a <;> cases b <;> decide

theorem code_policy : Code (fun _ => True) EvaluationPolicy.bytes := by
  intro p q _ _ r s same
  -- the first byte tells the policies apart, and how many bytes follow it
  cases p <;> cases q <;> simp_all [EvaluationPolicy.bytes, toUInt8_inj]

theorem code_synchronization : Code (fun _ => True)
    fun synchronization : SynchronizationPolicy => [synchronization.discriminant] := by
  refine Code.of_length 1 (fun _ _ => rfl) ?_
  intro p q _ _ same
  cases p <;> cases q <;> simp_all [SynchronizationPolicy.discriminant]

theorem code_ids {Id : Type} (id : Id → ℕ) (apart : Function.Injective id) :
    Code (fun ids : List Id => ids.length < 256 ^ 4 ∧ ∀ i ∈ ids, id i < 256 ^ 8)
      (counted 4 (LittleEndian.encode 8 <| id ·)) :=
  ((word 8).comap apart).counted 4

theorem code_boundary : Code ExecutionBoundaryPlan.Sized boundaryBytes := by
  have tensors := code_ids TensorId.id fun s t same => by cases s; cases t; cases same; rfl
  have operations := code_ids OperationId.id fun s t same => by cases s; cases t; cases same; rfl
  have version : Code (fun _ : Unit => True) fun _ => [(1 : UInt8)] :=
    Code.of_length 1 (fun _ _ => rfl) fun _ _ _ _ _ => rfl
  have fields := ((((((version.append (word 8)).append (word 4)).append operations).append
    tensors).append code_policy).append code_synchronization).append tensors
  -- the fields in the order in which they are hashed
  have code := fields.comap (h := fun plan : ExecutionBoundaryPlan =>
    ((((((((), plan.groupId.id), plan.backendId.id), plan.operations), plan.materializedOutputs),
      plan.policy), plan.synchronization), plan.releaseAfter)) (by
    rintro ⟨⟨_⟩, ⟨_⟩, _, _, _, _, _⟩ ⟨⟨_⟩, ⟨_⟩, _, _, _, _, _⟩ same
    cases same
    rfl)
  refine code.mono fun plan sized => ?_
  obtain ⟨few, few', few''⟩ := sized.lengths
  exact ⟨⟨⟨⟨⟨⟨⟨trivial, sized.group⟩, sized.backend⟩, few, sized.operations⟩, few',
    sized.outputs⟩, trivial⟩, trivial⟩, few'', sized.released⟩

/-- Two plans are hashed as the same bytes exactly if they agree, so that a plan that was sealed by
a hash without collisions verifies exactly if nothing of it was changed. -/
theorem boundary_digest_law (plan changed : ExecutionBoundaryPlan) (sized : plan.Sized)
    (sized' : changed.Sized) :
    (boundaryBytes plan = boundaryBytes changed ↔ plan = changed) ∧
      ∀ sha256 : List UInt8 → String,
        (sha256 (boundaryBytes plan) = sha256 (boundaryBytes changed) →
          boundaryBytes plan = boundaryBytes changed) →
        ({ SealedExecutionBoundaryPlan.«seal» sha256 plan with plan := changed }.verify sha256 =
          true ↔ changed = plan) := by
  have bytes := code_boundary.injective sized sized'
  refine ⟨bytes, fun sha256 apart => ?_⟩
  constructor
  · intro verified
    have same : sha256 (boundaryBytes plan) = sha256 (boundaryBytes changed) :=
      of_decide_eq_true verified
    exact (bytes.mp (apart same)).symm
  · rintro rfl
    exact decide_eq_true rfl

def eagerPlan (prohibitDeferredNodes : Bool) : ExecutionBoundaryPlan :=
  ⟨⟨1⟩, ⟨0⟩, [⟨7⟩], [⟨9⟩], .eager true prohibitDeferredNodes, .barrier, []⟩

def digestOfEager (bytes : List UInt8) : String :=
  if bytes = boundaryBytes (eagerPlan false) then
    "b296d57a4e2be7d71503e6dd7bf2ec0b4cd4975319fcc60f7e25ea020fc76c27"
  else if bytes = boundaryBytes (eagerPlan true) then
    "df9b7ffc82d6812830da5b67ec6ea7c68c6d1e67bb3ecbca36177a519c55e265"
  else ""

theorem eagerPlan_changed :
    ¬{ SealedExecutionBoundaryPlan.«seal» digestOfEager (eagerPlan false) with
        plan := eagerPlan true }.verify digestOfEager = true := by
  intro verified
  have sized (flag : Bool) : (eagerPlan flag).Sized := by
    constructor <;> simp [eagerPlan]
  have law := boundary_digest_law _ _ (sized false) (sized true)
  exact absurd ((law.2 digestOfEager (by decide)).mp verified) (by decide)

end TribunusCompute.Backend
