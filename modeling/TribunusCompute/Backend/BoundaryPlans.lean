import Mathlib.Data.List.AList
import Mathlib.Data.List.Induction
import TribunusCompute.Lowering.Scheduled

/-!
# The validation of boundary plans

`validate_boundary_plans` looks at the plans of a program through three maps: the group of each
operation, the backend of each group and the outputs of each group. It counts operations and asks
for transfers, but the order of the operations and the producers of the outputs it never reads,
and of plans with one group id it sees one backend.
-/
namespace TribunusCompute.Backend

open Lowering

structure EvaluationGroupId where
  id : ℕ
  deriving DecidableEq, Repr

inductive EvaluationPolicy
  | backendLazy
  | explicitRegion
  | explicitOperation
  | eager (releaseInputsAfterUse prohibitDeferredNodes : Bool)
  deriving DecidableEq, Repr

inductive EvaluationPolicySupport
  | native
  | emulated
  | unsupported
  deriving DecidableEq, Repr

/-- MLX, Accelerate, Core ML and the ANE in the order of their ids. -/
def policySupport (backend : BackendId) (policy : EvaluationPolicy) : EvaluationPolicySupport :=
  match backend.id, policy with
  | 0, .backendLazy | 0, .explicitRegion | 0, .explicitOperation => .native
  | 0, .eager _ _ => .emulated
  | 1, .backendLazy => .unsupported
  | 1, .explicitRegion => .emulated
  | 1, .explicitOperation | 1, .eager _ _ => .native
  | 2, .backendLazy => .unsupported
  | 2, .explicitRegion => .native
  | 2, .explicitOperation | 2, .eager _ _ => .unsupported
  | 3, .backendLazy => .unsupported
  | 3, .explicitRegion => .native
  | 3, .explicitOperation => .unsupported
  | 3, .eager _ _ => .native
  | _, _ => .unsupported

inductive SynchronizationPolicy
  | none
  | barrier
  | stream
  | device
  deriving DecidableEq, Repr

def SynchronizationPolicy.isSynchronized (self : SynchronizationPolicy) : Bool := self ≠ .none

structure ExecutionBoundaryPlan where
  groupId : EvaluationGroupId
  backendId : BackendId
  operations : List OperationId
  materializedOutputs : List TensorId
  policy : EvaluationPolicy
  synchronization : SynchronizationPolicy
  releaseAfter : List TensorId
  deriving DecidableEq, Repr

structure DependencyEdge where
  source : OperationId
  target : OperationId
  viaTensor : TensorId
  deriving DecidableEq, Repr

/-- What the validation reads of a planned transfer. -/
structure TensorTransferPlan where
  tensorId : TensorId
  sourceBackend : BackendId
  destinationBackend : BackendId
  deriving DecidableEq, Repr

structure BoundaryValidationContext where
  expectedOperations : List OperationId
  dependencyEdges : List DependencyEdge
  transferPlans : List TensorTransferPlan

inductive PlanValidationError
  | duplicateOperation (op : OperationId)
  | missingOperation (op : OperationId)
  | topologicalViolation (before after : OperationId)
  | unreferencedMaterializedOutput (tensor : TensorId)
  | consumerBeforeProducer (tensor : TensorId) (consumer : OperationId)
  | backendTransitionWithoutTransfer (source target : BackendId)
  | eagerWithDeferredDependency (op : OperationId) (via : TensorId)
      (crossesBoundaryTo : EvaluationGroupId)
  | unsupportedPolicy (backend : BackendId) (policy : EvaluationPolicy)
  | emptyBoundary (group : EvaluationGroupId)
  deriving DecidableEq, Repr

/-! ## The validation -/

abbrev OperationIndex := AList fun _ : OperationId => EvaluationGroupId

/-- The group of each operation. An operation met again is an error and keeps its last group. -/
def indexOperations (plans : List ExecutionBoundaryPlan) :
    OperationIndex × List PlanValidationError :=
  plans.foldl (fun found plan =>
    plan.operations.foldl (fun (index, errors) op =>
      (index.insert op plan.groupId,
        if op ∈ index then errors ++ [.duplicateOperation op] else errors)) found) (∅, [])

def missingOperations (index : OperationIndex) (ctx : BoundaryValidationContext) :
    List PlanValidationError :=
  ctx.expectedOperations.filterMap fun op =>
    if op ∈ index then none else some (.missingOperation op)

/-- The backend of each group, that of its last plan. -/
def backendOf (plans : List ExecutionBoundaryPlan) : AList fun _ : EvaluationGroupId => BackendId :=
  plans.foldl (fun backends plan => backends.insert plan.groupId plan.backendId) ∅

def hasTransfer (ctx : BoundaryValidationContext) (tensor : TensorId)
    (source target : BackendId) : Bool :=
  ctx.transferPlans.any fun tp =>
    tp.tensorId = tensor && tp.sourceBackend = source && tp.destinationBackend = target

/-- The error of an edge between backends. An edge with an unknown end is skipped. -/
def transitionError (index : OperationIndex)
    (backends : AList fun _ : EvaluationGroupId => BackendId) (ctx : BoundaryValidationContext)
    (edge : DependencyEdge) : Option PlanValidationError := do
  let fg ← index.lookup edge.source
  let tg ← index.lookup edge.target
  let fb ← backends.lookup fg
  let tb ← backends.lookup tg
  if fb ≠ tb && !hasTransfer ctx edge.viaTensor fb tb then
    some (.backendTransitionWithoutTransfer fb tb)
  else none

/-- The outputs of each group, those of its last plan. -/
def outputsOf (plans : List ExecutionBoundaryPlan) :
    AList fun _ : EvaluationGroupId => List TensorId :=
  plans.foldl (fun outputs plan => outputs.insert plan.groupId plan.materializedOutputs) ∅

/-- The errors of an edge that leaves the group of a plan. -/
def crossingErrors (index : OperationIndex)
    (outputs : AList fun _ : EvaluationGroupId => List TensorId) (plan : ExecutionBoundaryPlan)
    (edge : DependencyEdge) : List PlanValidationError :=
  match index.lookup edge.source, index.lookup edge.target with
  | some fromBoundary, some toBoundary =>
    if fromBoundary ≠ plan.groupId ∨ toBoundary = fromBoundary then []
    else
      let deferred : PlanValidationError :=
        .eagerWithDeferredDependency edge.source edge.viaTensor toBoundary
      let released := if edge.viaTensor ∈ plan.releaseAfter then [deferred] else []
      match plan.policy with
      | .eager _ true =>
        let outputIsMaterialized :=
          ((outputs.lookup plan.groupId).map fun outs => decide (edge.viaTensor ∈ outs)).getD false
        if outputIsMaterialized && plan.synchronization.isSynchronized then released
        else released ++ [deferred]
      | _ => released
  | _, _ => []

def planErrors (index : OperationIndex)
    (outputs : AList fun _ : EvaluationGroupId => List TensorId) (ctx : BoundaryValidationContext)
    (plan : ExecutionBoundaryPlan) : List PlanValidationError :=
  (if plan.operations = [] then [.emptyBoundary plan.groupId] else []) ++
    (if policySupport plan.backendId plan.policy = .unsupported then
      [.unsupportedPolicy plan.backendId plan.policy] else []) ++
    ctx.dependencyEdges.flatMap (crossingErrors index outputs plan)

def validateBoundaryPlans (plans : List ExecutionBoundaryPlan) (ctx : BoundaryValidationContext) :
    Except (List PlanValidationError) Unit :=
  let (index, duplicates) := indexOperations plans
  let errors := duplicates ++ missingOperations index ctx ++
    ctx.dependencyEdges.filterMap (transitionError index (backendOf plans) ctx) ++
    plans.flatMap (planErrors index (outputsOf plans) ctx)
  if errors = [] then .ok () else .error errors

/-! ## The contract -/

section Contract

variable (produces : OperationId → TensorId → Prop) (plans : List ExecutionBoundaryPlan)
  (ctx : BoundaryValidationContext)

/-- Every producer comes before its consumer in the order of the plans. -/
def Ordered : Prop :=
  ∀ edge ∈ ctx.dependencyEdges, ∃ before between after,
    plans.flatMap ExecutionBoundaryPlan.operations =
      before ++ edge.source :: between ++ edge.target :: after

def OutputsProduced : Prop :=
  ∀ earlier plan later, plans = earlier ++ plan :: later → ∀ tensor ∈ plan.materializedOutputs,
    ∃ op ∈ (earlier ++ [plan]).flatMap ExecutionBoundaryPlan.operations, produces op tensor

/-- What `ExecutionBoundaryPlan` documents, where `produces` tells the outputs of operations. -/
structure Contract : Prop where
  assigned : ∀ op ∈ ctx.expectedOperations, plans.countP (fun plan => op ∈ plan.operations) = 1
  ordered : Ordered plans ctx
  produced : OutputsProduced produces plans
  transferred : ∀ edge ∈ ctx.dependencyEdges, ∀ plan ∈ plans, ∀ other ∈ plans,
    edge.source ∈ plan.operations → edge.target ∈ other.operations →
    plan.backendId ≠ other.backendId →
      hasTransfer ctx edge.viaTensor plan.backendId other.backendId

/-- Another plan has the group id of this one and a different backend. -/
def Ambiguous (plan : ExecutionBoundaryPlan) : Prop :=
  ∃ other ∈ plans, other.groupId = plan.groupId ∧ other.backendId ≠ plan.backendId

/-- Plans whose group id is that of a plan on another backend have their transfers. -/
def AmbiguousTransferred : Prop :=
  ∀ edge ∈ ctx.dependencyEdges, ∀ plan ∈ plans, ∀ other ∈ plans,
    edge.source ∈ plan.operations → edge.target ∈ other.operations →
    plan.backendId ≠ other.backendId → Ambiguous plans plan ∨ Ambiguous plans other →
      hasTransfer ctx edge.viaTensor plan.backendId other.backendId

end Contract

/-! ## What the maps know -/

def assignments (plans : List ExecutionBoundaryPlan) : List (OperationId × EvaluationGroupId) :=
  plans.flatMap fun plan => plan.operations.map fun op => (op, plan.groupId)

theorem assignments_fst (plans : List ExecutionBoundaryPlan) :
    (assignments plans).map Prod.fst = plans.flatMap ExecutionBoundaryPlan.operations := by
  simp [assignments, List.map_flatMap, Function.comp_def]

theorem mem_assignments {plans : List ExecutionBoundaryPlan} {op : OperationId}
    {group : EvaluationGroupId} : (op, group) ∈ assignments plans ↔
      ∃ plan ∈ plans, op ∈ plan.operations ∧ plan.groupId = group := by
  simp [assignments]

/-- One turn of the loop over the operations. -/
def indexOne (found : OperationIndex × List PlanValidationError)
    (assigned : OperationId × EvaluationGroupId) : OperationIndex × List PlanValidationError :=
  (found.1.insert assigned.1 assigned.2,
    if assigned.1 ∈ found.1 then found.2 ++ [.duplicateOperation assigned.1] else found.2)

theorem indexOperations_eq (plans : List ExecutionBoundaryPlan) :
    indexOperations plans = (assignments plans).foldl indexOne (∅, []) := by
  simp only [indexOperations, assignments, List.foldl_flatMap, List.foldl_map]
  rfl

/-- Without an error, the loop met each operation once and kept its group. -/
theorem foldl_indexOne {assigned : List (OperationId × EvaluationGroupId)}
    {found : OperationIndex × List PlanValidationError}
    (clean : (assigned.foldl indexOne found).2 = []) :
    found.2 = [] ∧ (assigned.map Prod.fst).Nodup ∧ (∀ op ∈ assigned.map Prod.fst, op ∉ found.1) ∧
      ∀ op group, (assigned.foldl indexOne found).1.lookup op = some group ↔
        found.1.lookup op = some group ∨ (op, group) ∈ assigned := by
  induction assigned generalizing found with
  | nil => exact ⟨clean, List.nodup_nil, by simp, by simp⟩
  | cons first rest ih =>
    rw [List.foldl_cons] at clean
    obtain ⟨clean', distinct, apart, lookups⟩ := ih clean
    -- An operation that is known already would leave an error behind.
    have new : first.1 ∉ found.1 := by
      intro member
      simp [indexOne, member] at clean'
    have clean₀ : found.2 = [] := by simpa [indexOne, new] using clean'
    have unseen : first.1 ∉ rest.map Prod.fst := by
      intro member
      exact apart first.1 member ((AList.mem_insert _).mpr (.inl rfl))
    refine ⟨clean₀, List.nodup_cons.mpr ⟨unseen, distinct⟩, ?_, ?_⟩
    · intro op member
      obtain rfl | later := List.mem_cons.mp member
      · exact new
      · exact fun known => apart op later ((AList.mem_insert _).mpr (.inr known))
    · intro op group
      rw [List.foldl_cons, lookups]
      by_cases same : op = first.1
      · subst same
        have absent := AList.lookup_eq_none.mpr new
        have missing : (first.1, group) ∉ rest := fun member =>
          unseen (List.mem_map.mpr ⟨_, member, rfl⟩)
        simp [indexOne, absent, missing, Prod.ext_iff, eq_comm]
      · simp [indexOne, same, Prod.ext_iff]

theorem index_spec {plans : List ExecutionBoundaryPlan} (clean : (indexOperations plans).2 = []) :
    (plans.flatMap ExecutionBoundaryPlan.operations).Nodup ∧
      ∀ op group, (indexOperations plans).1.lookup op = some group ↔
        ∃ plan ∈ plans, op ∈ plan.operations ∧ plan.groupId = group := by
  rw [indexOperations_eq] at clean ⊢
  obtain ⟨-, distinct, -, lookups⟩ := foldl_indexOne clean
  rw [assignments_fst] at distinct
  refine ⟨distinct, fun op group => ?_⟩
  rw [lookups, mem_assignments]
  simp

theorem backendOf_append (plans : List ExecutionBoundaryPlan) (last : ExecutionBoundaryPlan) :
    backendOf (plans ++ [last]) = (backendOf plans).insert last.groupId last.backendId := by
  simp [backendOf, List.foldl_append]

theorem backendOf_spec (plans : List ExecutionBoundaryPlan) (plan : ExecutionBoundaryPlan)
    (member : plan ∈ plans) : ∃ other ∈ plans, other.groupId = plan.groupId ∧
      (backendOf plans).lookup plan.groupId = some other.backendId := by
  induction plans using List.reverseRecOn with
  | nil => cases member
  | append_singleton earlier last ih =>
    rw [backendOf_append]
    by_cases same : plan.groupId = last.groupId
    · exact ⟨last, by simp, same.symm, by rw [same, AList.lookup_insert]⟩
    · rw [AList.lookup_insert_ne same]
      obtain there | rfl := List.mem_append.mp member |>.imp_right List.mem_singleton.mp
      · obtain ⟨other, known, group, found⟩ := ih there
        exact ⟨other, by simp [known], group, found⟩
      · exact (same rfl).elim

/-- Where no plan of the group has another backend, the map gives the plan's own. -/
theorem backendOf_of_unambiguous {plans : List ExecutionBoundaryPlan}
    {plan : ExecutionBoundaryPlan} (member : plan ∈ plans) (clear : ¬Ambiguous plans plan) :
    (backendOf plans).lookup plan.groupId = some plan.backendId := by
  obtain ⟨other, known, group, found⟩ := backendOf_spec plans plan member
  have same : other.backendId = plan.backendId := by
    by_contra different
    exact clear ⟨other, known, group, different⟩
  rw [found, same]

/-! ## What acceptance gives -/

section Accepted

variable {plans : List ExecutionBoundaryPlan} {ctx : BoundaryValidationContext}

theorem errors_of_accepted (accepted : validateBoundaryPlans plans ctx = .ok ()) :
    (indexOperations plans).2 = [] ∧ missingOperations (indexOperations plans).1 ctx = [] ∧
      ∀ edge ∈ ctx.dependencyEdges,
        transitionError (indexOperations plans).1 (backendOf plans) ctx edge = none := by
  simp only [validateBoundaryPlans] at accepted
  split at accepted
  case isTrue none_ =>
    simp only [List.append_eq_nil_iff, List.filterMap_eq_nil_iff] at none_
    exact ⟨none_.1.1.1, none_.1.1.2, none_.1.2⟩
  case isFalse => cases accepted

theorem countP_of_nodup {op : OperationId}
    (distinct : (plans.flatMap ExecutionBoundaryPlan.operations).Nodup)
    (member : op ∈ plans.flatMap ExecutionBoundaryPlan.operations) :
    plans.countP (fun plan => op ∈ plan.operations) = 1 := by
  induction plans with
  | nil => cases member
  | cons plan rest ih =>
    rw [List.flatMap_cons] at distinct member
    obtain ⟨-, later, apart⟩ := List.nodup_append'.mp distinct
    by_cases here : op ∈ plan.operations
    -- The operations of all plans are distinct, so the later plans do not have it.
    · have nowhere : rest.countP (fun plan => op ∈ plan.operations) = 0 := by
        rw [List.countP_eq_zero]
        intro other known there
        exact apart here (List.mem_flatMap.mpr ⟨other, known, by simpa using there⟩)
      simp [here, nowhere]
    · have there := (List.mem_append.mp member).resolve_left here
      simp [here, ih later there]

theorem assigned_of_accepted (accepted : validateBoundaryPlans plans ctx = .ok ()) :
    ∀ op ∈ ctx.expectedOperations, plans.countP (fun plan => op ∈ plan.operations) = 1 := by
  intro op expected
  obtain ⟨clean, covered, -⟩ := errors_of_accepted accepted
  obtain ⟨distinct, lookups⟩ := index_spec clean
  have known : op ∈ (indexOperations plans).1 := by
    by_contra unknown
    have found := List.filterMap_eq_nil_iff.mp covered op expected
    simp [unknown] at found
  obtain ⟨group, found⟩ := Option.isSome_iff_exists.mp (AList.lookup_isSome.mpr known)
  obtain ⟨plan, member, here, -⟩ := (lookups op group).mp found
  exact countP_of_nodup distinct (List.mem_flatMap.mpr ⟨plan, member, here⟩)

theorem transferred_of_accepted (accepted : validateBoundaryPlans plans ctx = .ok ())
    {edge : DependencyEdge} (listed : edge ∈ ctx.dependencyEdges)
    {plan other : ExecutionBoundaryPlan} (member : plan ∈ plans) (member' : other ∈ plans)
    (produced : edge.source ∈ plan.operations) (consumed : edge.target ∈ other.operations)
    (crosses : plan.backendId ≠ other.backendId) (clear : ¬Ambiguous plans plan)
    (clear' : ¬Ambiguous plans other) :
    hasTransfer ctx edge.viaTensor plan.backendId other.backendId := by
  obtain ⟨clean, -, transitions⟩ := errors_of_accepted accepted
  obtain ⟨-, lookups⟩ := index_spec clean
  have source := (lookups edge.source plan.groupId).mpr ⟨plan, member, produced, rfl⟩
  have target := (lookups edge.target other.groupId).mpr ⟨other, member', consumed, rfl⟩
  have passed := transitions edge listed
  simp only [transitionError, source, target, backendOf_of_unambiguous member clear,
    backendOf_of_unambiguous member' clear', Option.bind_eq_bind, Option.bind_some] at passed
  by_contra missing
  simp [crosses, missing] at passed

/-- Plans that are accepted keep the contract where the order, the producers of the outputs and
the transfers of ambiguous groups are right: the validation looks at none of these. -/
theorem accepted_contract_iff (produces : OperationId → TensorId → Prop)
    (accepted : validateBoundaryPlans plans ctx = .ok ()) : Contract produces plans ctx ↔
      Ordered plans ctx ∧ OutputsProduced produces plans ∧ AmbiguousTransferred plans ctx := by
  constructor
  case mp =>
    intro contract
    refine ⟨contract.ordered, contract.produced, ?_⟩
    intro edge listed plan member other member' produced consumed crosses _
    exact contract.transferred edge listed plan member other member' produced consumed crosses
  case mpr =>
    rintro ⟨ordered, produced, ambiguous⟩
    refine ⟨assigned_of_accepted accepted, ordered, produced, ?_⟩
    intro edge listed plan member other member' source target crosses
    -- The validation looks up backends by group, which decides only where groups are clear.
    by_cases clear : Ambiguous plans plan ∨ Ambiguous plans other
    case pos => exact ambiguous edge listed plan member other member' source target crosses clear
    case neg =>
      obtain ⟨clear, clear'⟩ := not_or.mp clear
      exact transferred_of_accepted accepted listed member member' source target crosses clear
        clear'

end Accepted

/-- Operation 1 on MLX makes tensor 9, which operation 2 on Accelerate reads. -/
def twoBackends : List ExecutionBoundaryPlan :=
  [⟨⟨0⟩, ⟨0⟩, [⟨1⟩], [⟨9⟩], .backendLazy, .none, []⟩,
    ⟨⟨1⟩, ⟨1⟩, [⟨2⟩], [], .explicitRegion, .none, []⟩]

def twoBackendsContext : BoundaryValidationContext :=
  ⟨[⟨1⟩, ⟨2⟩], [⟨⟨1⟩, ⟨2⟩, ⟨9⟩⟩], [⟨⟨9⟩, ⟨0⟩, ⟨1⟩⟩]⟩

theorem twoBackends_contract :
    validateBoundaryPlans twoBackends twoBackendsContext = .ok () ∧
      Contract (fun op tensor => op = ⟨1⟩ ∧ tensor = ⟨9⟩) twoBackends twoBackendsContext := by
  refine ⟨rfl, (accepted_contract_iff _ rfl).mpr ⟨?ordered, ?produced, ?transferred⟩⟩
  case ordered =>
    intro edge listed
    obtain rfl := List.mem_singleton.mp listed
    exact ⟨[], [], [], rfl⟩
  case produced =>
    intro earlier plan later parted tensor output
    rcases earlier with _ | ⟨first, _ | ⟨second, earlier⟩⟩
    · obtain ⟨rfl, -⟩ := List.cons.inj parted
      exact ⟨⟨1⟩, by simp, rfl, List.mem_singleton.mp output⟩
    -- the second plan has no outputs
    · obtain ⟨rfl, second⟩ := List.cons.inj parted
      obtain ⟨rfl, -⟩ := List.cons.inj second
      cases output
    · simp [twoBackends] at parted
  case transferred =>
    intro edge listed plan member other member' produced consumed _ _
    obtain rfl := List.mem_singleton.mp listed
    have ends : ∀ plan ∈ twoBackends, ∀ other ∈ twoBackends, ⟨1⟩ ∈ plan.operations →
        ⟨2⟩ ∈ other.operations → hasTransfer twoBackendsContext ⟨9⟩ plan.backendId
          other.backendId := by
      decide
    exact ends plan member other member' produced consumed

/-- The consumer comes first, under the group id of its producer's plan on another backend, and
no operation makes tensor 7. -/
def unorderedPlans : List ExecutionBoundaryPlan :=
  [⟨⟨0⟩, ⟨1⟩, [⟨2⟩], [⟨7⟩], .explicitRegion, .none, []⟩,
    ⟨⟨0⟩, ⟨0⟩, [⟨1⟩], [⟨9⟩], .backendLazy, .none, []⟩]

def unorderedContext : BoundaryValidationContext :=
  ⟨[⟨1⟩, ⟨2⟩], [⟨⟨1⟩, ⟨2⟩, ⟨9⟩⟩], []⟩

theorem unorderedPlans_accepted :
    validateBoundaryPlans unorderedPlans unorderedContext = .ok () ∧
      ¬Ordered unorderedPlans unorderedContext ∧
      ¬OutputsProduced (fun op tensor => op = ⟨1⟩ ∧ tensor = ⟨9⟩) unorderedPlans ∧
      ¬AmbiguousTransferred unorderedPlans unorderedContext ∧
      ¬Contract (fun op tensor => op = ⟨1⟩ ∧ tensor = ⟨9⟩) unorderedPlans unorderedContext := by
  have unordered : ¬Ordered unorderedPlans unorderedContext := by
    intro ordered
    -- Operation 2 is the first, so that nothing stands before it.
    obtain ⟨before, between, after, parted⟩ := ordered ⟨⟨1⟩, ⟨2⟩, ⟨9⟩⟩ (by simp [unorderedContext])
    match before, parted with
    | [], parted => simp [unorderedPlans] at parted
    | [_], parted => simp [unorderedPlans] at parted
    | _ :: _ :: _, parted => simp [unorderedPlans] at parted
  refine ⟨rfl, unordered, ?unproduced, ?untransferred, fun contract => unordered contract.ordered⟩
  case unproduced =>
    intro produced
    obtain ⟨op, -, -, same⟩ := produced [] _ _ rfl ⟨7⟩ (by simp)
    simp at same
  case untransferred =>
    intro transferred
    have found := transferred ⟨⟨1⟩, ⟨2⟩, ⟨9⟩⟩ (by simp [unorderedContext])
      ⟨⟨0⟩, ⟨0⟩, [⟨1⟩], [⟨9⟩], .backendLazy, .none, []⟩ (by simp [unorderedPlans])
      ⟨⟨0⟩, ⟨1⟩, [⟨2⟩], [⟨7⟩], .explicitRegion, .none, []⟩ (by simp [unorderedPlans])
      (by simp) (by simp) (by simp)
      (.inl ⟨⟨⟨0⟩, ⟨1⟩, [⟨2⟩], [⟨7⟩], .explicitRegion, .none, []⟩, by simp [unorderedPlans]⟩)
    simp [hasTransfer, unorderedContext] at found

end TribunusCompute.Backend
