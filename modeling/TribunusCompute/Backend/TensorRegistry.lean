import Mathlib.Data.List.AList
import TribunusCompute.Lowering.Scheduled

/-!
# The registry of logical tensors

A tensor has at most one materialization on each backend. The registry hands out the ids of
materializations and moves the authority over a tensor from one backend to another, which makes
all its other materializations stale. An operation that fails returns before it writes.
-/
namespace TribunusCompute.Backend

open Lowering

inductive TensorMutability
  | immutable
  | mutable_
  | ephemeral
  deriving DecidableEq, Repr

inductive TensorRole
  | weight
  | activation
  | kvCache
  | residual
  | gradient
  | scratch
  | output
  deriving DecidableEq, Repr

structure TensorContract where
  logicalShape : List UInt32
  canonicalDtype : DType
  mutability : TensorMutability
  role : TensorRole
  deriving DecidableEq

inductive MaterializationState
  | fresh
  | stale
  | pending
  deriving DecidableEq, Repr

structure MaterializationRecord where
  materializationId : ℕ
  backendId : BackendId
  tensorVersion : ℕ
  physicalShape : List UInt32
  physicalLayout : PhysicalLayout
  dtype : DType
  state : MaterializationState
  backendHandle : UInt64
  deriving DecidableEq

abbrev Materializations := AList fun _ : BackendId => MaterializationRecord

structure MaterializedTensor where
  tensorId : TensorId
  contract : TensorContract
  authoritativeBackend : BackendId
  version : ℕ
  materializations : Materializations

structure AuthorityTransitionReceipt where
  tensorId : TensorId
  previousVersion : ℕ
  newVersion : ℕ
  previousAuthority : BackendId
  newAuthority : BackendId
  previousAuthoritativeMaterialization : Option MaterializationRecord
  replacedDestinationMaterialization : Option MaterializationRecord
  invalidatedNonAuthoritative : List MaterializationRecord
  newAuthoritativeMaterialization : MaterializationRecord

/-- The names that `{:?}` shows in the errors. -/
def debugDType : DType → String
  | .f32 => "F32"
  | .f16 => "F16"
  | .bf16 => "BF16"
  | .i8 => "I8"
  | .u8 => "U8"
  | .i32 => "I32"
  | .u32 => "U32"

def debugRole : TensorRole → String
  | .weight => "Weight"
  | .activation => "Activation"
  | .kvCache => "KvCache"
  | .residual => "Residual"
  | .gradient => "Gradient"
  | .scratch => "Scratch"
  | .output => "Output"

def debugTensorId (id : TensorId) : String := "TensorId(" ++ toString id.id ++ ")"

/-- A counter of 64 bits, counted up. Without room it panics. -/
def next64 (n : ℕ) : Option ℕ := if n + 1 < 2 ^ 64 then some (n + 1) else none

/-! ## One tensor -/

namespace MaterializedTensor

def new (tensorId : TensorId) (contract : TensorContract) (authoritativeBackend : BackendId) :
    MaterializedTensor where
  tensorId
  contract
  authoritativeBackend
  version := 0
  materializations := ∅

variable (self : MaterializedTensor)

def isFresh (backendId : BackendId) : Bool :=
  ((self.materializations.lookup backendId).map fun r =>
    r.state = .fresh && r.tensorVersion = self.version).getD false

def getHandle (backendId : BackendId) : Option UInt64 :=
  if self.isFresh backendId then
    (self.materializations.lookup backendId).map MaterializationRecord.backendHandle
  else none

def validateMaterialization (dtype : DType) (shape : List UInt32) : Except String Unit :=
  if dtype ≠ self.contract.canonicalDtype then
    .error ("dtype " ++ debugDType dtype ++ " != contract canonical " ++
      debugDType self.contract.canonicalDtype ++ " for tensor " ++ debugTensorId self.tensorId)
  else if shape.length ≠ self.contract.logicalShape.length then
    .error ("physical shape has " ++ toString shape.length ++ " dims, logical contract has " ++
      toString self.contract.logicalShape.length)
  else .ok ()

/-- The result, the tensor and the sequence after the call; none where the call panics. -/
def addMaterialization (seq : ℕ) (backendId : BackendId) (backendHandle : UInt64)
    (shape : List UInt32) (layout : PhysicalLayout) (dtype : DType) :
    Option (Except String MaterializationRecord × MaterializedTensor × ℕ) :=
  match self.validateMaterialization dtype shape with
  | .error e => some (.error e, self, seq)
  | .ok () => do
    let id := seq
    let seq ← next64 seq
    let record : MaterializationRecord := {
      materializationId := id
      backendId
      tensorVersion := self.version
      physicalShape := shape
      physicalLayout := layout
      dtype
      state := .fresh
      backendHandle }
    return (.ok record, { self with
      materializations := self.materializations.insert backendId record }, seq)

/-- Whether a transition is valid. The new backend is not looked at. -/
def prepareTransition (dtype : DType) (shape : List UInt32) : Except String Unit :=
  if self.contract.mutability = .immutable then
    .error ("tensor " ++ debugTensorId self.tensorId ++ " is immutable (role " ++
      debugRole self.contract.role ++ ")")
  else self.validateMaterialization dtype shape

def markStale (authority : BackendId) (records : Materializations) : Materializations :=
  ⟨records.entries.map (Sigma.map id fun _ r =>
    if r.backendId ≠ authority then { r with state := .stale } else r),
    records.nodupKeys.map₂ _ _⟩

/-- A transition that was validated. The inner result is expected to be a record. -/
def commitTransition (newAuthoritativeBackend : BackendId) (newHandle : UInt64)
    (shape : List UInt32) (layout : PhysicalLayout) (dtype : DType) (seq : ℕ) :
    Option (AuthorityTransitionReceipt × MaterializedTensor × ℕ) := do
  let version ← next64 self.version
  let stale := markStale newAuthoritativeBackend self.materializations
  let committed := { self with
    version
    authoritativeBackend := newAuthoritativeBackend
    materializations := stale }
  match ← committed.addMaterialization seq newAuthoritativeBackend newHandle shape layout dtype with
  | (.error _, _, _) => none
  | (.ok newAuthoritative, tensor, seq) =>
    return ({
      tensorId := self.tensorId
      previousVersion := self.version
      newVersion := tensor.version
      previousAuthority := self.authoritativeBackend
      newAuthority := newAuthoritativeBackend
      previousAuthoritativeMaterialization :=
        self.materializations.lookup self.authoritativeBackend
      replacedDestinationMaterialization := self.materializations.lookup newAuthoritativeBackend
      invalidatedNonAuthoritative :=
        (stale.entries.map Sigma.snd).filter fun r => r.backendId ≠ newAuthoritativeBackend
      newAuthoritativeMaterialization := newAuthoritative }, tensor, seq)

end MaterializedTensor

/-! ## The registry -/

structure TensorRegistry where
  tensors : AList fun _ : TensorId => MaterializedTensor
  materializationSeq : ℕ

namespace TensorRegistry

def new : TensorRegistry := ⟨∅, 0⟩

variable (self : TensorRegistry)

def register (tensor : MaterializedTensor) : Except String Unit × TensorRegistry :=
  if tensor.tensorId ∈ self.tensors then
    (.error ("TensorRegistry: tensor " ++ debugTensorId tensor.tensorId ++
      " already registered"), self)
  else (.ok (), { self with tensors := self.tensors.insert tensor.tensorId tensor })

def remove (id : TensorId) : Option MaterializedTensor × TensorRegistry :=
  (self.tensors.lookup id, { self with tensors := self.tensors.erase id })

def missing (tensorId : TensorId) : String :=
  "TensorRegistry: tensor " ++ debugTensorId tensorId ++ " not found"

def addMaterialization (tensorId : TensorId) (backendId : BackendId) (backendHandle : UInt64)
    (shape : List UInt32) (layout : PhysicalLayout) (dtype : DType) :
    Option (Except String MaterializationRecord × TensorRegistry) :=
  match self.tensors.lookup tensorId with
  | none => some (.error (missing tensorId), self)
  | some tensor => do
    let (result, tensor, seq) ← tensor.addMaterialization self.materializationSeq backendId
      backendHandle shape layout dtype
    return (result, ⟨self.tensors.insert tensorId tensor, seq⟩)

/-- Validation comes first, so that an error leaves the tensor as it is. -/
def advanceVersion (tensorId : TensorId) (newAuthoritativeBackend : BackendId)
    (newHandle : UInt64) (shape : List UInt32) (layout : PhysicalLayout) (dtype : DType) :
    Option (Except String AuthorityTransitionReceipt × TensorRegistry) :=
  match self.tensors.lookup tensorId with
  | none => some (.error (missing tensorId), self)
  | some tensor =>
    match tensor.prepareTransition dtype shape with
    | .error e => some (.error e, self)
    | .ok () => do
      let (receipt, tensor, seq) ← tensor.commitTransition newAuthoritativeBackend newHandle shape
        layout dtype self.materializationSeq
      return (.ok receipt, ⟨self.tensors.insert tensorId tensor, seq⟩)

end TensorRegistry

end TribunusCompute.Backend
