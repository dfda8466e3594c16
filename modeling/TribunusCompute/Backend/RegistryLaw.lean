import TribunusCompute.Library.Runs
import TribunusCompute.Backend.TensorRegistry

/-!
# Runs of the tensor registry

A run keeps its calls with their replies. The handle a backend is given is read off this log: the
last one it got, unless the authority over the tensor has gone to another backend since.
-/
namespace TribunusCompute.Backend

open Lowering

inductive RegistryOp
  | register (tensorId : TensorId) (contract : TensorContract) (authoritativeBackend : BackendId)
  | addMaterialization (tensorId : TensorId) (backendId : BackendId) (backendHandle : UInt64)
      (shape : List UInt32) (layout : PhysicalLayout) (dtype : DType)
  | advanceVersion (tensorId : TensorId) (newAuthoritativeBackend : BackendId)
      (newHandle : UInt64) (shape : List UInt32) (layout : PhysicalLayout) (dtype : DType)
  | remove (id : TensorId)

inductive RegistryReply
  | registered (result : Except String Unit)
  | added (result : Except String MaterializationRecord)
  | advanced (result : Except String AuthorityTransitionReceipt)
  | removed (tensor : Option MaterializedTensor)

def RegistryReply.isErr : RegistryReply → Prop
  | .registered (.error _) | .added (.error _) | .advanced (.error _) => True
  | _ => False

def TensorRegistry.perform (self : TensorRegistry) :
    RegistryOp → Option (RegistryReply × TensorRegistry)
  | .register id contract backend =>
    let (result, registry) := self.register (.new id contract backend)
    some (.registered result, registry)
  | .addMaterialization id backend handle shape layout dtype =>
    (self.addMaterialization id backend handle shape layout dtype).map fun (result, registry) =>
      (.added result, registry)
  | .advanceVersion id backend handle shape layout dtype =>
    (self.advanceVersion id backend handle shape layout dtype).map fun (result, registry) =>
      (.advanced result, registry)
  | .remove id =>
    let (tensor, registry) := self.remove id
    some (.removed tensor, registry)

abbrev RegistryEntry := RegistryOp × RegistryReply

structure RegistryRun where
  registry : TensorRegistry
  log : List RegistryEntry

namespace RegistryRun

def start : RegistryRun := ⟨.new, []⟩

def step (run : RegistryRun) (op : RegistryOp) : Option RegistryRun :=
  (run.registry.perform op).map fun (reply, registry) => ⟨registry, run.log ++ [(op, reply)]⟩

end RegistryRun

/-! ## What the log says -/

def creates (id : TensorId) : RegistryEntry → Prop
  | (.register id' _ _, .registered (.ok ())) => id' = id
  | _ => False

/-- The handle that a call gave the backend for the tensor. -/
def given? (id : TensorId) (backend : BackendId) : RegistryEntry → Option UInt64
  | (.addMaterialization id' backend' handle _ _ _, .added (.ok _))
  | (.advanceVersion id' backend' handle _ _ _, .advanced (.ok _)) =>
    if id' = id ∧ backend' = backend then some handle else none
  | _ => none

/-- The backend to which a call moved the authority over the tensor. -/
def advancedTo? (id : TensorId) : RegistryEntry → Option BackendId
  | (.advanceVersion id' backend' _ _ _ _, .advanced (.ok _)) =>
    if id' = id then some backend' else none
  | _ => none

def handedOut? : RegistryEntry → Option ℕ
  | (_, .added (.ok record)) => some record.materializationId
  | (_, .advanced (.ok receipt)) => some receipt.newAuthoritativeMaterialization.materializationId
  | _ => none

/-- Since the tensor was registered, the backend was last given the handle, and after that the
authority over the tensor went to no other backend. -/
def LastGiven (log : List RegistryEntry) (id : TensorId) (backend : BackendId)
    (handle : UInt64) : Prop :=
  ∃ older entry later, log = older ++ entry :: later ∧ given? id backend entry = some handle ∧
    ∀ other ∈ later, ¬creates id other ∧ given? id backend other = none ∧
      ∀ backend', advancedTo? id other = some backend' → backend' = backend

/-- What a registry promises of its handles and ids. -/
structure LawfulRegistry (run : RegistryRun) : Prop where
  handles : ∀ id tensor, run.registry.tensors.lookup id = some tensor → ∀ backend handle,
    tensor.getHandle backend = some handle ↔ LastGiven run.log id backend handle
  distinct : (run.log.filterMap handedOut?).Nodup

/-- A version grows by one where the call advanced the tensor and not otherwise, and a call that
fails changes nothing. -/
structure LawfulCall (before : RegistryRun) (op : RegistryOp) (after : RegistryRun) : Prop where
  versions : ∀ reply, after.log = before.log ++ [(op, reply)] → ∀ id tensor tensor',
    before.registry.tensors.lookup id = some tensor →
    after.registry.tensors.lookup id = some tensor' →
      tensor'.version = tensor.version + if (advancedTo? id (op, reply)).isSome then 1 else 0
  unchanged : ∀ reply, after.log = before.log ++ [(op, reply)] → reply.isErr →
    (∀ id, after.registry.tensors.lookup id = before.registry.tensors.lookup id) ∧
      after.registry.materializationSeq = before.registry.materializationSeq

/-! ## Single calls -/

section Calls

variable {tensor : MaterializedTensor} {seq : ℕ} {backend : BackendId} {handle : UInt64}
  {shape : List UInt32} {layout : PhysicalLayout} {dtype : DType}

def freshRecord (tensor : MaterializedTensor) (seq : ℕ) (backend : BackendId) (handle : UInt64)
    (shape : List UInt32) (layout : PhysicalLayout) (dtype : DType) : MaterializationRecord :=
  ⟨seq, backend, tensor.version, shape, layout, dtype, .fresh, handle⟩

def withFresh (tensor : MaterializedTensor) (record : MaterializationRecord) :
    MaterializedTensor :=
  { tensor with materializations := tensor.materializations.insert record.backendId record }

/-- The tensor before its new authority is given a record. -/
def moved (tensor : MaterializedTensor) (backend : BackendId) : MaterializedTensor :=
  { tensor with
    version := tensor.version + 1
    authoritativeBackend := backend
    materializations := MaterializedTensor.markStale backend tensor.materializations }

/-- The entry neither makes a tensor nor gives a handle. -/
def Idle (entry : RegistryEntry) : Prop :=
  ∀ id, ¬creates id entry ∧ (∀ backend, given? id backend entry = none) ∧
    advancedTo? id entry = none ∧ handedOut? entry = none

/-- What a call does, by its reply. -/
inductive Effect (before : TensorRegistry) : RegistryEntry → TensorRegistry → Prop
  | failed {op : RegistryOp} {reply : RegistryReply} {after : TensorRegistry}
      (err : reply.isErr) (idle : Idle (op, reply))
      (tensors : after.tensors.lookup = before.tensors.lookup)
      (seq : after.materializationSeq = before.materializationSeq) :
      Effect before (op, reply) after
  | registered {id : TensorId} {contract : TensorContract} {backend : BackendId}
      {after : TensorRegistry} (unknown : before.tensors.lookup id = none)
      (tensors : after.tensors.lookup =
        Function.update before.tensors.lookup id (some (.new id contract backend)))
      (seq : after.materializationSeq = before.materializationSeq) :
      Effect before (.register id contract backend, .registered (.ok ())) after
  | added {id : TensorId} {backend : BackendId} {handle : UInt64} {shape : List UInt32}
      {layout : PhysicalLayout} {dtype : DType} {tensor : MaterializedTensor}
      {record : MaterializationRecord} {after : TensorRegistry}
      (known : before.tensors.lookup id = some tensor)
      (fresh : record =
        freshRecord tensor before.materializationSeq backend handle shape layout dtype)
      (tensors : after.tensors.lookup =
        Function.update before.tensors.lookup id (some (withFresh tensor record)))
      (seq : after.materializationSeq = before.materializationSeq + 1) :
      Effect before (.addMaterialization id backend handle shape layout dtype, .added (.ok record))
        after
  | advanced {id : TensorId} {backend : BackendId} {handle : UInt64} {shape : List UInt32}
      {layout : PhysicalLayout} {dtype : DType} {tensor : MaterializedTensor}
      {receipt : AuthorityTransitionReceipt} {after : TensorRegistry}
      (known : before.tensors.lookup id = some tensor)
      (fresh : receipt.newAuthoritativeMaterialization = freshRecord (moved tensor backend)
        before.materializationSeq backend handle shape layout dtype)
      (tensors : after.tensors.lookup = Function.update before.tensors.lookup id
        (some (withFresh (moved tensor backend) receipt.newAuthoritativeMaterialization)))
      (seq : after.materializationSeq = before.materializationSeq + 1) :
      Effect before (.advanceVersion id backend handle shape layout dtype, .advanced (.ok receipt))
        after
  | removed {id : TensorId} {tensor : Option MaterializedTensor} {after : TensorRegistry}
      (tensors : after.tensors.lookup = Function.update before.tensors.lookup id none)
      (seq : after.materializationSeq = before.materializationSeq) :
      Effect before (.remove id, .removed tensor) after

theorem lookup_insert_eq {α β : Type*} [DecidableEq α] (entries : AList fun _ : α => β) (key : α)
    (value : β) :
    (entries.insert key value).lookup = Function.update entries.lookup key (some value) := by
  funext other
  by_cases same : other = key
  next =>
    subst same
    simp
  next => simp [same]

theorem lookup_erase_eq {α β : Type*} [DecidableEq α] (entries : AList fun _ : α => β) (key : α) :
    (entries.erase key).lookup = Function.update entries.lookup key none := by
  funext other
  by_cases same : other = key
  next =>
    subst same
    simp
  next => simp [same]

theorem next64_of_lt {n : ℕ} (room : n + 1 < 2 ^ 64) : next64 n = some (n + 1) := if_pos room

theorem next64_eq_some {n m : ℕ} (counted : next64 n = some m) : m = n + 1 := by
  unfold next64 at counted
  split at counted
  next => exact (Option.some.inj counted).symm
  next => cases counted

theorem addMaterialization_error {e : String}
    (invalid : tensor.validateMaterialization dtype shape = .error e) :
    tensor.addMaterialization seq backend handle shape layout dtype =
      some (.error e, tensor, seq) := by
  simp only [MaterializedTensor.addMaterialization, invalid]

theorem addMaterialization_ok (valid : tensor.validateMaterialization dtype shape = .ok ()) :
    tensor.addMaterialization seq backend handle shape layout dtype =
      (next64 seq).map fun seq' =>
        (.ok (freshRecord tensor seq backend handle shape layout dtype),
          withFresh tensor (freshRecord tensor seq backend handle shape layout dtype), seq') := by
  simp only [MaterializedTensor.addMaterialization, valid]
  cases next64 seq <;> rfl

theorem valid_of_prepared (prepared : tensor.prepareTransition dtype shape = .ok ()) :
    tensor.validateMaterialization dtype shape = .ok () := by
  unfold MaterializedTensor.prepareTransition at prepared
  split at prepared
  next => cases prepared
  next => exact prepared

theorem commitTransition_ok (valid : tensor.validateMaterialization dtype shape = .ok ()) :
    tensor.commitTransition backend handle shape layout dtype seq =
      (next64 tensor.version).bind fun _ => (next64 seq).map fun seq' =>
        ({ tensorId := tensor.tensorId
           previousVersion := tensor.version
           newVersion := tensor.version + 1
           previousAuthority := tensor.authoritativeBackend
           newAuthority := backend
           previousAuthoritativeMaterialization :=
             tensor.materializations.lookup tensor.authoritativeBackend
           replacedDestinationMaterialization := tensor.materializations.lookup backend
           invalidatedNonAuthoritative :=
             ((moved tensor backend).materializations.entries.map Sigma.snd).filter
               fun r => r.backendId ≠ backend
           newAuthoritativeMaterialization :=
             freshRecord (moved tensor backend) seq backend handle shape layout dtype },
          withFresh (moved tensor backend)
            (freshRecord (moved tensor backend) seq backend handle shape layout dtype), seq') := by
  have still : (moved tensor backend).validateMaterialization dtype shape = .ok () := valid
  unfold MaterializedTensor.commitTransition
  cases counted : next64 tensor.version with
  | none => rfl
  | some version =>
    obtain rfl := next64_eq_some counted
    have added := @addMaterialization_ok (moved tensor backend) seq backend handle shape layout
      dtype still
    dsimp only [Option.bind_eq_bind, Option.bind_some]
    rw [show ({ tensor with
      version := tensor.version + 1
      authoritativeBackend := backend
      materializations := MaterializedTensor.markStale backend tensor.materializations } :
        MaterializedTensor) = moved tensor backend from rfl, added]
    cases next64 seq <;> rfl

end Calls

section Performed

variable {before after : TensorRegistry} {op : RegistryOp} {reply : RegistryReply}

theorem idle_of_isErr (err : reply.isErr) : Idle (op, reply) := by
  intro id
  cases op <;> rcases reply with (_ | _) | (_ | _) | (_ | _) | _ <;>
    first | exact err.elim | exact ⟨fun made => made.elim, fun _ => rfl, rfl, rfl⟩

/-- Every call that returns has one of the five effects. -/
theorem perform_effect (performed : before.perform op = some (reply, after)) :
    Effect before (op, reply) after := by
  cases op with
  | register id contract backend =>
    by_cases known : id ∈ before.tensors
    -- A tensor that is known is not registered again.
    next =>
      have refused : before.register (.new id contract backend) = (.error _, before) :=
        if_pos known
      simp only [TensorRegistry.perform, refused] at performed
      cases performed
      exact .failed trivial (idle_of_isErr trivial) rfl rfl
    next =>
      have made : before.register (.new id contract backend) = (.ok (),
          { before with tensors := before.tensors.insert id (.new id contract backend) }) :=
        if_neg known
      simp only [TensorRegistry.perform, made] at performed
      cases performed
      exact .registered (AList.lookup_eq_none.mpr known) (lookup_insert_eq _ _ _) rfl
  | addMaterialization id backend handle shape layout dtype =>
    simp only [TensorRegistry.perform, TensorRegistry.addMaterialization] at performed
    cases known : before.tensors.lookup id with
    | none =>
      rw [known] at performed
      cases performed
      exact .failed trivial (idle_of_isErr trivial) rfl rfl
    | some tensor =>
      rw [known] at performed
      cases valid : tensor.validateMaterialization dtype shape with
      | error e =>
        simp only [addMaterialization_error valid] at performed
        cases performed
        refine .failed trivial (idle_of_isErr trivial) ?_ rfl
        -- The tensor is put back as it was.
        rw [lookup_insert_eq, ← known, Function.update_eq_self]
      | ok =>
        simp only [addMaterialization_ok valid] at performed
        -- A sequence that overflows panics, so that the call does not return.
        cases counted : next64 before.materializationSeq with
        | none => simp [counted] at performed
        | some seq =>
          obtain rfl := next64_eq_some counted
          rw [counted] at performed
          cases performed
          exact .added known rfl (lookup_insert_eq _ _ _) rfl
  | advanceVersion id backend handle shape layout dtype =>
    simp only [TensorRegistry.perform, TensorRegistry.advanceVersion] at performed
    cases known : before.tensors.lookup id with
    | none =>
      rw [known] at performed
      cases performed
      exact .failed trivial (idle_of_isErr trivial) rfl rfl
    | some tensor =>
      rw [known] at performed
      -- Every check of a transition comes before its first write.
      cases prepared : tensor.prepareTransition dtype shape with
      | error e =>
        simp only [prepared] at performed
        cases performed
        exact .failed trivial (idle_of_isErr trivial) rfl rfl
      | ok =>
        simp only [prepared, commitTransition_ok (valid_of_prepared prepared)] at performed
        cases versioned : next64 tensor.version with
        | none => simp [versioned] at performed
        | some version =>
          cases counted : next64 before.materializationSeq with
          | none => simp [versioned, counted] at performed
          | some seq =>
            obtain rfl := next64_eq_some counted
            rw [versioned, counted] at performed
            cases performed
            exact .advanced known rfl (lookup_insert_eq _ _ _) rfl
  | remove id =>
    cases performed
    exact .removed (lookup_erase_eq _ _) rfl

theorem perform_some (op : RegistryOp) (room : before.materializationSeq + 1 < 2 ^ 64)
    (versions : ∀ id tensor, before.tensors.lookup id = some tensor →
      tensor.version + 1 < 2 ^ 64) :
    ∃ reply after, before.perform op = some (reply, after) := by
  cases op with
  | register id contract backend => exact ⟨_, _, rfl⟩
  | addMaterialization id backend handle shape layout dtype =>
    simp only [TensorRegistry.perform, TensorRegistry.addMaterialization]
    cases known : before.tensors.lookup id with
    | none => exact ⟨_, _, rfl⟩
    | some tensor =>
      cases valid : tensor.validateMaterialization dtype shape with
      | error e => exact ⟨_, _, by simp only [addMaterialization_error valid]; rfl⟩
      | ok =>
        simp only [addMaterialization_ok valid, next64_of_lt room]
        exact ⟨_, _, rfl⟩
  | advanceVersion id backend handle shape layout dtype =>
    simp only [TensorRegistry.perform, TensorRegistry.advanceVersion]
    cases known : before.tensors.lookup id with
    | none => exact ⟨_, _, rfl⟩
    | some tensor =>
      cases prepared : tensor.prepareTransition dtype shape with
      | error e => exact ⟨_, _, by simp only [prepared]; rfl⟩
      | ok =>
        simp only [prepared, commitTransition_ok (valid_of_prepared prepared), next64_of_lt room,
          next64_of_lt (versions id tensor known)]
        exact ⟨_, _, rfl⟩
  | remove id => exact ⟨_, _, rfl⟩

end Performed

/-! ## What the log gives -/

section Log

variable {log : List RegistryEntry} {entry : RegistryEntry} {id : TensorId} {backend : BackendId}
  {handle : UInt64}

theorem lastGiven_append : LastGiven (log ++ [entry]) id backend handle ↔
    given? id backend entry = some handle ∨
      (¬creates id entry ∧ given? id backend entry = none ∧
        (∀ backend', advancedTo? id entry = some backend' → backend' = backend) ∧
        LastGiven log id backend handle) := by
  constructor
  case mp =>
    rintro ⟨older, given, later, parted, gave, quiet⟩
    -- Either the new entry gave the handle, or it is the last of those that came later.
    obtain rfl | ⟨later, last, rfl⟩ := List.eq_nil_or_concat later
    case inl =>
      obtain ⟨-, same⟩ := List.append_inj' parted rfl
      obtain rfl : entry = given := List.head_eq_of_cons_eq same
      exact .inl gave
    case inr =>
      have parted' : log ++ [entry] = (older ++ given :: later) ++ [last] := by
        rw [parted, List.concat_eq_append, List.append_assoc, List.cons_append]
      obtain ⟨before, same⟩ := List.append_inj' parted' rfl
      obtain rfl : entry = last := List.head_eq_of_cons_eq same
      have silent := quiet entry (by simp)
      refine .inr ⟨silent.1, silent.2.1, silent.2.2, older, given, later, before, gave, ?_⟩
      exact fun other member => quiet other (by simp [member])
  case mpr =>
    rintro (gave | ⟨made, silent, stayed, older, given, later, parted, gave, quiet⟩)
    case inl => exact ⟨log, entry, [], rfl, gave, by simp⟩
    case inr =>
      refine ⟨older, given, later ++ [entry], by simp [parted], gave, fun other member => ?_⟩
      obtain earlier | last := List.mem_append.mp member
      case inl => exact quiet other earlier
      case inr =>
        obtain rfl := List.mem_singleton.mp last
        exact ⟨made, silent, stayed⟩

theorem lastGiven_frame (made : ¬creates id entry) (silent : given? id backend entry = none)
    (stayed : advancedTo? id entry = none) :
    LastGiven (log ++ [entry]) id backend handle ↔ LastGiven log id backend handle := by
  simp [lastGiven_append, made, silent, stayed]

end Log

/-! ## The handles of one tensor -/

section Handles

variable {tensor : MaterializedTensor} {record : MaterializationRecord}
  {backend backend' : BackendId}

theorem getHandle_new {id : TensorId} {contract : TensorContract} :
    (MaterializedTensor.new id contract backend).getHandle backend' = none := rfl

theorem getHandle_withFresh (fresh : record.state = .fresh)
    (current : record.tensorVersion = tensor.version) :
    (withFresh tensor record).getHandle record.backendId = some record.backendHandle := by
  simp [MaterializedTensor.getHandle, MaterializedTensor.isFresh, withFresh, fresh, current]

theorem getHandle_withFresh_ne (other : backend ≠ record.backendId) :
    (withFresh tensor record).getHandle backend = tensor.getHandle backend := by
  have same : (withFresh tensor record).materializations.lookup backend =
      tensor.materializations.lookup backend := AList.lookup_insert_ne other
  unfold MaterializedTensor.getHandle MaterializedTensor.isFresh
  rw [same]
  rfl

/-- The records of a tensor are filed under their backends. -/
def Keyed (tensor : MaterializedTensor) : Prop :=
  ∀ backend record, tensor.materializations.lookup backend = some record →
    record.backendId = backend

theorem keyed_new {id : TensorId} {contract : TensorContract} :
    Keyed (.new id contract backend) := by
  intro backend' record found
  cases found

theorem keyed_withFresh (keyed : Keyed tensor) : Keyed (withFresh tensor record) := by
  intro backend found known
  by_cases same : backend = record.backendId
  case pos =>
    subst same
    simp only [withFresh, AList.lookup_insert, Option.some.injEq] at known
    rw [← known]
  case neg =>
    simp only [withFresh, AList.lookup_insert_ne same] at known
    exact keyed backend found known

theorem lookup_moved : (moved tensor backend).materializations.lookup backend' =
    (tensor.materializations.lookup backend').map fun r =>
      if r.backendId ≠ backend then { r with state := .stale } else r :=
  List.dlookup_map₂ backend'

theorem keyed_moved (keyed : Keyed tensor) : Keyed (moved tensor backend) := by
  intro backend' found known
  rw [lookup_moved, Option.map_eq_some_iff] at known
  obtain ⟨record, old, rfl⟩ := known
  have filed := keyed backend' record old
  split <;> exact filed

/-- After a move, the other backends have no handle: their records are stale. -/
theorem getHandle_moved_ne (keyed : Keyed tensor) (other : backend' ≠ backend) :
    (moved tensor backend).getHandle backend' = none := by
  cases old : tensor.materializations.lookup backend' with
  | none => simp [MaterializedTensor.getHandle, MaterializedTensor.isFresh, lookup_moved, old]
  | some record =>
    have filed := keyed backend' record old
    simp [MaterializedTensor.getHandle, MaterializedTensor.isFresh, lookup_moved, old, filed, other]

end Handles

/-! ## The invariant -/

/-- What a run keeps of a registered tensor. -/
structure TensorKept (log : List RegistryEntry) (id : TensorId) (tensor : MaterializedTensor) :
    Prop where
  keyed : Keyed tensor
  version : tensor.version ≤ log.length
  handles : ∀ backend handle,
    tensor.getHandle backend = some handle ↔ LastGiven log id backend handle

/-- What a run keeps: versions and ids are counted by its calls, and the log tells the handles. -/
structure Kept (run : RegistryRun) : Prop where
  tensors : ∀ id tensor, run.registry.tensors.lookup id = some tensor →
    TensorKept run.log id tensor
  sequence : run.registry.materializationSeq ≤ run.log.length
  issued : ∀ materialization ∈ run.log.filterMap handedOut?,
    materialization < run.registry.materializationSeq
  distinct : (run.log.filterMap handedOut?).Nodup

theorem kept_start : Kept .start where
  tensors _ _ found := by cases found
  sequence := le_refl 0
  issued _ member := by cases member
  distinct := List.nodup_nil

section Steps

variable {run : RegistryRun} {entry : RegistryEntry} {after : TensorRegistry} {id : TensorId}
  {tensor : MaterializedTensor}

/-- The entry says nothing about the tensor. -/
structure Elsewhere (id : TensorId) (entry : RegistryEntry) : Prop where
  made : ¬creates id entry
  silent : ∀ backend, given? id backend entry = none
  stayed : advancedTo? id entry = none

theorem tensorKept_elsewhere {log : List RegistryEntry} (elsewhere : Elsewhere id entry)
    (kept : TensorKept log id tensor) : TensorKept (log ++ [entry]) id tensor where
  keyed := kept.keyed
  version := by
    have bound := kept.version
    simp only [List.length_append, List.length_singleton]
    omega
  handles backend handle := by
    rw [lastGiven_frame elsewhere.made (elsewhere.silent backend) elsewhere.stayed]
    exact kept.handles backend handle

theorem kept_of (kept : Kept run)
    (tensors : ∀ id tensor, after.tensors.lookup id = some tensor →
      TensorKept (run.log ++ [entry]) id tensor)
    (issue : handedOut? entry = none ∧ after.materializationSeq = run.registry.materializationSeq ∨
      handedOut? entry = some run.registry.materializationSeq ∧
        after.materializationSeq = run.registry.materializationSeq + 1) :
    Kept ⟨after, run.log ++ [entry]⟩ := by
  have bound := kept.sequence
  have below := kept.issued
  obtain ⟨nothing, same⟩ | ⟨issued, next⟩ := issue
  case inl =>
    refine ⟨tensors, ?_, ?_, ?_⟩
    · simp only [same, List.length_append, List.length_singleton]
      omega
    · simp only [List.filterMap_append, List.filterMap_cons, nothing, List.filterMap_nil,
        List.append_nil, same]
      exact below
    · simp only [List.filterMap_append, List.filterMap_cons, nothing, List.filterMap_nil,
        List.append_nil]
      exact kept.distinct
  case inr =>
    refine ⟨tensors, ?_, ?_, ?_⟩
    · simp only [next, List.length_append, List.length_singleton]
      omega
    · intro materialization member
      simp only [List.filterMap_append, List.filterMap_cons, issued, List.filterMap_nil,
        List.mem_append, List.mem_singleton] at member
      obtain earlier | rfl := member
      · have smaller := below materialization earlier
        simp only [next]
        omega
      · simp only [next]
        omega
    · simp only [List.filterMap_append, List.filterMap_cons, issued, List.filterMap_nil]
      -- The sequence is beyond every id that was handed out.
      refine List.nodup_append'.mpr ⟨kept.distinct, List.nodup_singleton _, ?_⟩
      intro materialization earlier last
      obtain rfl := List.mem_singleton.mp last
      exact absurd (below _ earlier) (lt_irrefl _)

theorem tensors_of_update (kept : Kept run) {tensor? : Option MaterializedTensor}
    (tensors : after.tensors.lookup = Function.update run.registry.tensors.lookup id tensor?)
    (elsewhere : ∀ other ≠ id, Elsewhere other entry)
    (here : ∀ tensor ∈ tensor?, TensorKept (run.log ++ [entry]) id tensor) :
    ∀ other tensor, after.tensors.lookup other = some tensor →
      TensorKept (run.log ++ [entry]) other tensor := by
  intro other tensor found
  rw [congrFun tensors other] at found
  by_cases same : other = id
  case pos =>
    subst same
    rw [Function.update_self] at found
    exact here tensor found
  case neg =>
    rw [Function.update_of_ne same] at found
    exact tensorKept_elsewhere (elsewhere other same) (kept.tensors other tensor found)

section Given

variable {log : List RegistryEntry} {seq : ℕ} {backend : BackendId} {handle : UInt64}
  {shape : List UInt32} {layout : PhysicalLayout} {dtype : DType}

theorem tensorKept_added {record : MaterializationRecord} (kept : TensorKept log id tensor) :
    TensorKept (log ++ [(.addMaterialization id backend handle shape layout dtype,
        .added (.ok record))]) id
      (withFresh tensor (freshRecord tensor seq backend handle shape layout dtype)) where
  keyed := keyed_withFresh kept.keyed
  version := by
    have bound := kept.version
    simp only [withFresh, List.length_append, List.length_singleton]
    omega
  handles backend' handle' := by
    by_cases same : backend' = backend
    case pos =>
      subst same
      have held : (withFresh tensor (freshRecord tensor seq backend' handle shape layout
          dtype)).getHandle backend' = some handle := getHandle_withFresh rfl rfl
      rw [lastGiven_append, held]
      simp [given?]
    case neg =>
      have silent : ¬backend = backend' := fun equal => same equal.symm
      rw [getHandle_withFresh_ne same, kept.handles, lastGiven_append]
      simp [given?, creates, advancedTo?, silent]

theorem tensorKept_advanced {receipt : AuthorityTransitionReceipt}
    (kept : TensorKept log id tensor) :
    TensorKept (log ++ [(.advanceVersion id backend handle shape layout dtype,
        .advanced (.ok receipt))]) id
      (withFresh (moved tensor backend)
        (freshRecord (moved tensor backend) seq backend handle shape layout dtype)) where
  keyed := keyed_withFresh (keyed_moved kept.keyed)
  version := by
    have bound := kept.version
    simp only [withFresh, moved, List.length_append, List.length_singleton]
    omega
  handles backend' handle' := by
    by_cases same : backend' = backend
    case pos =>
      subst same
      have held : (withFresh (moved tensor backend') (freshRecord (moved tensor backend') seq
          backend' handle shape layout dtype)).getHandle backend' = some handle :=
        getHandle_withFresh rfl rfl
      rw [lastGiven_append, held]
      simp [given?]
    case neg =>
      -- The record is stale, and the log has the move away.
      have silent : ¬backend = backend' := fun equal => same equal.symm
      rw [getHandle_withFresh_ne same, getHandle_moved_ne kept.keyed same, lastGiven_append]
      simp [given?, creates, advancedTo?, silent]

end Given

theorem kept_effect (kept : Kept run) (effect : Effect run.registry entry after) :
    Kept ⟨after, run.log ++ [entry]⟩ := by
  cases effect with
  | failed err idle tensors seq =>
    refine kept_of kept (fun other tensor found => ?_) (.inl ⟨(idle ⟨0⟩).2.2.2, seq⟩)
    obtain ⟨made, silent, stayed, -⟩ := idle other
    rw [congrFun tensors other] at found
    exact tensorKept_elsewhere ⟨made, silent, stayed⟩ (kept.tensors other tensor found)
  | @registered id contract backend after unknown tensors seq =>
    refine kept_of kept (tensors_of_update kept tensors (fun other ne => ?_) ?_) (.inl ⟨rfl, seq⟩)
    case refine_1 => exact ⟨fun made => ne made.symm, fun _ => rfl, rfl⟩
    case refine_2 =>
      rintro tensor ⟨⟩
      refine ⟨keyed_new, Nat.zero_le _, fun backend' handle => ?_⟩
      simp [getHandle_new, lastGiven_append, given?, creates]
  | @added id backend handle shape layout dtype tensor record after known fresh tensors seq =>
    refine kept_of kept (tensors_of_update kept tensors (fun other ne => ?_) ?_) (.inr ⟨?_, seq⟩)
    case refine_1 =>
      exact ⟨fun made => made, fun _ => if_neg fun same => ne same.1.symm, rfl⟩
    case refine_2 =>
      rintro tensor' ⟨⟩
      subst fresh
      exact tensorKept_added (kept.tensors id tensor known)
    case refine_3 => simp [handedOut?, fresh, freshRecord]
  | @advanced id backend handle shape layout dtype tensor receipt after known fresh tensors seq =>
    refine kept_of kept (tensors_of_update kept tensors (fun other ne => ?_) ?_) (.inr ⟨?_, seq⟩)
    case refine_1 =>
      exact ⟨fun made => made, fun _ => if_neg fun same => ne same.1.symm,
        if_neg fun same => ne same.symm⟩
    case refine_2 =>
      rintro tensor' ⟨⟩
      rw [fresh]
      exact tensorKept_advanced (kept.tensors id tensor known)
    case refine_3 => simp [handedOut?, fresh, freshRecord]
  | @removed id tensor after tensors seq =>
    refine kept_of kept (tensors_of_update kept tensors (fun other ne => ?_) ?_) (.inl ⟨rfl, seq⟩)
    case refine_1 => exact ⟨fun made => made, fun _ => rfl, rfl⟩
    -- Nothing is said of a tensor that is not registered.
    case refine_2 => rintro tensor ⟨⟩

theorem lawfulCall_effect {op : RegistryOp} {reply : RegistryReply}
    (effect : Effect run.registry (op, reply) after) :
    LawfulCall run op ⟨after, run.log ++ [(op, reply)]⟩ := by
  constructor
  case versions =>
    intro reply' logged other tensor tensor' found found'
    obtain rfl : reply = reply' := by simpa using logged
    cases effect with
    | failed err idle tensors seq =>
      rw [congrFun tensors other, found] at found'
      cases found'
      simp [(idle other).2.2.1]
    | @registered id contract backend after unknown tensors seq =>
      -- The tensor was there before the call, so it is not the one that is registered.
      have ne : other ≠ id := by
        rintro rfl
        rw [unknown] at found
        cases found
      rw [congrFun tensors other, Function.update_of_ne ne, found] at found'
      cases found'
      rfl
    | @added id backend handle shape layout dtype known record after was fresh tensors seq =>
      rw [congrFun tensors other] at found'
      by_cases same : other = id
      case pos =>
        subst same
        rw [Function.update_self] at found'
        rw [was] at found
        cases found
        cases found'
        rfl
      case neg =>
        rw [Function.update_of_ne same, found] at found'
        cases found'
        rfl
    | @advanced id backend handle shape layout dtype known receipt after was fresh tensors seq =>
      rw [congrFun tensors other] at found'
      by_cases same : other = id
      case pos =>
        subst same
        rw [Function.update_self] at found'
        rw [was] at found
        cases found
        cases found'
        simp [advancedTo?, withFresh, moved]
      case neg =>
        rw [Function.update_of_ne same, found] at found'
        cases found'
        have elsewhere : ¬id = other := fun equal => same equal.symm
        simp only [advancedTo?, if_neg elsewhere]
        rfl
    | @removed id tensor after tensors seq =>
      have ne : other ≠ id := by
        rintro rfl
        rw [congrFun tensors other, Function.update_self] at found'
        cases found'
      rw [congrFun tensors other, Function.update_of_ne ne, found] at found'
      cases found'
      rfl
  case unchanged =>
    intro reply' logged err
    obtain rfl : reply = reply' := by simpa using logged
    -- Only a failed call has an error for its reply.
    cases effect with
    | failed err idle tensors seq => exact ⟨congrFun tensors, seq⟩
    | registered => exact err.elim
    | added => exact err.elim
    | advanced => exact err.elim
    | removed => exact err.elim

end Steps

/-! ## Runs -/

open RegistryRun in
theorem step_eq_some {run after : RegistryRun} {op : RegistryOp}
    (taken : step run op = some after) : ∃ reply registry, run.registry.perform op = some (reply, registry) ∧
      after = ⟨registry, run.log ++ [(op, reply)]⟩ := by
  obtain ⟨⟨reply, registry⟩, performed, rfl⟩ := Option.map_eq_some_iff.mp taken
  exact ⟨reply, registry, performed, rfl⟩

open RegistryRun in
/-- With fewer calls than a counter has values, every call finds the counters with room. -/
theorem room_guarded {ops : List RegistryOp} {run : RegistryRun}
    (short : run.log.length + ops.length < 2 ^ 64) :
    Runs.Guarded step (fun run _ => run.log.length + 1 < 2 ^ 64) run ops := by
  induction ops generalizing run with
  | nil => trivial
  | cons op ops ih =>
    rw [List.length_cons] at short
    refine ⟨by omega, fun after taken => ih ?_⟩
    obtain ⟨reply, registry, -, rfl⟩ := step_eq_some taken
    simp only [List.length_append, List.length_singleton]
    omega

open RegistryRun in
theorem kept_step {run : RegistryRun} (op : RegistryOp) (kept : Kept run)
    (room : run.log.length + 1 < 2 ^ 64) : ∃ after, step run op = some after ∧ Kept after := by
  have counted := kept.sequence
  have versions : ∀ id tensor, run.registry.tensors.lookup id = some tensor →
      tensor.version + 1 < 2 ^ 64 := by
    intro id tensor found
    have version := (kept.tensors id tensor found).version
    omega
  obtain ⟨reply, registry, performed⟩ := perform_some op (Nat.lt_of_le_of_lt (by omega) room)
    versions
  have effect := perform_effect performed
  exact ⟨_, Option.map_eq_some_iff.mpr ⟨_, performed, rfl⟩, kept_effect kept effect⟩

open RegistryRun in
/-- A registry hands out the handle that was last given, never an id twice, and a call that
fails changes nothing. -/
theorem tensorRegistry_lawful (ops : List RegistryOp) (short : ops.length < 2 ^ 64) :
    (∃ run, Runs.exec step start ops = some run) ∧ Runs.Always step LawfulRegistry start ops ∧
      Runs.Throughout step LawfulCall start ops := by
  have guarded := @room_guarded ops start (by simpa [start] using short)
  obtain ⟨returns, always⟩ := Runs.exec_of_guarded step
    (fun run op kept room => kept_step op kept room) kept_start guarded
  have throughout := Runs.throughout_of_guarded step (P := fun _ => True) (Q := LawfulCall)
    (fun run op after _ _ taken => by
      obtain ⟨reply, registry, performed, rfl⟩ := step_eq_some taken
      exact ⟨trivial, lawfulCall_effect (perform_effect performed)⟩) trivial guarded
  refine ⟨returns, Runs.always_mono step (fun run kept => ?_) always, throughout.2⟩
  exact ⟨fun id tensor found => (kept.tensors id tensor found).handles, kept.distinct⟩

/-- A tensor on backend 0 moves to backend 1, and its last call fails for its dtype. -/
def movingTensor : List RegistryOp :=
  [.register ⟨7⟩ ⟨[2, 3], .f16, .mutable_, .activation⟩ ⟨0⟩,
    .addMaterialization ⟨7⟩ ⟨0⟩ 100 [2, 3] .rowMajor .f16,
    .advanceVersion ⟨7⟩ ⟨1⟩ 200 [3, 2] .columnMajor .f16,
    .addMaterialization ⟨7⟩ ⟨0⟩ 300 [2, 3] .rowMajor .f32]

open RegistryRun in
theorem movingTensor_lawful :
    (∃ run, Runs.exec step start movingTensor = some run) ∧
      Runs.Always step LawfulRegistry start movingTensor ∧
      Runs.Throughout step LawfulCall start movingTensor :=
  tensorRegistry_lawful movingTensor (by simp [movingTensor])

end TribunusCompute.Backend
