import Mathlib.Data.List.Dedup
import TribunusCompute.Lowering.CoreMlLaw

/-!
# Constants of equal contents

Constants are pooled by a key of their contents. The pooled value is bound before the stage is
committed, so that the commit refuses it: a region is lowered for other contents of its constants
exactly when their keys are pairwise distinct, and then every constant is emitted on its own.

## Strategy

Two runs over the same operations with other contents are held in step (`SameView`): their
contexts differ in the data of the constants emitted and in the keys pooled, and in nothing else.
-/
namespace TribunusCompute.Lowering

open Outcome MilSpec StraightLine

/-! ### Contents -/

def TensorOp.content? : TensorOp → Option (List UInt32 × List ℕ)
  | .constant data shape => some (data, shape)
  | _ => none

def ScheduledOp.content? (op : ScheduledOp) : Option (List UInt32 × List ℕ) :=
  op.tensorOp?.bind TensorOp.content?

def MilSpec.Operation.content? (op : MilSpec.Operation) : Option (List UInt32 × List ℕ) :=
  op.instr?.bind fun instr => instr.operation.content?

def ScheduledOp.key? (sha256 : List UInt8 → String) (op : ScheduledOp) : Option ConstantKey :=
  match op.opcode, op.attrs with
  | .constant, .constant data shape => some (.ofData sha256 data shape)
  | _, _ => none

/-- The same operation, a constant with other data of the same shape. -/
def Refilled (op op' : ScheduledOp) : Prop :=
  op' = op ∨ op.opcode = .constant ∧ ∃ data data' shape,
    op.attrs = .constant data shape ∧ op' = { op with attrs := .constant data' shape }

/-- The block has one constant for each content, and what reads a constant tensor reads the
constant of its content. -/
structure SharesConstants (ops : List ScheduledOp) (artifact : CoreMlMilArtifact)
    (block : Block) : Prop where
  contents : (block.operations.filterMap Operation.content?).Perm
    (ops.filterMap ScheduledOp.content?).dedup
  bound : ∀ op ∈ ops, ∀ content, op.content? = some content → ∀ id, op.outputs.head? = some id →
    ∃ ref, artifact.valueBindings.lookup id = some ref ∧
      (∃ milOp ∈ block.operations, milOp.content? = some content ∧
        milOp.outputNames = [ref.ssaName]) ∧
      ∀ reader ∈ ops, ∀ instr, reader.instr? = some instr → ∀ k : ℕ,
        instr.operands[k]? = some id → ∃ milOp ∈ block.operations, ∃ instr',
          milOp.instr? = some instr' ∧ instr'.dest = ssaName reader ∧
            instr'.operation = instr.operation ∧ instr'.operands[k]? = some ref.ssaName

/-! ### The pool -/

section

variable {sha256 : List UInt8 → String} {ctx ctx' : CoreMlLoweringCtx} {op : ScheduledOp}

/-- The context with one more name taken. -/
def CoreMlLoweringCtx.counted (ctx : CoreMlLoweringCtx) : CoreMlLoweringCtx :=
  { ctx with ssaCounter := ctx.ssaCounter + 1 }

/-- The contexts differ in the operations emitted and in the pool at most. -/
structure SameView (ctx ctx' : CoreMlLoweringCtx) : Prop where
  bindings : ctx'.valueBindings = ctx.valueBindings
  tensors : ctx'.tensorMeta = ctx.tensorMeta
  target : ctx'.target = ctx.target
  diagnostics : ctx'.diagnostics = ctx.diagnostics
  counter : ctx'.ssaCounter = ctx.ssaCounter

/-- A stage of the other opcodes pools nothing, and is the same in a context of the same view. -/
def Plain (ctx ctx' : CoreMlLoweringCtx) (emission : StagedEmission × CoreMlLoweringCtx)
    (again : OpBuilder.Emission) : Prop :=
  emission.1.newConstants = [] ∧ emission.2 = ctx.counted ∧ again = .ok (emission.1, ctx'.counted)

theorem requireInput_again (same : SameView ctx ctx') {opId : OperationId} {idx : ℕ}
    {inputs : List TensorId} {ref : MilValueRef} (ok : ctx.requireInput opId idx inputs = .ok ref) :
    ctx'.requireInput opId idx inputs = .ok ref := by
  obtain ⟨id, there, bound⟩ := requireInput_ok ok
  unfold CoreMlLoweringCtx.requireInput
  simp only [there, same.bindings, bound]

theorem stage_plain (same : SameView ctx ctx') {milType ssa : String}
    {operands : List (String × MilValueRef)} {constants : List (String × Argument)}
    {type : ValueType} {emission : StagedEmission × CoreMlLoweringCtx}
    (ok : OpBuilder.stage ctx.counted op milType ssa operands constants type = .ok emission) :
    Plain ctx ctx' emission
      (OpBuilder.stage ctx'.counted op milType ssa operands constants type) := by
  unfold OpBuilder.stage at ok
  obtain ⟨outputId, first, made⟩ := bind_ok_iff.mp ok
  obtain rfl := pure_ok_iff.mp made
  -- a stage reads only the target of its context
  refine ⟨rfl, rfl, bind_ok_iff.mpr ⟨outputId, first, ?_⟩⟩
  have target : ctx'.counted.target = ctx.counted.target := same.target
  rw [target]
  rfl

theorem emitUnary_plain (same : SameView ctx ctx') {milType : String}
    {constants : List (String × Argument)} {type : MilValueRef → ValueType}
    {emission : StagedEmission × CoreMlLoweringCtx}
    (ok : OpBuilder.emitUnary ctx op milType constants type = .ok emission) :
    Plain ctx ctx' emission (OpBuilder.emitUnary ctx' op milType constants type) := by
  unfold OpBuilder.emitUnary at ok ⊢
  obtain ⟨ref, found, staged⟩ := bind_ok_iff.mp ok
  simp only [requireInput_again same found]
  exact stage_plain same staged

theorem emitPair_plain (same : SameView ctx ctx') {milType : String}
    {constants : List (String × Argument)} {type : MilValueRef → ValueType}
    {emission : StagedEmission × CoreMlLoweringCtx}
    (ok : OpBuilder.emitPair ctx op milType constants type = .ok emission) :
    Plain ctx ctx' emission (OpBuilder.emitPair ctx' op milType constants type) := by
  unfold OpBuilder.emitPair at ok ⊢
  obtain ⟨a, foundA, ok⟩ := bind_ok_iff.mp ok
  obtain ⟨b, foundB, staged⟩ := bind_ok_iff.mp ok
  simp only [requireInput_again same foundA, requireInput_again same foundB]
  exact stage_plain same staged

theorem emit_plain (same : SameView ctx ctx') (other : op.opcode ≠ .constant)
    {emission : StagedEmission × CoreMlLoweringCtx}
    (ok : OpBuilder.emit sha256 op.opcode ctx op = .ok emission) :
    Plain ctx ctx' emission (OpBuilder.emit sha256 op.opcode ctx' op) := by
  cases opcode : op.opcode with
  | constant => exact absurd opcode other
  | identity => rw [opcode] at ok; exact emitUnary_plain same ok
  | add => rw [opcode] at ok; exact emitPair_plain same ok
  | multiply => rw [opcode] at ok; exact emitPair_plain same ok
  | silu => rw [opcode] at ok; exact emitUnary_plain same ok
  | matmul =>
    rw [opcode] at ok
    change OpBuilder.emitMatmul ctx op = .ok emission at ok
    change Plain ctx ctx' emission (OpBuilder.emitMatmul ctx' op)
    unfold OpBuilder.emitMatmul at ok ⊢
    split at ok
    next => exact emitPair_plain same ok
    next => cases ok
  | reshape =>
    rw [opcode] at ok
    change OpBuilder.emitReshape ctx op = .ok emission at ok
    change Plain ctx ctx' emission (OpBuilder.emitReshape ctx' op)
    unfold OpBuilder.emitReshape at ok ⊢
    split at ok
    next => exact emitUnary_plain same ok
    next => cases ok
  | transpose =>
    rw [opcode] at ok
    change OpBuilder.emitTranspose ctx op = .ok emission at ok
    change Plain ctx ctx' emission (OpBuilder.emitTranspose ctx' op)
    unfold OpBuilder.emitTranspose at ok ⊢
    split at ok
    next => exact emitUnary_plain same ok
    next => cases ok
  | softmax =>
    rw [opcode] at ok
    change OpBuilder.emitSoftmax ctx op = .ok emission at ok
    change Plain ctx ctx' emission (OpBuilder.emitSoftmax ctx' op)
    unfold OpBuilder.emitSoftmax at ok ⊢
    split at ok
    next => exact emitUnary_plain same ok
    next => cases ok

/-- What the emitter of a constant stages for one that is not pooled. -/
def constantStage (sha256 : List UInt8 → String) (op : ScheduledOp) (data shape : List UInt32)
    (outputId : TensorId) (target : CoreMlTarget) : StagedEmission :=
  let ssa := ssaName op
  let type := valueTypeTensor (tensorType .float32 (shape.map fun s => s.toUInt64.toInt64))
  let attrs := ((∅ : AList fun _ : String => Value).insert "name" (stringAttr ssa)).insert
    "val" ⟨type, .floats data⟩
  let valueRef : MilValueRef := ⟨ssa, type, "const", 0⟩
  { milOperation := some (makeOperation "const" ssa ∅ [(ssa, type)] attrs)
    proposedOutputs := [(outputId, valueRef)]
    newConstants := [(.ofData sha256 data shape, valueRef)]
    inventory := {
      scheduledOpId := op.opId
      milOpType := "const"
      inputBindings := []
      outputBindings := [(ssa, valueRef)]
      outputTypes := [type]
      opset := target.opsetIdentifier
      legal := true } }

theorem emitConstant_fresh {data shape : List UInt32} {outputId : TensorId}
    (attrs : op.attrs = .constant data shape) (first : op.firstOutput = .ok outputId)
    (fresh : ConstantKey.ofData sha256 data shape ∉ ctx.constantPool) :
    OpBuilder.emitConstant sha256 ctx op =
      .ok (constantStage sha256 op data shape outputId ctx.target, ctx.counted) := by
  unfold OpBuilder.emitConstant
  simp only [attrs, AList.lookup_eq_none.mpr fresh, first]
  rfl

/-- A constant that can be committed is not pooled. -/
theorem emitConstant_ok {emission : StagedEmission × CoreMlLoweringCtx}
    (ok : OpBuilder.emitConstant sha256 ctx op = .ok emission)
    (unbound : ∀ proposed ∈ emission.1.proposedOutputs, proposed.1 ∉ emission.2.valueBindings) :
    ∃ data shape outputId, op.attrs = .constant data shape ∧ op.firstOutput = .ok outputId ∧
      ConstantKey.ofData sha256 data shape ∉ ctx.constantPool ∧
        emission = (constantStage sha256 op data shape outputId ctx.target, ctx.counted) := by
  have whole := ok
  unfold OpBuilder.emitConstant at ok
  split at ok
  next data shape attrs =>
    cases pooled : ctx.constantPool.lookup (ConstantKey.ofData sha256 data shape) with
    | some existing =>
      -- the value of the pool is bound already
      simp only [pooled] at ok
      obtain ⟨outputId, -, made⟩ := bind_ok_iff.mp ok
      obtain rfl := pure_ok_iff.mp made
      exact absurd (AList.mem_insert _ |>.mpr (.inl rfl)) (unbound _ List.mem_cons_self)
    | none =>
      simp only [pooled] at ok
      obtain ⟨outputId, first, -⟩ := bind_ok_iff.mp ok
      -- the other path: a constant of its own
      have fresh := AList.lookup_eq_none.mp pooled
      have staged := emitConstant_fresh attrs first fresh
      exact ⟨data, shape, outputId, attrs, first, fresh, Except.ok.inj (whole.symm.trans staged)⟩
  next => cases ok

/-! ### Turns -/

theorem checkDiagnostics_ok_iff {diagnostics : List LoweringDiagnostic} :
    checkDiagnostics op ctx diagnostics = .ok ctx' ↔
      (∀ diagnostic ∈ diagnostics, diagnostic.isFatal = false) ∧
        ctx' = { ctx with diagnostics := ctx.diagnostics ++ diagnostics } := by
  -- induction on the diagnostics; the first fatal one ends the turn
  induction diagnostics generalizing ctx with
  | nil =>
    have same : { ctx with diagnostics := ctx.diagnostics ++ [] } = ctx := by
      rw [List.append_nil]
    rw [same]
    exact ⟨fun ok => ⟨by simp, (pure_ok_iff.mp ok).symm⟩, fun ok => pure_ok_iff.mpr ok.2.symm⟩
  | cons diagnostic diagnostics ih =>
    unfold checkDiagnostics at ih ⊢
    rw [foldlM_cons_ok_iff, List.forall_mem_cons]
    cases fatal : diagnostic.isFatal with
    | true =>
      constructor
      · rintro ⟨_, first, -⟩
        cases first
      · rintro ⟨⟨never, -⟩, -⟩
        cases never
    | false =>
      constructor
      · rintro ⟨_, first, rest⟩
        cases first
        obtain ⟨harmless, rfl⟩ := ih.mp rest
        exact ⟨⟨rfl, harmless⟩, by simp [List.append_assoc]⟩
      · rintro ⟨⟨-, harmless⟩, rfl⟩
        exact ⟨_, rfl, ih.mpr ⟨harmless, by simp [List.append_assoc]⟩⟩

def CoreMlLoweringCtx.committed (ctx : CoreMlLoweringCtx) (staged : StagedEmission) :
    CoreMlLoweringCtx :=
  { ctx with
    valueBindings := staged.proposedOutputs.foldl
      (fun bindings proposed => bindings.insert proposed.1 proposed.2) ctx.valueBindings
    constantPool := staged.newConstants.foldl
      (fun pool constant => pool.insert constant.1 constant.2) ctx.constantPool
    builder := staged.milOperation.elim ctx.builder ctx.builder.operation }

theorem commit_ok_iff {staged : StagedEmission} :
    ctx.commit staged = .ok ctx' ↔
      (∀ proposed ∈ staged.proposedOutputs, proposed.1 ∉ ctx.valueBindings) ∧
        ctx' = ctx.committed staged := by
  constructor
  · intro ok
    refine ⟨(commit_ok ok).1, ?_⟩
    obtain ⟨⟨⟩, -, made⟩ := bind_ok_iff.mp ok
    exact (pure_ok_iff.mp made).symm
  · rintro ⟨unbound, rfl⟩
    refine bind_ok_iff.mpr ⟨(), forM_ok_iff.mpr fun proposed member => ?_, rfl⟩
    rw [if_neg (unbound proposed member)]

theorem labelled_ok_iff {α : Type} {label : String} {outcome : Outcome α} {a : α} :
    labelled label outcome = .ok a ↔ outcome = .ok a := by
  refine ⟨labelled_ok, ?_⟩
  rintro rfl
  rfl

def CoreMlLoweringCtx.diagnosed (ctx : CoreMlLoweringCtx) (op : ScheduledOp) :
    CoreMlLoweringCtx :=
  { ctx with diagnostics := ctx.diagnostics ++ defaultPreflight ctx op }

theorem lowerOp_ok_iff :
    lowerOp sha256 ctx op = .ok ctx' ↔
      (∀ diagnostic ∈ defaultPreflight ctx op, diagnostic.isFatal = false) ∧
        ∃ emission, OpBuilder.emit sha256 op.opcode (ctx.diagnosed op) op = .ok emission ∧
          (∀ proposed ∈ emission.1.proposedOutputs, proposed.1 ∉ emission.2.valueBindings) ∧
            ctx' = emission.2.committed emission.1 := by
  unfold lowerOp
  simp only [bind_ok_iff, labelled_ok_iff, commit_ok_iff, checkDiagnostics_ok_iff]
  constructor
  · rintro ⟨_, ⟨harmless, rfl⟩, emission, emitted, committed⟩
    exact ⟨harmless, emission, emitted, committed⟩
  · rintro ⟨harmless, emission, emitted, committed⟩
    exact ⟨_, ⟨harmless, rfl⟩, emission, emitted, committed⟩

theorem lowerOp_pool (turn : lowerOp sha256 ctx op = .ok ctx') :
    (∀ key, op.key? sha256 = some key → key ∉ ctx.constantPool) ∧
      ∀ key, key ∈ ctx'.constantPool ↔ op.key? sha256 = some key ∨ key ∈ ctx.constantPool := by
  obtain ⟨-, emission, emitted, unbound, rfl⟩ := lowerOp_ok_iff.mp turn
  by_cases opcode : op.opcode = .constant
  · rw [opcode] at emitted
    obtain ⟨data, shape, outputId, attrs, -, fresh, rfl⟩ := emitConstant_ok emitted unbound
    have own : op.key? sha256 = some (.ofData sha256 data shape) := by
      unfold ScheduledOp.key?
      rw [opcode, attrs]
    rw [own]
    constructor
    · rintro key ⟨⟩
      exact fresh
    · intro key
      simp only [CoreMlLoweringCtx.committed, constantStage, List.foldl_cons, List.foldl_nil,
        AList.mem_insert, Option.some.injEq]
      exact or_congr_left eq_comm
  -- the other opcodes pool nothing
  · obtain ⟨none_, counted, -⟩ := emit_plain ⟨rfl, rfl, rfl, rfl, rfl⟩ opcode emitted
    have own : op.key? sha256 = none := by
      unfold ScheduledOp.key?
      split
      next constant _ => exact absurd constant opcode
      next => rfl
    rw [own]
    refine ⟨fun _ pooled => (by cases pooled), fun key => ?_⟩
    simp only [CoreMlLoweringCtx.committed, none_, counted, List.foldl_nil, reduceCtorEq, false_or]
    rfl

theorem keys_nodup {ops : List ScheduledOp} {final : CoreMlLoweringCtx}
    (run : ops.foldlM (lowerOp sha256) ctx = .ok final) :
    (ops.filterMap (ScheduledOp.key? sha256)).Nodup ∧
      ∀ key ∈ ops.filterMap (ScheduledOp.key? sha256), key ∉ ctx.constantPool := by
  induction ops generalizing ctx with
  | nil => exact ⟨List.nodup_nil, by simp⟩
  | cons op ops ih =>
    obtain ⟨next, turn, rest⟩ := foldlM_cons_ok_iff.mp run
    obtain ⟨fresh, pooled⟩ := lowerOp_pool turn
    obtain ⟨distinct, apart⟩ := ih rest
    -- what the rest of the run pools was not pooled by this turn
    have later : ∀ key ∈ ops.filterMap (ScheduledOp.key? sha256),
        op.key? sha256 ≠ some key ∧ key ∉ ctx.constantPool := by
      intro key member
      exact not_or.mp (mt (pooled key).mpr (apart key member))
    cases own : op.key? sha256 with
    | none =>
      rw [List.filterMap_cons_none own]
      exact ⟨distinct, fun key member => (later key member).2⟩
    | some key =>
      rw [List.filterMap_cons_some own, List.nodup_cons, List.forall_mem_cons]
      refine ⟨⟨fun member => (later key member).1 own, distinct⟩, fresh key own, ?_⟩
      exact fun key member => (later key member).2

/-! ### Two runs in step -/

theorem Refilled.same {op' : ScheduledOp} (refilled : Refilled op op') :
    op'.opId = op.opId ∧ op'.opcode = op.opcode ∧ op'.inputs = op.inputs ∧
      op'.outputs = op.outputs := by
  rcases refilled with rfl | ⟨-, data, data', shape, -, rfl⟩
  · exact ⟨rfl, rfl, rfl, rfl⟩
  · exact ⟨rfl, rfl, rfl, rfl⟩

/-- Operations of a block that `build` does not tell apart. -/
structure Alike (milOp milOp' : MilSpec.Operation) : Prop where
  type : milOp'.type = milOp.type
  inputs : milOp'.inputs = milOp.inputs
  outputs : milOp'.outputs = milOp.outputs
  named : "name" ∈ milOp'.attributes ↔ "name" ∈ milOp.attributes

theorem Alike.refl (milOp : MilSpec.Operation) : Alike milOp milOp := ⟨rfl, rfl, rfl, .rfl⟩

/-- The programs built differ in operations that `build` does not tell apart. -/
structure SameBuilder (builder builder' : MilBuilder) : Prop where
  functionName : builder'.functionName = builder.functionName
  inputs : builder'.inputs = builder.inputs
  blockOutputs : builder'.blockOutputs = builder.blockOutputs
  ops : List.Forall₂ Alike builder.ops builder'.ops

structure InStep (ctx ctx' : CoreMlLoweringCtx) : Prop extends SameView ctx ctx' where
  builder : SameBuilder ctx.builder ctx'.builder

theorem SameBuilder.operation {builder builder' : MilBuilder} (same : SameBuilder builder builder')
    {milOp milOp' : MilSpec.Operation} (alike : Alike milOp milOp') :
    SameBuilder (builder.operation milOp) (builder'.operation milOp') where
  functionName := same.functionName
  inputs := same.inputs
  blockOutputs := same.blockOutputs
  ops := List.rel_append same.ops (.cons alike .nil)

/-- Stages of the same values keep the contexts in step. -/
theorem InStep.committed (steps : InStep ctx ctx') {staged staged' : StagedEmission}
    (proposed : staged'.proposedOutputs = staged.proposedOutputs)
    (operations : Option.Rel Alike staged.milOperation staged'.milOperation) :
    InStep (ctx.committed staged) (ctx'.committed staged') where
  bindings := by
    unfold CoreMlLoweringCtx.committed
    rw [proposed, steps.bindings]
  tensors := steps.tensors
  target := steps.target
  diagnostics := steps.diagnostics
  counter := steps.counter
  builder := by
    have after : ∀ milOp milOp', Option.Rel Alike milOp milOp' →
        SameBuilder (milOp.elim ctx.builder ctx.builder.operation)
          (milOp'.elim ctx'.builder ctx'.builder.operation) := by
      intro milOp milOp' related
      cases related with
      | none => exact steps.builder
      | some alike => exact steps.builder.operation alike
    exact after _ _ operations

/-- The stages of a constant with other data of the same shape. -/
theorem constantStage_alike (sha256 : List UInt8 → String) {op' : ScheduledOp}
    (same : op'.opId = op.opId) (data data' shape : List UInt32) (outputId : TensorId)
    (target : CoreMlTarget) :
    (constantStage sha256 op' data' shape outputId target).proposedOutputs =
        (constantStage sha256 op data shape outputId target).proposedOutputs ∧
      Option.Rel Alike (constantStage sha256 op data shape outputId target).milOperation
        (constantStage sha256 op' data' shape outputId target).milOperation := by
  have ssa : ssaName op' = ssaName op := by
    unfold ssaName
    rw [same]
  unfold constantStage
  rw [ssa]
  refine ⟨rfl, .some ⟨rfl, rfl, rfl, ?_⟩⟩
  simp [makeOperation]

/-- A turn on a constant of a new key goes as the turn on the constant it replaces. -/
theorem lowerOp_again {op' : ScheduledOp} {next : CoreMlLoweringCtx} (steps : InStep ctx ctx')
    (refilled : Refilled op op') (turn : lowerOp sha256 ctx op = .ok next)
    (fresh : ∀ key, op'.key? sha256 = some key → key ∉ ctx'.constantPool) :
    ∃ next', lowerOp sha256 ctx' op' = .ok next' ∧ InStep next next' := by
  obtain ⟨harmless, emission, emitted, unbound, rfl⟩ := lowerOp_ok_iff.mp turn
  obtain ⟨opId, opcode', inputs, outputs⟩ := refilled.same
  -- the diagnostics are the same, as they read the shapes and not the data
  have diagnostics : defaultPreflight ctx' op' = defaultPreflight ctx op := by
    unfold defaultPreflight preflightKnown preflightFixedShape
    rw [inputs, outputs, opId, steps.tensors]
  have diagnosed : InStep (ctx.diagnosed op) (ctx'.diagnosed op') := {
    bindings := steps.bindings
    tensors := steps.tensors
    target := steps.target
    diagnostics := by
      unfold CoreMlLoweringCtx.diagnosed
      rw [steps.diagnostics, diagnostics]
    counter := steps.counter
    builder := steps.builder }
  have counted : InStep (ctx.diagnosed op).counted (ctx'.diagnosed op').counted := {
    bindings := diagnosed.bindings
    tensors := diagnosed.tensors
    target := diagnosed.target
    diagnostics := diagnosed.diagnostics
    counter := congrArg (· + 1) diagnosed.counter
    builder := diagnosed.builder }
  have harmless' : ∀ diagnostic ∈ defaultPreflight ctx' op', diagnostic.isFatal = false := by
    rwa [diagnostics]
  by_cases opcode : op.opcode = .constant
  · rw [opcode] at emitted
    obtain ⟨data, shape, outputId, attrs, first, -, rfl⟩ := emitConstant_ok emitted unbound
    -- the data may be other, the shape is the same
    obtain ⟨data', attrs'⟩ : ∃ data', op'.attrs = .constant data' shape := by
      rcases refilled with rfl | ⟨-, data₀, data', shape', attrs', rfl⟩
      · exact ⟨data, attrs⟩
      · obtain ⟨-, rfl⟩ := OpAttrs.constant.inj (attrs.symm.trans attrs')
        exact ⟨data', rfl⟩
    have key : op'.key? sha256 = some (.ofData sha256 data' shape) := by
      unfold ScheduledOp.key?
      rw [opcode', opcode, attrs']
    have first' : op'.firstOutput = .ok outputId := by
      unfold ScheduledOp.firstOutput at first ⊢
      rwa [outputs]
    have emitted' : OpBuilder.emitConstant sha256 (ctx'.diagnosed op') op' = .ok _ :=
      emitConstant_fresh attrs' first' (fresh _ key)
    obtain ⟨proposed, alike⟩ := constantStage_alike sha256 opId data data' shape outputId
      (ctx.diagnosed op).target
    rw [diagnosed.target] at emitted'
    have unbound' : ∀ entry ∈ (constantStage sha256 op' data' shape outputId
        (ctx.diagnosed op).target).proposedOutputs,
          entry.1 ∉ (ctx'.diagnosed op').counted.valueBindings := by
      rw [proposed, counted.bindings]
      exact unbound
    have emit' : OpBuilder.emit sha256 op'.opcode (ctx'.diagnosed op') op' =
        .ok (constantStage sha256 op' data' shape outputId (ctx.diagnosed op).target,
          (ctx'.diagnosed op').counted) := by
      rw [opcode', opcode]
      exact emitted'
    have turn' := lowerOp_ok_iff.mpr ⟨harmless', _, emit', unbound', rfl⟩
    exact ⟨_, turn', counted.committed proposed alike⟩
  -- only constants are refilled
  · obtain rfl : op = op' := (refilled.resolve_right fun constant => opcode constant.1).symm
    obtain ⟨-, rest, again⟩ := emit_plain diagnosed.toSameView opcode emitted
    obtain ⟨staged, after⟩ := emission
    obtain rfl : after = (ctx.diagnosed op).counted := rest
    refine ⟨_, lowerOp_ok_iff.mpr ⟨harmless', _, again, ?_, rfl⟩, counted.committed rfl ?_⟩
    · rw [counted.bindings]
      exact unbound
    · cases staged.milOperation with
      | none => exact .none
      | some milOp => exact .some (.refl milOp)

theorem run_again {ops ops' : List ScheduledOp} {final : CoreMlLoweringCtx}
    (steps : InStep ctx ctx') (refilled : List.Forall₂ Refilled ops ops')
    (run : ops.foldlM (lowerOp sha256) ctx = .ok final)
    (distinct : (ops'.filterMap (ScheduledOp.key? sha256)).Nodup)
    (apart : ∀ key ∈ ops'.filterMap (ScheduledOp.key? sha256), key ∉ ctx'.constantPool) :
    ∃ final', ops'.foldlM (lowerOp sha256) ctx' = .ok final' ∧ InStep final final' := by
  induction refilled generalizing ctx ctx' with
  | nil =>
    obtain rfl := pure_ok_iff.mp run
    exact ⟨ctx', rfl, steps⟩
  | @cons op op' ops ops' first refilled ih =>
    obtain ⟨next, turn, rest⟩ := foldlM_cons_ok_iff.mp run
    -- the key of this turn is new, and does not come again
    have own : ∀ key, op'.key? sha256 = some key →
        key ∉ ctx'.constantPool ∧ key ∉ ops'.filterMap (ScheduledOp.key? sha256) := by
      intro key key_
      rw [List.filterMap_cons_some key_] at distinct apart
      exact ⟨apart key List.mem_cons_self, (List.nodup_cons.mp distinct).1⟩
    have later : (ops'.filterMap (ScheduledOp.key? sha256)).Sublist
        ((op' :: ops').filterMap (ScheduledOp.key? sha256)) :=
      (List.sublist_cons_self op' ops').filterMap _
    obtain ⟨next', turn', steps'⟩ := lowerOp_again steps first turn fun key key_ => (own key key_).1
    obtain ⟨final', run', done⟩ := ih steps' rest (distinct.sublist later) (by
      intro key member pooled
      rcases ((lowerOp_pool turn').2 key).mp pooled with here | before
      · exact (own key here).2 member
      · exact apart key (later.subset member) before)
    exact ⟨final', foldlM_cons_ok_iff.mpr ⟨next', turn', run'⟩, done⟩

/-! ### The ends of the runs -/

theorem verifyOperation_again {milOp milOp' : MilSpec.Operation} (alike : Alike milOp milOp')
    {defined next : List String} (ok : MilBuilder.verifyOperation defined milOp = .ok next) :
    MilBuilder.verifyOperation defined milOp' = .ok next := by
  unfold MilBuilder.verifyOperation at ok ⊢
  -- the check reads the name, the operands and the outputs
  have operands : MilBuilder.operandNames milOp' = MilBuilder.operandNames milOp := by
    unfold MilBuilder.operandNames
    rw [alike.inputs]
  obtain ⟨⟨⟩, named, ok⟩ := bind_ok_iff.mp ok
  obtain ⟨⟨⟩, known, made⟩ := bind_ok_iff.mp ok
  refine bind_ok_iff.mpr ⟨(), require_ok_iff.mpr (alike.named.mpr (require_ok_iff.mp named)), ?_⟩
  rw [operands, alike.type, alike.outputs]
  exact bind_ok_iff.mpr ⟨(), known, made⟩

theorem verify_again {milOps milOps' : List MilSpec.Operation}
    (alike : List.Forall₂ Alike milOps milOps') {defined final : List String}
    (ok : milOps.foldlM MilBuilder.verifyOperation defined = .ok final) :
    milOps'.foldlM MilBuilder.verifyOperation defined = .ok final := by
  induction alike generalizing defined with
  | nil => exact ok
  | cons first _ ih =>
    obtain ⟨next, checked, rest⟩ := foldlM_cons_ok_iff.mp ok
    exact foldlM_cons_ok_iff.mpr ⟨next, verifyOperation_again first checked, ih rest⟩

theorem build_again {builder builder' : MilBuilder} (same : SameBuilder builder builder')
    {program : Program} (ok : builder.build = .ok program) :
    ∃ program', builder'.build = .ok program' := by
  unfold MilBuilder.build at ok ⊢
  obtain ⟨defined, verified, ok⟩ := bind_ok_iff.mp ok
  obtain ⟨⟨⟩, known, -⟩ := bind_ok_iff.mp ok
  refine ⟨_, bind_ok_iff.mpr ⟨defined, ?_, bind_ok_iff.mpr ⟨(), ?_, rfl⟩⟩⟩
  · rw [same.inputs]
    exact verify_again same.ops verified
  · rw [same.blockOutputs]
    exact known

/-- One turn of the loop over the outputs of the region. -/
def CoreMlLoweringCtx.bindOutput (ctx : CoreMlLoweringCtx) (builder : MilBuilder)
    (outputId : TensorId) : Outcome MilBuilder :=
  match ctx.valueBindings.lookup outputId with
  | some ref => .ok (builder.output ref.ssaName)
  | none => ctx.constraintViolation ⟨outputId.id⟩ "output_unbound"
      s!"region output tensor TensorId({outputId.id}) has no MIL binding"

theorem bindOutput_again (steps : InStep ctx ctx') {builder builder' next : MilBuilder}
    (same : SameBuilder builder builder') {id : TensorId}
    (ok : ctx.bindOutput builder id = .ok next) :
    ∃ next', ctx'.bindOutput builder' id = .ok next' ∧ SameBuilder next next' := by
  unfold CoreMlLoweringCtx.bindOutput at ok ⊢
  rw [steps.bindings]
  split at ok
  next ref bound =>
    cases ok
    exact ⟨_, rfl, {
      functionName := same.functionName
      inputs := same.inputs
      blockOutputs := congrArg (· ++ [ref.ssaName]) same.blockOutputs
      ops := same.ops }⟩
  next => cases ok

theorem bindOutputs_again (steps : InStep ctx ctx') {ids : List TensorId}
    {builder builder' final : MilBuilder} (same : SameBuilder builder builder')
    (ok : ids.foldlM ctx.bindOutput builder = .ok final) :
    ∃ final', ids.foldlM ctx'.bindOutput builder' = .ok final' ∧ SameBuilder final final' := by
  induction ids generalizing builder builder' with
  | nil =>
    obtain rfl := pure_ok_iff.mp ok
    exact ⟨builder', rfl, same⟩
  | cons id ids ih =>
    obtain ⟨next, first, rest⟩ := foldlM_cons_ok_iff.mp ok
    obtain ⟨next', first', same'⟩ := bindOutput_again steps same first
    obtain ⟨final', rest', done⟩ := ih same' rest
    exact ⟨final', foldlM_cons_ok_iff.mpr ⟨next', first', rest'⟩, done⟩

theorem finalize_again (steps : InStep ctx ctx') {region : ScheduledRegion}
    {finalized : MilBuilder × MilLoweringReceipt} (ok : ctx.finalize region = .ok finalized) :
    ∃ finalized', ctx'.finalize region = .ok finalized' ∧
      SameBuilder finalized.1 finalized'.1 := by
  obtain ⟨builder, collected, made⟩ := bind_ok_iff.mp ok
  obtain rfl := pure_ok_iff.mp made
  have collected : region.outputs.foldlM ctx.bindOutput ctx.builder = .ok builder := collected
  obtain ⟨builder', collected', same⟩ := bindOutputs_again steps steps.builder collected
  have finalized' : ctx'.finalize region = .ok (builder', _) :=
    bind_ok_iff.mpr ⟨builder', collected', rfl⟩
  exact ⟨_, finalized', same⟩

end

/-! ### The lowering again -/

section

variable {sha256 : List UInt8 → String} {lowering : CoreMlLowering} {region : ScheduledRegion}
  {ops ops' : List ScheduledOp}

theorem registered_again (refilled : List.Forall₂ Refilled ops ops') :
    registered lowering region ops' = registered lowering region ops := by
  have intermediates : ∀ ctx, registerIntermediates region ops' ctx =
      registerIntermediates region ops ctx := by
    unfold registerIntermediates
    induction refilled with
    | nil => exact fun _ => rfl
    | cons first _ ih =>
      intro ctx
      obtain ⟨-, opcode, inputs, outputs⟩ := first.same
      rw [List.foldl_cons, List.foldl_cons, ih, opcode, inputs, outputs]
  unfold registered
  rw [intermediates]

theorem registered_pool (lowering : CoreMlLowering) (region : ScheduledRegion)
    (ops : List ScheduledOp) : (registered lowering region ops).constantPool = ∅ := by
  have keeps {α : Type} (turn : CoreMlLoweringCtx → α → CoreMlLoweringCtx)
      (one : ∀ ctx a, (turn ctx a).constantPool = ctx.constantPool) (items : List α)
      (ctx : CoreMlLoweringCtx) : (items.foldl turn ctx).constantPool = ctx.constantPool := by
    induction items generalizing ctx with
    | nil => rfl
    | cons a items ih => rw [List.foldl_cons, ih, one]
  have tensor (fallback : List UInt32) (isConstant : Bool) (ctx : CoreMlLoweringCtx)
      (id : TensorId) :
      (registerTensor region fallback isConstant ctx id).constantPool = ctx.constantPool := by
    unfold registerTensor
    split <;> rfl
  have inputs (ctx : CoreMlLoweringCtx) :
      (registerInputs region ctx).constantPool = ctx.constantPool := by
    apply keeps
    intro ctx entry
    split <;> rfl
  have intermediates (ctx : CoreMlLoweringCtx) :
      (registerIntermediates region ops ctx).constantPool = ctx.constantPool := by
    apply keeps
    intro ctx op
    rw [keeps _ (tensor _ _), keeps _ (tensor _ _)]
  have outputs (ctx : CoreMlLoweringCtx) :
      (registerOutputs region ctx).constantPool = ctx.constantPool := by
    apply keeps
    intro ctx id
    rfl
  unfold registered
  rw [outputs, intermediates, inputs]
  rfl

theorem lowerToMil_again {artifact : CoreMlMilArtifact} {receipt : MilLoweringReceipt}
    (lowered : lowering.lowerToMil sha256 region ops = .ok (artifact, receipt))
    (refilled : List.Forall₂ Refilled ops ops')
    (distinct : (ops'.filterMap (ScheduledOp.key? sha256)).Nodup) :
    ∃ artifact' receipt', lowering.lowerToMil sha256 region ops' = .ok (artifact', receipt') := by
  unfold CoreMlLowering.lowerToMil at lowered ⊢
  rw [registered_again refilled]
  obtain ⟨final, run, lowered⟩ := bind_ok_iff.mp lowered
  obtain ⟨finalized, ended, lowered⟩ := bind_ok_iff.mp lowered
  obtain ⟨program, built, -⟩ := bind_ok_iff.mp lowered
  have steps : InStep (registered lowering region ops) (registered lowering region ops) := {
    bindings := rfl
    tensors := rfl
    target := rfl
    diagnostics := rfl
    counter := rfl
    builder := ⟨rfl, rfl, rfl, List.forall₂_same.mpr fun milOp _ => .refl milOp⟩ }
  -- the pool is empty when the run starts
  have empty : ∀ key ∈ ops'.filterMap (ScheduledOp.key? sha256),
      key ∉ (registered lowering region ops).constantPool := by
    intro key _
    rw [registered_pool]
    exact AList.notMem_empty key
  obtain ⟨final', run', steps'⟩ := run_again steps refilled run distinct empty
  obtain ⟨finalized', ended', same⟩ := finalize_again steps' (labelled_ok ended)
  obtain ⟨program', built'⟩ := build_again same (labelled_ok built)
  exact ⟨_, _, bind_ok_iff.mpr ⟨final', run', bind_ok_iff.mpr ⟨finalized',
    labelled_ok_iff.mpr ended', bind_ok_iff.mpr ⟨program', labelled_ok_iff.mpr built', rfl⟩⟩⟩⟩

/-! ### The constants of a block -/

theorem Lowered.content_eq {ctx next : CoreMlLoweringCtx} {op : ScheduledOp}
    {instr : Instr TensorId TensorOp} {refs : List MilValueRef} {milOp : MilSpec.Operation}
    {ref : MilValueRef} (turn : Lowered ctx op next instr refs milOp ref) :
    milOp.content? = op.content? := by
  obtain ⟨opcode, -⟩ := instr?_cases turn.source
  unfold Operation.content? ScheduledOp.content?
  rw [turn.target, opcode]
  rfl

theorem loweredAll_contents {ctx final : CoreMlLoweringCtx}
    {instrs : List (Instr TensorId TensorOp)} {milOps : List MilSpec.Operation}
    (run : LoweredAll ctx ops instrs milOps final) :
    milOps.filterMap Operation.content? = ops.filterMap ScheduledOp.content? := by
  induction run with
  | nil => rfl
  | cons turn _ ih => rw [List.filterMap_cons, List.filterMap_cons, turn.content_eq, ih]

theorem loweredAll_binding {ctx final : CoreMlLoweringCtx} {instrs : List (Instr TensorId TensorOp)}
    {milOps : List MilSpec.Operation} (run : LoweredAll ctx ops instrs milOps final) {id : TensorId}
    {ref : MilValueRef} (bound : ctx.valueBindings.lookup id = some ref) :
    final.valueBindings.lookup id = some ref := by
  induction run with
  | nil => exact bound
  | @cons ctx next _ op _ instr _ _ _ _ _ turn _ ih =>
    apply ih
    -- a turn binds an output that is not bound yet
    have apart : id ≠ instr.dest := by
      rintro rfl
      exact turn.fresh (AList.lookup_isSome.mp (bound ▸ rfl))
    rw [turn.bindings, AList.lookup_insert_ne apart, bound]

theorem loweredAll_turn {ctx final : CoreMlLoweringCtx} {instrs : List (Instr TensorId TensorOp)}
    {milOps : List MilSpec.Operation} (run : LoweredAll ctx ops instrs milOps final)
    {op : ScheduledOp} (member : op ∈ ops) :
    ∃ before after instr refs milOp ref, Lowered before op after instr refs milOp ref ∧
      milOp ∈ milOps ∧ final.valueBindings.lookup instr.dest = some ref ∧
        ∀ id bound, before.valueBindings.lookup id = some bound →
          final.valueBindings.lookup id = some bound := by
  induction run with
  | nil => cases member
  | cons turn later ih =>
    rcases List.mem_cons.mp member with rfl | member
    · refine ⟨_, _, _, _, _, _, turn, List.mem_cons_self, ?_, ?_⟩
      · apply loweredAll_binding later
        rw [turn.bindings, AList.lookup_insert]
      · intro id bound
        exact loweredAll_binding (.cons turn later)
    · obtain ⟨before, after, instr, refs, milOp, ref, turn', listed, rest⟩ := ih member
      exact ⟨before, after, instr, refs, milOp, ref, turn', List.mem_cons_of_mem _ listed, rest⟩

theorem key?_eq_map (op : ScheduledOp) : op.key? sha256 = op.content?.map fun content =>
    ConstantKey.ofData sha256 content.1 (content.2.map UInt32.ofNat) := by
  unfold ScheduledOp.key? ScheduledOp.content? ScheduledOp.tensorOp?
  cases op.opcode <;> cases op.attrs <;> simp [TensorOp.content?, Function.comp_def]

/-- Where the keys are distinct, a lowering has a constant for each content, and its readers read
it. -/
theorem sharesConstants_of_ok {artifact : CoreMlMilArtifact} {receipt : MilLoweringReceipt}
    (lowered : lowering.lowerToMil sha256 region ops = .ok (artifact, receipt))
    (distinct : (ops.filterMap (ScheduledOp.key? sha256)).Nodup) :
    ∃ function block, artifact.program.main? = some (function, block) ∧
      SharesConstants ops artifact block := by
  obtain ⟨instrs, final, function, block, -, bindings, result⟩ := lowerToMil_run lowered
  -- a key is a function of the content, so that distinct keys have distinct contents
  have contents : (ops.filterMap ScheduledOp.content?).Nodup := by
    have keys : ops.filterMap (ScheduledOp.key? sha256) =
        (ops.filterMap ScheduledOp.content?).map fun content =>
          ConstantKey.ofData sha256 content.1 (content.2.map UInt32.ofNat) := by
      rw [List.map_filterMap]
      exact congrFun (congrArg List.filterMap (funext key?_eq_map)) ops
    rw [keys] at distinct
    exact distinct.of_map _
  refine ⟨function, block, result.main, ?_, ?_⟩
  · rw [loweredAll_contents result.turns, List.dedup_eq_self.mpr contents]
  · intro op member content content_ id first
    obtain ⟨before, after, instr, refs, milOp, ref, turn, listed, bound, -⟩ :=
      loweredAll_turn result.turns member
    have dest : instr.dest = id := by
      obtain ⟨-, first', -⟩ := instr?_cases turn.source
      exact Option.some.inj (first'.symm.trans first)
    rw [dest, ← bindings] at bound
    refine ⟨ref, bound, ⟨milOp, listed, turn.content_eq.trans content_, ?_⟩, ?_⟩
    · unfold Operation.outputNames
      rw [turn.outputs]
      rfl
    · intro reader member' instr' source' k operand
      obtain ⟨before', after', instr₁, refs', milOp', ref', turn', listed', -, kept⟩ :=
        loweredAll_turn result.turns member'
      obtain rfl := Option.some.inj (turn'.source.symm.trans source')
      refine ⟨milOp', listed', _, turn'.target, turn'.named, rfl, ?_⟩
      -- the reader finds the tensor bound, and it stays bound to that value
      obtain ⟨read, there, found⟩ := getElem?_of_mapM_some turn'.operands operand
      rw [bindings, kept id read found] at bound
      obtain rfl := Option.some.inj bound
      rw [List.getElem?_map, there]
      rfl

end

/-- A region that is lowered is lowered for other contents of its constants, with one constant for
each content, exactly when the keys of the contents are pairwise distinct. -/
theorem sharesConstants_iff (sha256 : List UInt8 → String) (lowering : CoreMlLowering)
    (region : ScheduledRegion) (ops ops' : List ScheduledOp) (artifact : CoreMlMilArtifact)
    (receipt : MilLoweringReceipt)
    (lowered : lowering.lowerToMil sha256 region ops = .ok (artifact, receipt))
    (refilled : List.Forall₂ Refilled ops ops') :
    (∃ artifact' receipt' function block,
      lowering.lowerToMil sha256 region ops' = .ok (artifact', receipt') ∧
        artifact'.program.main? = some (function, block) ∧
          SharesConstants ops' artifact' block) ↔
      (ops'.filterMap (ScheduledOp.key? sha256)).Nodup := by
  constructor
  · rintro ⟨artifact', receipt', -, -, lowered', -⟩
    obtain ⟨-, final, -, -, run, -⟩ := lowerToMil_run lowered'
    exact (keys_nodup run).1
  · intro distinct
    obtain ⟨artifact', receipt', lowered'⟩ := lowerToMil_again lowered refilled distinct
    obtain ⟨function, block, main, shares⟩ := sharesConstants_of_ok lowered' distinct
    exact ⟨artifact', receipt', function, block, lowered', main, shares⟩

def sumRegion : ScheduledRegion where
  regionId := ⟨0⟩
  name := "sum"
  operations := []
  selectedBackend := ⟨2⟩
  physicalTensors := []
  inputs := []
  outputs := [⟨3⟩]
  dependencies := []
  stateEffects := []
  tempMemoryBytes := 0
  isFence := false

def sumOps (a b : UInt32) : List ScheduledOp :=
  [⟨⟨10⟩, .constant, [], [⟨1⟩], .constant [a] [1]⟩,
    ⟨⟨11⟩, .constant, [], [⟨2⟩], .constant [b] [1]⟩,
    ⟨⟨12⟩, .add, [⟨1⟩, ⟨2⟩], [⟨3⟩], .add⟩]

theorem sumOps_refilled (a b a' b' : UInt32) :
    List.Forall₂ Refilled (sumOps a b) (sumOps a' b') :=
  .cons (.inr ⟨rfl, [a], [a'], [1], rfl, rfl⟩)
    (.cons (.inr ⟨rfl, [b], [b'], [1], rfl, rfl⟩) (.cons (.inl rfl) .nil))

/-- The SHA-256 digests of the little-endian words of 0.0 and 1.0, the only ones the sum needs. -/
def digestOfWord (bytes : List UInt8) : String :=
  if bytes = [0, 0, 0, 0] then
    "df3f619804a92fdb4057192dc43dd748ea778adc52bc498ce80524c014b81119"
  else if bytes = [0, 0, 128, 63] then
    "e00e5eb9444182f352323374ef4e08ebcb784725fdd4fd612d7730540b3e0c8c"
  else ""

theorem sum_lowered : ∃ artifact receipt, (CoreMlLowering.new .macOS13).lowerToMil digestOfWord
    sumRegion (sumOps 0 0x3F800000) = .ok (artifact, receipt) := by
  have made : ((CoreMlLowering.new .macOS13).lowerToMil digestOfWord sumRegion
      (sumOps 0 0x3F800000)).toOption.isSome = true := by
    decide +kernel
  obtain ⟨⟨artifact, receipt⟩, lowered⟩ := exists_ok_of_isSome made
  exact ⟨artifact, receipt, lowered⟩

/-- The constants of the sum, exchanged. -/
theorem sum_exchanged_shares : ∃ artifact receipt function block,
    (CoreMlLowering.new .macOS13).lowerToMil digestOfWord sumRegion (sumOps 0x3F800000 0) =
        .ok (artifact, receipt) ∧
      artifact.program.main? = some (function, block) ∧
        SharesConstants (sumOps 0x3F800000 0) artifact block := by
  obtain ⟨artifact, receipt, lowered⟩ := sum_lowered
  exact (sharesConstants_iff _ _ _ _ _ artifact receipt lowered (sumOps_refilled _ _ _ _)).mpr
    (by decide)

/-- With two equal constants the sum is not lowered. -/
theorem equal_constants_not_lowered :
    ¬ ∀ (sha256 : List UInt8 → String) (lowering : CoreMlLowering) (region : ScheduledRegion)
      (ops ops' : List ScheduledOp) (artifact : CoreMlMilArtifact) (receipt : MilLoweringReceipt),
      (ops.map ScheduledOp.opId).Nodup → (ops.flatMap ScheduledOp.outputs).Nodup →
      (ops.filterMap ScheduledOp.content?).Nodup →
      lowering.lowerToMil sha256 region ops = .ok (artifact, receipt) →
      List.Forall₂ Refilled ops ops' →
      ∃ artifact' receipt' function block,
        lowering.lowerToMil sha256 region ops' = .ok (artifact', receipt') ∧
          artifact'.program.main? = some (function, block) ∧
            SharesConstants ops' artifact' block := by
  intro all
  obtain ⟨artifact, receipt, lowered⟩ := sum_lowered
  obtain ⟨artifact', receipt', -, -, lowered', -⟩ := all _ _ _ _ (sumOps 0 0) artifact receipt
    (by decide) (by decide) (by decide) lowered (sumOps_refilled _ _ _ _)
  obtain ⟨-, final, -, -, run, -⟩ := lowerToMil_run lowered'
  exact absurd (keys_nodup run).1 (by decide)

end TribunusCompute.Lowering
