import TribunusCompute.Lowering.TensorOps

/-!
# One turn of the lowering

What an emitter stages is characterised once for every opcode (`Staged`), and from it what a turn
of the loop does to the context (`Lowered`). A constant whose contents are pooled binds its output
before the stage is committed, so that the commit refuses it: a turn that succeeds has emitted an
operation of its own.
-/
namespace TribunusCompute.Lowering

open Outcome MilSpec StraightLine

def ssaName (op : ScheduledOp) : String := s!"op_{op.opId.id}_{0}"

/-- An operation of the block says what the scheduled one says: over names instead of tensors,
with the type the emitter declares for it. -/
structure Emits (ctx : CoreMlLoweringCtx) (op : ScheduledOp) (instr : Instr TensorId TensorOp)
    (refs : List MilValueRef) (milOp : Operation) (ref : MilValueRef) : Prop where
  source : op.instr? = some instr
  operands : instr.operands.mapM ctx.valueBindings.lookup = some refs
  target : milOp.instr? =
    some ⟨ref.ssaName, instr.operation, refs.map MilValueRef.ssaName⟩
  outputs : milOp.outputs = [⟨ref.ssaName, ref.valueType⟩]
  named : ref.ssaName = ssaName op
  declares : instr.operation.declaredType (refs.map MilValueRef.valueType) = some ref.valueType

structure Staged (ctx : CoreMlLoweringCtx) (op : ScheduledOp)
    (emission : StagedEmission × CoreMlLoweringCtx) (instr : Instr TensorId TensorOp)
    (refs : List MilValueRef) (milOp : Operation) (ref : MilValueRef) : Prop
    extends Emits ctx op instr refs milOp ref where
  operation : emission.1.milOperation = some milOp
  proposed : emission.1.proposedOutputs = [(instr.dest, ref)]
  builder : emission.2.builder = ctx.builder
  bindings : emission.2.valueBindings = ctx.valueBindings

/-! ### Helpers of the emitters -/

theorem requireInput_ok {ctx : CoreMlLoweringCtx} {opId : OperationId} {idx : ℕ}
    {inputs : List TensorId} {ref : MilValueRef}
    (found : ctx.requireInput opId idx inputs = .ok ref) :
    ∃ id, inputs[idx]? = some id ∧ ctx.valueBindings.lookup id = some ref := by
  unfold CoreMlLoweringCtx.requireInput at found
  split at found
  next => cases found
  next id there =>
    split at found
    next => cases found
    next bound =>
      cases found
      exact ⟨id, there, bound⟩

theorem firstOutput_ok {op : ScheduledOp} {dest : TensorId} (first : op.firstOutput = .ok dest) :
    op.outputs.head? = some dest := by
  unfold ScheduledOp.firstOutput at first
  split at first
  next listed =>
    cases first
    rw [listed]
    rfl
  next => cases first

theorem instr?_eq_some {op : ScheduledOp} {operation : TensorOp} {dest : TensorId}
    (opcode : op.tensorOp? = some operation) (first : op.outputs.head? = some dest)
    (enough : operation.arity ≤ op.inputs.length) :
    op.instr? = some ⟨dest, operation, op.inputs.take operation.arity⟩ := by
  simp [ScheduledOp.instr?, opcode, first, enough]

theorem instr?_cases {op : ScheduledOp} {instr : Instr TensorId TensorOp}
    (source : op.instr? = some instr) :
    op.tensorOp? = some instr.operation ∧ op.outputs.head? = some instr.dest ∧
      instr.operation.arity ≤ op.inputs.length ∧
        instr.operands = op.inputs.take instr.operation.arity := by
  unfold ScheduledOp.instr? at source
  simp only [Option.bind_eq_bind, Option.bind_eq_some_iff, Option.pure_def,
    Option.some.injEq, Option.guard_eq_some'] at source
  obtain ⟨operation, opcode, dest, first, -, enough, rfl⟩ := source
  exact ⟨opcode, first, enough, rfl⟩

section Emitters

variable {ctx : CoreMlLoweringCtx} {op : ScheduledOp} {milType ssa : String}
  {operands : List (String × MilValueRef)} {constants : List (String × Argument)}
  {emission : StagedEmission × CoreMlLoweringCtx} {operation : TensorOp}

variable (ctx) in
/-- What a staged operation says is what the scheduled one says, operand by operand. -/
theorem stage_staged (ctx' : CoreMlLoweringCtx) {type : ValueType} (refs : List MilValueRef)
    (same : ctx'.builder = ctx.builder) (same' : ctx'.valueBindings = ctx.valueBindings)
    (opcode : op.tensorOp? = some operation) (enough : operation.arity ≤ op.inputs.length)
    (bound : (op.inputs.take operation.arity).mapM ctx.valueBindings.lookup = some refs)
    (reads : (makeOperation milType (ssaName op) (OpBuilder.stageInputs operands constants)
      [(ssaName op, type)] ∅).tensorOp? = some (operation, refs.map MilValueRef.ssaName))
    (declared : operation.declaredType (refs.map MilValueRef.valueType) = some type)
    (emitted : OpBuilder.stage ctx' op milType (ssaName op) operands constants type =
      .ok emission) :
    ∃ instr refs milOp ref, Staged ctx op emission instr refs milOp ref := by
  unfold OpBuilder.stage at emitted
  obtain ⟨dest, first, made⟩ := bind_ok_iff.mp emitted
  obtain rfl := pure_ok_iff.mp made
  refine ⟨⟨dest, operation, op.inputs.take operation.arity⟩, refs,
    makeOperation milType (ssaName op) (OpBuilder.stageInputs operands constants)
      [(ssaName op, type)] ∅, .new (ssaName op) type milType, ?_⟩
  exact {
    source := instr?_eq_some opcode (firstOutput_ok first) enough
    operands := bound
    target := by
      unfold Operation.instr?
      rw [reads]
      rfl
    outputs := rfl
    named := rfl
    declares := declared
    operation := rfl
    proposed := rfl
    builder := same
    bindings := same' }

theorem emitUnary_staged {type : MilValueRef → ValueType}
    (arity : operation.arity = 1) (opcode : op.tensorOp? = some operation)
    (reads : ∀ ref : MilValueRef, (makeOperation milType (ssaName op)
      (OpBuilder.stageInputs [("x", ref)] constants) [(ssaName op, type ref)] ∅).tensorOp? =
        some (operation, [ref.ssaName]))
    (declared : ∀ ref : MilValueRef, operation.declaredType [ref.valueType] = some (type ref))
    (emitted : OpBuilder.emitUnary ctx op milType constants type = .ok emission) :
    ∃ instr refs milOp ref, Staged ctx op emission instr refs milOp ref := by
  unfold OpBuilder.emitUnary at emitted
  obtain ⟨ref, found, staged⟩ := bind_ok_iff.mp emitted
  obtain ⟨id, there, bound⟩ := requireInput_ok found
  obtain ⟨rest, inputs⟩ : ∃ rest, op.inputs = id :: rest := by
    cases listed : op.inputs with
    | nil => simp [listed] at there
    | cons first rest => exact ⟨rest, by simpa [listed] using there⟩
  apply stage_staged ctx (ctx.freshSsaName op.opId 0).2 [ref] rfl rfl opcode _ _ (reads ref) (declared ref) staged
  · rw [arity, inputs, List.length_cons]
    omega
  · simp [arity, inputs, bound]

theorem emitPair_staged {type : MilValueRef → ValueType}
    (arity : operation.arity = 2) (opcode : op.tensorOp? = some operation)
    (reads : ∀ a b : MilValueRef, (makeOperation milType (ssaName op)
      (OpBuilder.stageInputs [("x", a), ("y", b)] constants) [(ssaName op, type a)] ∅).tensorOp? =
        some (operation, [a.ssaName, b.ssaName]))
    (declared : ∀ a b : MilValueRef,
      operation.declaredType [a.valueType, b.valueType] = some (type a))
    (emitted : OpBuilder.emitPair ctx op milType constants type = .ok emission) :
    ∃ instr refs milOp ref, Staged ctx op emission instr refs milOp ref := by
  unfold OpBuilder.emitPair at emitted
  obtain ⟨a, foundA, emitted⟩ := bind_ok_iff.mp emitted
  obtain ⟨b, foundB, staged⟩ := bind_ok_iff.mp emitted
  obtain ⟨idA, thereA, boundA⟩ := requireInput_ok foundA
  obtain ⟨idB, thereB, boundB⟩ := requireInput_ok foundB
  obtain ⟨rest, inputs⟩ : ∃ rest, op.inputs = idA :: idB :: rest := by
    match listed : op.inputs with
    | [] => simp [listed] at thereA
    | [_] => simp [listed] at thereB
    | first :: second :: rest =>
      rw [listed] at thereA thereB
      exact ⟨rest, by simpa using And.intro thereA thereB⟩
  apply stage_staged ctx (ctx.freshSsaName op.opId 0).2 [a, b] rfl rfl opcode _ _ (reads a b) (declared a b) staged
  · rw [arity, inputs, List.length_cons, List.length_cons]
    omega
  · simp [arity, inputs, boundA, boundB]

end Emitters

/-! ### Every opcode -/

section Opcodes

variable {sha256 : List UInt8 → String} {ctx : CoreMlLoweringCtx} {op : ScheduledOp}
  {emission : StagedEmission × CoreMlLoweringCtx}

theorem shape?_tensorType (dtype : DataType) (shape : List Int64) :
    (valueTypeTensor (tensorType dtype shape)).shape? =
      some (shape.map fun d => d.toUInt64.toNat) := by
  change (shape.map fun d => Dimension.constant d.toUInt64).mapM Dimension.size? = _
  induction shape with
  | nil => rfl
  | cons d shape ih =>
    rw [List.map_cons, List.mapM_cons, ih]
    rfl

theorem toInt_toInt64 (p : UInt32) : p.toUInt64.toInt64.toInt = (p.toNat : ℤ) := by
  have small := p.toNat_lt
  have bits : p.toUInt64.toInt64.toInt = p.toUInt64.toBitVec.toInt := rfl
  rw [bits, BitVec.toInt_eq_toNat_of_lt]
  · simp
  · simp only [UInt64.toNat_toBitVec, UInt32.toNat_toUInt64]
    omega

theorem ofNat_toNat (p : UInt32) : UInt64.ofNat p.toNat = p.toUInt64 := by
  apply UInt64.toNat_inj.mp
  rw [UInt64.toNat_ofNat_of_lt' (p.toNat_lt.trans (by decide)), UInt32.toNat_toUInt64]

/-- The emission of a constant: an operation of its own, or a value of the pool. -/
theorem emitConstant_staged (opcode : op.opcode = .constant)
    (emitted : OpBuilder.emitConstant sha256 ctx op = .ok emission) :
    (∃ instr refs milOp ref, Staged ctx op emission instr refs milOp ref) ∨
      ∃ id ref, emission.1.proposedOutputs = [(id, ref)] ∧ id ∈ emission.2.valueBindings := by
  unfold OpBuilder.emitConstant at emitted
  split at emitted
  next data shape attrs =>
    dsimp only at emitted
    split at emitted
    next existing _ =>
      -- the pooled value is bound at once
      obtain ⟨dest, -, made⟩ := bind_ok_iff.mp emitted
      obtain rfl := pure_ok_iff.mp made
      exact .inr ⟨dest, existing, rfl, by simp⟩
    next =>
      obtain ⟨dest, first, made⟩ := bind_ok_iff.mp emitted
      obtain rfl := pure_ok_iff.mp made
      have source : op.tensorOp? = some (.constant data (shape.map UInt32.toNat)) := by
        simp [ScheduledOp.tensorOp?, opcode, attrs]
      have sizes : shape.map (fun s => s.toUInt64.toInt64) =
          (shape.map UInt32.toNat).map fun n => (UInt64.ofNat n).toInt64 := by
        rw [List.map_map]
        apply List.map_congr_left
        intro p _
        rw [Function.comp_apply, ofNat_toNat]
      refine .inl ⟨_, [], _, _, {
        source := instr?_eq_some source (firstOutput_ok first) (Nat.zero_le _)
        operands := rfl
        target := ?_
        outputs := rfl
        named := rfl
        declares := ?_
        operation := rfl
        proposed := rfl
        builder := rfl
        bindings := rfl }⟩
      · simp [Operation.instr?, Operation.tensorOp?, Operation.constant?, makeOperation,
          shape?_tensorType, Function.comp_def]
      · rw [sizes]
        rfl
  next => cases emitted

/-- Every emitter stages the operation that the scheduled one stands for. -/
theorem emit_staged (emitted : OpBuilder.emit sha256 op.opcode ctx op = .ok emission) :
    (∃ instr refs milOp ref, Staged ctx op emission instr refs milOp ref) ∨
      ∃ id ref, emission.1.proposedOutputs = [(id, ref)] ∧ id ∈ emission.2.valueBindings := by
  -- Apart from a constant, every opcode stages one operation; those with attributes need them.
  cases opcode : op.opcode with
  | constant =>
    rw [opcode] at emitted
    exact emitConstant_staged opcode emitted
  | identity =>
    rw [opcode] at emitted
    left
    apply @emitUnary_staged _ _ _ _ _ .identity _ rfl _ _ (fun ref => rfl) emitted
    · simp [ScheduledOp.tensorOp?, opcode]
    · intro ref
      simp [Operation.tensorOp?, makeOperation, OpBuilder.stageInputs, Operation.operand?,
        namedArg, -AList.insert_empty]
  | add =>
    rw [opcode] at emitted
    left
    apply @emitPair_staged _ _ _ _ _ .add _ rfl _ _ (fun a b => rfl) emitted
    · simp [ScheduledOp.tensorOp?, opcode]
    · intro a b
      simp [Operation.tensorOp?, makeOperation, OpBuilder.stageInputs, Operation.operand?,
        namedArg, -AList.insert_empty]
  | multiply =>
    rw [opcode] at emitted
    left
    apply @emitPair_staged _ _ _ _ _ .multiply _ rfl _ _ (fun a b => rfl) emitted
    · simp [ScheduledOp.tensorOp?, opcode]
    · intro a b
      simp [Operation.tensorOp?, makeOperation, OpBuilder.stageInputs, Operation.operand?,
        namedArg, -AList.insert_empty]
  | matmul =>
    rw [opcode] at emitted
    change OpBuilder.emitMatmul ctx op = .ok emission at emitted
    unfold OpBuilder.emitMatmul at emitted
    split at emitted
    next x y attrs =>
      left
      apply @emitPair_staged _ _ _ _ _ (.matmul x y) _ rfl _ _ (fun a b => rfl) emitted
      · simp [ScheduledOp.tensorOp?, opcode, attrs]
      · intro a b
        simp [Operation.tensorOp?, makeOperation, OpBuilder.stageInputs, Operation.operand?,
          Operation.bool?, Operation.immediate?, namedArg, boolArg, boolAttr, -AList.insert_empty]
    next => cases emitted
  | reshape =>
    rw [opcode] at emitted
    change OpBuilder.emitReshape ctx op = .ok emission at emitted
    unfold OpBuilder.emitReshape at emitted
    split at emitted
    next target attrs =>
      left
      apply @emitUnary_staged _ _ _ _ _ (.reshape (target.map Int64.toInt)) _ rfl _ _ _ emitted
      · simp [ScheduledOp.tensorOp?, opcode, attrs]
      · intro ref
        simp [Operation.tensorOp?, makeOperation, OpBuilder.stageInputs, Operation.operand?,
          Operation.ints?, Operation.immediate?, namedArg, intArrayArg, -AList.insert_empty]
      · intro ref
        simp [TensorOp.declaredType, Function.comp_def]
    next => cases emitted
  | transpose =>
    rw [opcode] at emitted
    change OpBuilder.emitTranspose ctx op = .ok emission at emitted
    unfold OpBuilder.emitTranspose at emitted
    split at emitted
    next permutation attrs =>
      left
      apply @emitUnary_staged _ _ _ _ _
        (.transpose (permutation.map fun p => (p.toNat : ℤ))) _ rfl _ _ (fun ref => rfl) emitted
      · simp [ScheduledOp.tensorOp?, opcode, attrs]
      · intro ref
        simp [Operation.tensorOp?, makeOperation, OpBuilder.stageInputs, Operation.operand?,
          Operation.ints?, Operation.immediate?, namedArg, intArrayArg, toInt_toInt64,
          Function.comp_def, -AList.insert_empty]
    next => cases emitted
  | softmax =>
    rw [opcode] at emitted
    change OpBuilder.emitSoftmax ctx op = .ok emission at emitted
    unfold OpBuilder.emitSoftmax at emitted
    split at emitted
    next axis attrs =>
      left
      apply @emitUnary_staged _ _ _ _ _ (.softmax axis.toInt) _ rfl _ _ (fun ref => rfl) emitted
      · simp [ScheduledOp.tensorOp?, opcode, attrs]
      · intro ref
        simp [Operation.tensorOp?, makeOperation, OpBuilder.stageInputs, Operation.operand?,
          Operation.ints?, Operation.immediate?, namedArg, intArg, -AList.insert_empty]
    next => cases emitted
  | silu =>
    rw [opcode] at emitted
    left
    apply @emitUnary_staged _ _ _ _ _ .silu _ rfl _ _ (fun ref => rfl) emitted
    · simp [ScheduledOp.tensorOp?, opcode]
    · intro ref
      simp [Operation.tensorOp?, makeOperation, OpBuilder.stageInputs, Operation.operand?,
        namedArg, -AList.insert_empty]

end Opcodes

/-! ### Commits -/

theorem commit_ok {ctx ctx' : CoreMlLoweringCtx} {staged : StagedEmission}
    (committed : ctx.commit staged = .ok ctx') :
    (∀ proposed ∈ staged.proposedOutputs, proposed.1 ∉ ctx.valueBindings) ∧
      ctx'.valueBindings = staged.proposedOutputs.foldl
        (fun bindings proposed => bindings.insert proposed.1 proposed.2) ctx.valueBindings ∧
      ctx'.builder = staged.milOperation.elim ctx.builder ctx.builder.operation := by
  unfold CoreMlLoweringCtx.commit at committed
  obtain ⟨⟨⟩, checked, made⟩ := bind_ok_iff.mp committed
  obtain rfl := pure_ok_iff.mp made
  refine ⟨?_, rfl, rfl⟩
  intro proposed member
  have free := forM_ok_iff.mp checked proposed member
  split at free
  next => cases free
  next unbound => exact unbound

/-- What one turn of the loop does to the context. -/
structure Lowered (ctx : CoreMlLoweringCtx) (op : ScheduledOp) (ctx' : CoreMlLoweringCtx)
    (instr : Instr TensorId TensorOp) (refs : List MilValueRef) (milOp : Operation)
    (ref : MilValueRef) : Prop extends Emits ctx op instr refs milOp ref where
  fresh : instr.dest ∉ ctx.valueBindings
  builder : ctx'.builder = ctx.builder.operation milOp
  bindings : ctx'.valueBindings = ctx.valueBindings.insert instr.dest ref

theorem Staged.lowered {ctx ctx₁ ctx' : CoreMlLoweringCtx} {op : ScheduledOp}
    {emission : StagedEmission × CoreMlLoweringCtx} {instr : Instr TensorId TensorOp}
    {refs : List MilValueRef} {milOp : Operation} {ref : MilValueRef}
    (staged : Staged ctx₁ op emission instr refs milOp ref) (same : ctx₁.builder = ctx.builder)
    (same' : ctx₁.valueBindings = ctx.valueBindings)
    (committed : emission.2.commit emission.1 = .ok ctx') :
    Lowered ctx op ctx' instr refs milOp ref := by
  obtain ⟨unbound, bindings, builder⟩ := commit_ok committed
  rw [staged.proposed, staged.bindings, same'] at unbound bindings
  rw [staged.operation, staged.builder, same] at builder
  exact {
    source := staged.source
    operands := by rw [← same', staged.operands]
    target := staged.target
    outputs := staged.outputs
    named := staged.named
    declares := staged.declares
    fresh := unbound _ List.mem_cons_self
    builder := builder
    bindings := bindings }

/-! ### Turns -/

theorem labelled_ok {α : Type} {label : String} {outcome : Outcome α} {a : α}
    (ok : labelled label outcome = .ok a) : outcome = .ok a := by
  unfold labelled at ok
  split at ok
  · cases ok
  · exact ok

theorem checkDiagnostics_ok {op : ScheduledOp} {ctx ctx' : CoreMlLoweringCtx}
    {diagnostics : List LoweringDiagnostic}
    (checked : checkDiagnostics op ctx diagnostics = .ok ctx') :
    ctx'.builder = ctx.builder ∧ ctx'.valueBindings = ctx.valueBindings := by
  refine foldlM_keeps (fun ctx' : CoreMlLoweringCtx =>
    ctx'.builder = ctx.builder ∧ ctx'.valueBindings = ctx.valueBindings) ?_ ⟨rfl, rfl⟩ checked
  intro before diagnostic after kept turn
  split at turn
  next => cases turn
  next =>
    cases turn
    exact kept

theorem lowerOp_lowered {sha256 : List UInt8 → String} {ctx ctx' : CoreMlLoweringCtx}
    {op : ScheduledOp} (turn : lowerOp sha256 ctx op = .ok ctx') :
    ∃ instr refs milOp ref, Lowered ctx op ctx' instr refs milOp ref := by
  unfold lowerOp at turn
  obtain ⟨checked, diagnosed, turn⟩ := bind_ok_iff.mp turn
  obtain ⟨emission, emitted, committed⟩ := bind_ok_iff.mp turn
  obtain ⟨builder, bindings⟩ := checkDiagnostics_ok diagnosed
  have committed := labelled_ok committed
  rcases emit_staged (labelled_ok emitted) with ⟨instr, refs, milOp, ref, staged⟩ | pooled
  · exact ⟨instr, refs, milOp, ref, staged.lowered builder bindings committed⟩
  · obtain ⟨id, ref, proposed, bound⟩ := pooled
    have unbound := (commit_ok committed).1
    rw [proposed] at unbound
    exact absurd bound (unbound _ List.mem_cons_self)

/-- The turns of a run, with the definitions and the operations they give. -/
inductive LoweredAll : CoreMlLoweringCtx → List ScheduledOp → List (Instr TensorId TensorOp) →
    List Operation → CoreMlLoweringCtx → Prop
  | nil {ctx : CoreMlLoweringCtx} : LoweredAll ctx [] [] [] ctx
  | cons {ctx next final : CoreMlLoweringCtx} {op : ScheduledOp} {ops : List ScheduledOp}
      {instr : Instr TensorId TensorOp} {instrs : List (Instr TensorId TensorOp)}
      {refs : List MilValueRef} {milOp : Operation} {milOps : List Operation} {ref : MilValueRef}
      (turn : Lowered ctx op next instr refs milOp ref)
      (later : LoweredAll next ops instrs milOps final) :
      LoweredAll ctx (op :: ops) (instr :: instrs) (milOp :: milOps) final

theorem foldlM_loweredAll {sha256 : List UInt8 → String} {ops : List ScheduledOp}
    {ctx final : CoreMlLoweringCtx} (run : ops.foldlM (lowerOp sha256) ctx = .ok final) :
    ∃ instrs milOps, LoweredAll ctx ops instrs milOps final := by
  induction ops generalizing ctx with
  | nil =>
    obtain rfl := pure_ok_iff.mp run
    exact ⟨[], [], .nil⟩
  | cons op ops ih =>
    obtain ⟨next, first, rest⟩ := foldlM_cons_ok_iff.mp run
    obtain ⟨instr, refs, milOp, ref, turn⟩ := lowerOp_lowered first
    obtain ⟨instrs, milOps, later⟩ := ih rest
    exact ⟨instr :: instrs, milOp :: milOps, .cons turn later⟩

end TribunusCompute.Lowering
