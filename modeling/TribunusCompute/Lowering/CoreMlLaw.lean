import TribunusCompute.Lowering.Registration

/-!
# The lowering keeps the meaning

## Strategy

A run of the loop is a renaming of a straight-line program (`loweredAll_renamed`): the names bound
to tensors grow by one fresh name a turn. What a renamed program computes is a fact of
`StraightLine`; what is left are the names of the inputs, where the run starts, and the outputs of
the block, where it ends.
-/
namespace TribunusCompute.Lowering

open Outcome MilSpec StraightLine

/-! ### Blocks and their values -/

def MilSpec.Program.main? (program : Program) : Option (MilSpec.Function × Block) := do
  let function ← program.functions.lookup "main"
  let block ← function.blockSpecializations.lookup function.opset
  return (function, block)

def MilSpec.Function.inputNames (function : MilSpec.Function) : List String :=
  function.inputs.map NamedValueType.name

def MilSpec.Operation.outputNames (op : Operation) : List String :=
  op.outputs.map NamedValueType.name

/-- Names are defined before they are used, and only once. -/
structure SingleAssignment (function : MilSpec.Function) (block : Block) : Prop where
  operands : ∀ (i : ℕ) (op : Operation), block.operations[i]? = some op →
    ∀ name ∈ MilBuilder.operandNames op, name ∈ function.inputNames ∨
      ∃ j < i, ∃ earlier : Operation, block.operations[j]? = some earlier ∧
        name ∈ earlier.outputNames
  distinct : (function.inputNames ++ block.operations.flatMap Operation.outputNames).Nodup

section Values

variable {V : Type}

/-- Evaluate the operations of a region in order, each defining its first output. -/
def evalOps (I : Interpretation V) (env : Env TensorId V) (ops : List ScheduledOp) :
    Option (Env TensorId V) := do
  let program ← ops.mapM ScheduledOp.instr?
  StraightLine.eval I.value env program

def evalBlock (I : Interpretation V) (env : Env String V) (block : Block) :
    Option (Env String V) := do
  let program ← block.operations.mapM Operation.instr?
  StraightLine.eval I.value env program

/-- The inputs of a function, fed with values. -/
def functionEnv (function : MilSpec.Function) (feed : String → V) : Env String V := fun name =>
  if name ∈ function.inputNames then some (feed name) else none

def regionEnv (region : ScheduledRegion) (feed : String → V) : Env TensorId V := fun id =>
  if id ∈ region.inputs then some (feed (inputName region id)) else none

end Values

/-- On any values of the inputs the block ends with the values of the region's outputs. -/
def SameOutputs (region : ScheduledRegion) (ops : List ScheduledOp)
    (function : MilSpec.Function) (block : Block) : Prop :=
  ∀ {V : Type} (I : Interpretation V) (feed : String → V),
    ∃ tensors values, evalOps I (regionEnv region feed) ops = some tensors ∧
      evalBlock I (functionEnv function feed) block = some values ∧
        block.outputs.map values = region.outputs.map tensors ∧
          ∀ id ∈ region.outputs, (tensors id).isSome

/-! ### The run as a renaming -/

theorem instr?_arity {op : ScheduledOp} {instr : Instr TensorId TensorOp}
    (source : op.instr? = some instr) : instr.operands.length = instr.operation.arity := by
  obtain ⟨-, -, enough, operands⟩ := instr?_cases source
  rw [operands]
  exact List.length_take_of_le enough

theorem mapM_names {ctx : CoreMlLoweringCtx} {ids : List TensorId} {refs : List MilValueRef}
    (bound : ids.mapM ctx.valueBindings.lookup = some refs) :
    ids.mapM (names ctx) = some (refs.map MilValueRef.ssaName) := by
  induction ids generalizing refs with
  | nil =>
    obtain rfl : refs = [] := by simpa using bound.symm
    rfl
  | cons id ids ih =>
    rw [List.mapM_cons] at bound
    simp only [Option.bind_eq_bind, Option.bind_eq_some_iff, Option.pure_def,
      Option.some.injEq] at bound
    obtain ⟨ref, first, refs, later, rfl⟩ := bound
    simp [List.mapM_cons, ih later, names, first]

theorem Lowered.names_eq {ctx next : CoreMlLoweringCtx} {op : ScheduledOp}
    {instr : Instr TensorId TensorOp} {refs : List MilValueRef} {milOp : Operation}
    {ref : MilValueRef} (turn : Lowered ctx op next instr refs milOp ref) :
    names next = Function.update (names ctx) instr.dest (some ref.ssaName) := by
  funext id
  by_cases here : id = instr.dest
  · subst id
    rw [Function.update_self, names, turn.bindings, AList.lookup_insert]
    rfl
  · rw [Function.update_of_ne here, names, names, turn.bindings, AList.lookup_insert_ne here]

theorem loweredAll_renamed {ctx final : CoreMlLoweringCtx} {ops : List ScheduledOp}
    {instrs : List (Instr TensorId TensorOp)} {milOps : List Operation}
    (run : LoweredAll ctx ops instrs milOps final) {named : List String}
    (distinct : (ops.map ScheduledOp.opId).Nodup) (fresh : ∀ op ∈ ops, ssaName op ∉ named) :
    ∃ instrs', milOps.mapM Operation.instr? = some instrs' ∧
      milOps.flatMap Operation.outputNames = instrs'.map Instr.dest ∧
        Renamed (names ctx) named instrs instrs' (names final) := by
  induction run generalizing named with
  | nil => exact ⟨[], rfl, rfl, .nil⟩
  | @cons ctx next _ op ops instr _ refs milOp _ ref turn later ih =>
    rw [List.map_cons, List.nodup_cons] at distinct
    have fresh' : ∀ other ∈ ops, ssaName other ∉ ref.ssaName :: named := by
      intro other member
      rw [turn.named, List.mem_cons, not_or]
      refine ⟨?_, fresh other (List.mem_cons_of_mem _ member)⟩
      intro same
      exact distinct.1 (List.mem_map.mpr ⟨other, member, ssaName_inj same⟩)
    obtain ⟨instrs', targets, dests, renamed⟩ := ih distinct.2 fresh'
    refine ⟨⟨ref.ssaName, instr.operation, refs.map MilValueRef.ssaName⟩ :: instrs', ?_, ?_, ?_⟩
    · simp [List.mapM_cons, turn.target, targets]
    · rw [List.flatMap_cons, List.map_cons, dests, Operation.outputNames, turn.outputs]
      rfl
    · apply Renamed.cons
      · exact mapM_names turn.operands
      · rfl
      · rw [turn.named]
        exact fresh op List.mem_cons_self
      · rw [← turn.names_eq]
        exact renamed

theorem loweredAll_sources {ctx final : CoreMlLoweringCtx} {ops : List ScheduledOp}
    {instrs : List (Instr TensorId TensorOp)} {milOps : List Operation}
    (run : LoweredAll ctx ops instrs milOps final) :
    ops.mapM ScheduledOp.instr? = some instrs := by
  induction run with
  | nil => rfl
  | cons turn _ ih => simp [List.mapM_cons, turn.source, ih]

theorem loweredAll_builder {ctx final : CoreMlLoweringCtx} {ops : List ScheduledOp}
    {instrs : List (Instr TensorId TensorOp)} {milOps : List Operation}
    (run : LoweredAll ctx ops instrs milOps final) :
    final.builder = { ctx.builder with ops := ctx.builder.ops ++ milOps } := by
  induction run with
  | nil => simp
  | cons turn _ ih =>
    rw [ih, turn.builder]
    simp [MilBuilder.operation]

theorem loweredAll_total {V : Type} (I : Interpretation V) {ctx final : CoreMlLoweringCtx}
    {ops : List ScheduledOp} {instrs : List (Instr TensorId TensorOp)} {milOps : List Operation}
    (run : LoweredAll ctx ops instrs milOps final) : Total I.value instrs := by
  induction run with
  | nil =>
    intro instr member
    cases member
  | cons turn _ ih =>
    intro instr member values lengths
    rcases List.mem_cons.mp member with rfl | member
    · exact I.exists_value (lengths.trans (instr?_arity turn.source))
    · exact ih instr member values lengths

/-! ### The ends of a run -/

theorem finalize_ok {ctx : CoreMlLoweringCtx} {region : ScheduledRegion}
    {finalized : MilBuilder × MilLoweringReceipt} (ok : ctx.finalize region = .ok finalized) :
    ∃ outputs, region.outputs.mapM (names ctx) = some outputs ∧
      finalized.1 = { ctx.builder with blockOutputs := ctx.builder.blockOutputs ++ outputs } := by
  unfold CoreMlLoweringCtx.finalize at ok
  obtain ⟨builder, collected, made⟩ := bind_ok_iff.mp ok
  obtain rfl := pure_ok_iff.mp made
  clear ok made
  generalize ctx.builder = start at collected ⊢
  generalize region.outputs = ids at collected ⊢
  induction ids generalizing start with
  | nil =>
    obtain rfl := pure_ok_iff.mp collected
    exact ⟨[], rfl, by simp⟩
  | cons id ids ih =>
    obtain ⟨next, first, later⟩ := foldlM_cons_ok_iff.mp collected
    split at first
    next ref bound =>
      cases first
      obtain ⟨outputs, rest, same⟩ := ih _ later
      refine ⟨ref.ssaName :: outputs, ?_, ?_⟩
      · simp [List.mapM_cons, rest, names, bound]
      · rw [same]
        simp [MilBuilder.output]
    next => cases first

/-- Every name an operation refers to is an input or the output of an operation before it. -/
theorem verified_operands {ops : List Operation} {defined final : List String}
    (verified : ops.foldlM MilBuilder.verifyOperation defined = .ok final) {i : ℕ}
    {op : Operation} (there : ops[i]? = some op) {name : String}
    (member : name ∈ MilBuilder.operandNames op) :
    name ∈ defined ∨ ∃ j < i, ∃ earlier : Operation, ops[j]? = some earlier ∧
      name ∈ earlier.outputNames := by
  induction ops generalizing defined i with
  | nil => cases there
  | cons first ops ih =>
    obtain ⟨next, checked, later⟩ := foldlM_cons_ok_iff.mp verified
    unfold MilBuilder.verifyOperation at checked
    obtain ⟨⟨⟩, -, checked⟩ := bind_ok_iff.mp checked
    obtain ⟨⟨⟩, known, made⟩ := bind_ok_iff.mp checked
    obtain rfl := pure_ok_iff.mp made
    cases i with
    | zero =>
      obtain rfl : first = op := by simpa using there
      exact .inl (require_ok_iff.mp (forM_ok_iff.mp known name member))
    | succ i =>
      rw [List.getElem?_cons_succ] at there
      rcases ih later there with before | ⟨j, earlier, op', found, output⟩
      · rcases List.mem_append.mp before with before | output
        · exact .inl before
        · exact .inr ⟨0, by omega, first, rfl, output⟩
      · exact .inr ⟨j + 1, by omega, op', by simpa using found, output⟩

theorem build_ok {builder : MilBuilder} {program : Program}
    (built : builder.build = .ok program) (name : builder.functionName = "main") :
    (∃ defined, builder.ops.foldlM MilBuilder.verifyOperation
      (builder.inputs.map NamedValueType.name) = .ok defined) ∧
      ∃ function block, program.main? = some (function, block) ∧
        function.inputs = builder.inputs ∧ block.operations = builder.ops ∧
          block.outputs = builder.blockOutputs := by
  unfold MilBuilder.build at built
  obtain ⟨defined, verified, built⟩ := bind_ok_iff.mp built
  obtain ⟨⟨⟩, -, made⟩ := bind_ok_iff.mp built
  obtain rfl := pure_ok_iff.mp made
  let block : Block := ⟨builder.blockOutputs, builder.ops⟩
  refine ⟨⟨defined, verified⟩, ⟨builder.inputs, builder.opset,
    (∅ : AList fun _ : String => Block).insert builder.opset block⟩, block, ?_, rfl, rfl, rfl⟩
  simp [Program.main?, name, block, -AList.insert_empty]

/-! ### The lowering -/

structure IsLowered (lowering : CoreMlLowering) (region : ScheduledRegion)
    (ops : List ScheduledOp) (program : Program) (instrs : List (Instr TensorId TensorOp))
    (final : CoreMlLoweringCtx) (function : MilSpec.Function) (block : Block) : Prop where
  turns : LoweredAll (registered lowering region ops) ops instrs block.operations final
  main : program.main? = some (function, block)
  inputs : function.inputs = (registered lowering region ops).builder.inputs
  outputs : region.outputs.mapM (names final) = some block.outputs
  verified : ∃ defined,
    block.operations.foldlM MilBuilder.verifyOperation function.inputNames = .ok defined

theorem lowerToMil_run {sha256 : List UInt8 → String} {lowering : CoreMlLowering}
    {region : ScheduledRegion} {ops : List ScheduledOp} {artifact : CoreMlMilArtifact}
    {receipt : MilLoweringReceipt}
    (lowered : lowering.lowerToMil sha256 region ops = .ok (artifact, receipt)) :
    ∃ instrs final function block,
      ops.foldlM (lowerOp sha256) (registered lowering region ops) = .ok final ∧
        artifact.valueBindings = final.valueBindings ∧
          IsLowered lowering region ops artifact.program instrs final function block := by
  unfold CoreMlLowering.lowerToMil at lowered
  obtain ⟨ctx, run, lowered⟩ := bind_ok_iff.mp lowered
  obtain ⟨finalized, ended, lowered⟩ := bind_ok_iff.mp lowered
  obtain ⟨program, built, made⟩ := bind_ok_iff.mp lowered
  obtain ⟨rfl, rfl⟩ := Prod.mk.injEq _ _ _ _ ▸ pure_ok_iff.mp made
  have starts := registered_starts lowering region ops
  obtain ⟨instrs, milOps, turns⟩ := foldlM_loweredAll run
  obtain ⟨outputs, bound, finalBuilder⟩ := finalize_ok (labelled_ok ended)
  have builder := loweredAll_builder turns
  rw [starts.ops, List.nil_append] at builder
  rw [builder, starts.outputs, List.nil_append] at finalBuilder
  have main : finalized.1.functionName = "main" := by rw [finalBuilder, starts.function]
  obtain ⟨verified, function, block, found, inputs, operations, blockOutputs⟩ :=
    build_ok (labelled_ok built) main
  rw [finalBuilder] at inputs operations blockOutputs verified
  exact ⟨instrs, ctx, function, block, run, rfl, {
    turns := operations ▸ turns
    main := found
    inputs := inputs
    outputs := blockOutputs ▸ bound
    verified := by
      rw [operations, MilSpec.Function.inputNames, inputs]
      exact verified }⟩

theorem lowerToMil_ok {sha256 : List UInt8 → String} {lowering : CoreMlLowering}
    {region : ScheduledRegion} {ops : List ScheduledOp} {artifact : CoreMlMilArtifact}
    {receipt : MilLoweringReceipt}
    (lowered : lowering.lowerToMil sha256 region ops = .ok (artifact, receipt)) :
    ∃ instrs final function block,
      IsLowered lowering region ops artifact.program instrs final function block := by
  obtain ⟨instrs, final, function, block, -, -, result⟩ := lowerToMil_run lowered
  exact ⟨instrs, final, function, block, result⟩

/-- A region's program, where the lowering succeeds, is in single assignment form, and computes
the outputs of the region. -/
theorem lowerToMil_refines (sha256 : List UInt8 → String) (lowering : CoreMlLowering)
    (region : ScheduledRegion) (ops : List ScheduledOp) (artifact : CoreMlMilArtifact)
    (receipt : MilLoweringReceipt)
    (lowered : lowering.lowerToMil sha256 region ops = .ok (artifact, receipt))
    (distinct : (ops.map ScheduledOp.opId).Nodup) :
    ∃ function block, artifact.program.main? = some (function, block) ∧
      SingleAssignment function block ∧ SameOutputs region ops function block := by
  obtain ⟨instrs, final, function, block, result⟩ := lowerToMil_ok lowered
  have starts := registered_starts lowering region ops
  have inputNames : ∀ name, name ∈ function.inputNames ↔
      ∃ id ∈ region.inputs, inputName region id = name := by
    intro name
    rw [MilSpec.Function.inputNames, result.inputs]
    exact starts.inputs name
  -- Input names and the names of operations differ in what they begin with.
  have fresh : ∀ op ∈ ops, ssaName op ∉ function.inputNames := by
    intro op _ member
    obtain ⟨id, -, same⟩ := (inputNames _).mp member
    exact inputName_ne_ssaName region id op same
  have inScope : ∀ id name, names (registered lowering region ops) id = some name →
      name ∈ function.inputNames := by
    intro id name named
    rw [names, starts.bound] at named
    split at named
    next member =>
      obtain rfl : inputName region id = name := Option.some.inj named
      exact (inputNames _).mpr ⟨id, member, rfl⟩
    next => cases named
  obtain ⟨instrs', targets, dests, renamed⟩ := loweredAll_renamed result.turns distinct fresh
  obtain ⟨defined, verified⟩ := result.verified
  refine ⟨function, block, result.main, ?_, ?_⟩
  · exact {
      operands := fun i op there name member => verified_operands verified there member
      distinct := by
        rw [dests]
        apply (renamed.scoped inScope).nodup
        rw [MilSpec.Function.inputNames, result.inputs]
        exact starts.distinct }
  · intro V I feed
    -- At the start both environments hold the inputs, each under its own name.
    have agree : Agree (names (registered lowering region ops)) (regionEnv region feed)
        (functionEnv function feed) := by
      intro id name named
      have known := inScope id name named
      rw [names, starts.bound] at named
      split at named
      next member =>
        obtain rfl : inputName region id = name := Option.some.inj named
        exact ⟨feed (inputName region id), if_pos member, if_pos known⟩
      next => cases named
    obtain ⟨tensors, values, left, right, agreed⟩ :=
      renamed.eval inScope (loweredAll_total I result.turns) agree
    refine ⟨tensors, values, ?_, ?_, ?_, ?_⟩
    · simp [evalOps, loweredAll_sources result.turns, left]
    · simp [evalBlock, targets, right]
    · exact (agreed.map_eq result.outputs).symm
    · intro id member
      obtain ⟨name, named⟩ := exists_of_mapM_some result.outputs member
      obtain ⟨value, there, -⟩ := agreed id name named
      rw [there]
      rfl

/-- A region of one input, given twice, and one output. -/
def projectionRegion : ScheduledRegion where
  regionId := ⟨0⟩
  name := "projection"
  operations := []
  selectedBackend := ⟨2⟩
  physicalTensors := []
  inputs := [⟨1⟩, ⟨1⟩]
  outputs := [⟨4⟩]
  dependencies := []
  stateEffects := []
  tempMemoryBytes := 0
  isFence := false

/-- A product with a constant, activated. -/
def projectionOps : List ScheduledOp :=
  [⟨⟨10⟩, .constant, [], [⟨2⟩], .constant [0, 0, 0, 0] [4, 1]⟩,
    ⟨⟨11⟩, .matmul, [⟨1⟩, ⟨2⟩], [⟨3⟩], .matmul false false⟩,
    ⟨⟨12⟩, .silu, [⟨3⟩], [⟨4⟩], .silu⟩]

theorem projection_refines :
    ∃ artifact receipt, (CoreMlLowering.new .macOS13).lowerToMil (fun _ => "") projectionRegion
        projectionOps = .ok (artifact, receipt) ∧
      ∃ function block, artifact.program.main? = some (function, block) ∧
        SingleAssignment function block ∧
          SameOutputs projectionRegion projectionOps function block := by
  have made : ((CoreMlLowering.new .macOS13).lowerToMil (fun _ => "") projectionRegion
      projectionOps).toOption.isSome = true := by
    decide +kernel
  obtain ⟨⟨artifact, receipt⟩, lowered⟩ := exists_ok_of_isSome made
  exact ⟨artifact, receipt, lowered, lowerToMil_refines _ _ projectionRegion projectionOps
    artifact receipt lowered (by decide)⟩

end TribunusCompute.Lowering
