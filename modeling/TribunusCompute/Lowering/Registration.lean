import TribunusCompute.Library.Text
import TribunusCompute.Lowering.Turns

/-!
# Names of the values

Inputs of the function are numbered by the first occurrence of their tensors among the inputs of
the region; the value of an operation is named after the operation. No two of them share a name.
-/
namespace TribunusCompute.Lowering

open MilSpec StraightLine

/-- The name of the function input for a tensor: the index of its first occurrence. -/
def inputName (region : ScheduledRegion) (id : TensorId) : String :=
  s!"input_{region.inputs.idxOf id}"

/-- The value that an input of the region is bound to. -/
def inputRef (region : ScheduledRegion) (id : TensorId) : MilValueRef :=
  .new (inputName region id)
    (valueTypeTensor (tensorType .float32
      ((placedShape region id [1, 4]).map fun s => s.toUInt64.toInt64))) "input"

def names (ctx : CoreMlLoweringCtx) : Env TensorId String := fun id =>
  (ctx.valueBindings.lookup id).map MilValueRef.ssaName

/-! ### No two alike -/

theorem inputName_inj {region : ScheduledRegion} {id id' : TensorId} (member : id ∈ region.inputs)
    (same : inputName region id = inputName region id') : id = id' := by
  have texts := congrArg String.toList same
  simp only [inputName, String.toList_append, List.append_cancel_left_eq,
    Decimal.toList_toString] at texts
  exact (List.idxOf_inj member).mp (Decimal.toDigits_injective texts)

theorem ssaName_inj {op op' : ScheduledOp} (same : ssaName op = ssaName op') :
    op.opId = op'.opId := by
  have texts := congrArg String.toList same
  simp only [ssaName, String.toList_append, List.append_assoc,
    List.append_cancel_left_eq] at texts
  have stops : ∀ text : List Char, Decimal.Stops ("_".toList ++ text) := fun text c head => by
    obtain rfl : '_' = c := by simpa using head
    decide
  obtain ⟨numbers, -⟩ := Decimal.toString_append_inj (stops _) (stops _) texts
  cases op
  cases op'
  exact congrArg OperationId.mk numbers

theorem inputName_ne_ssaName (region : ScheduledRegion) (id : TensorId) (op : ScheduledOp) :
    inputName region id ≠ ssaName op := by
  intro same
  have text : ∀ s : String, toString s = s := fun _ => rfl
  have heads := congrArg (fun text => text.toList.head?) same
  simp [inputName, ssaName, text] at heads

/-! ### Registration -/

/-- The context once the inputs `done` are registered. -/
structure Registered (region : ScheduledRegion) (done : List TensorId)
    (ctx : CoreMlLoweringCtx) : Prop where
  known : ∀ id, id ∈ ctx.tensorMeta ↔ id ∈ done
  bound : ∀ id, ctx.valueBindings.lookup id =
    if id ∈ done then some (inputRef region id) else none
  inputs : ∀ name, name ∈ ctx.builder.inputs.map NamedValueType.name ↔
    ∃ id ∈ done, inputName region id = name
  distinct : (ctx.builder.inputs.map NamedValueType.name).Nodup
  ops : ctx.builder.ops = []
  outputs : ctx.builder.blockOutputs = []
  function : ctx.builder.functionName = "main"

theorem registered_new (region : ScheduledRegion) (lowering : CoreMlLowering) (identity : String) :
    Registered region [] (.new "main" identity lowering.target lowering.precision) where
  known := fun id => by simp [CoreMlLoweringCtx.new]
  bound := fun id => by simp [CoreMlLoweringCtx.new]
  inputs := fun name => by
    simp [CoreMlLoweringCtx.new, MilBuilder.new, MilBuilder.setOpset]
  distinct := List.nodup_nil
  ops := rfl
  outputs := rfl
  function := rfl

theorem Registered.again {region : ScheduledRegion} {done : List TensorId}
    {ctx : CoreMlLoweringCtx} {id : TensorId} (state : Registered region done ctx)
    (member : id ∈ done) : Registered region (done ++ [id]) ctx := by
  have same : ∀ other, other ∈ done ++ [id] ↔ other ∈ done := by
    intro other
    simp only [List.mem_append, List.mem_singleton, or_iff_left_iff_imp]
    rintro rfl
    exact member
  exact {
    known := fun other => (state.known other).trans (same other).symm
    bound := fun other => by
      rw [state.bound other]
      simp only [same]
    inputs := fun name => by
      rw [state.inputs name]
      simp only [same]
    distinct := state.distinct
    ops := state.ops
    outputs := state.outputs
    function := state.function }

/-- A new input is bound to an input of the function that carries its index. -/
theorem Registered.next {region : ScheduledRegion} {done rest : List TensorId}
    {ctx : CoreMlLoweringCtx} {id : TensorId} (state : Registered region done ctx)
    (split : region.inputs = done ++ id :: rest) (fresh : id ∉ done) :
    Registered region (done ++ [id]) (ctx.registerInput id s!"input_{done.length}"
      (placedShape region id [1, 4]) .float32) := by
  have index : region.inputs.idxOf id = done.length := by
    rw [split, List.idxOf_append_of_notMem fresh, List.idxOf_cons_self, Nat.add_zero]
  have named : s!"input_{done.length}" = inputName region id := by
    rw [inputName, index]
  rw [named]
  -- the inputs of the function are those of the tensors bound so far
  have listed : ∀ name, name ∈ (ctx.builder.inputs.map NamedValueType.name) ++
      [inputName region id] ↔ ∃ other ∈ done ++ [id], inputName region other = name := by
    intro name
    rw [List.mem_append, state.inputs name, List.mem_singleton]
    constructor
    · rintro (⟨other, member, same⟩ | rfl)
      · exact ⟨other, List.mem_append_left _ member, same⟩
      · exact ⟨id, by simp, rfl⟩
    · rintro ⟨other, member, same⟩
      rcases List.mem_append.mp member with member | here
      · exact .inl ⟨other, member, same⟩
      · obtain rfl := List.mem_singleton.mp here
        exact .inr same.symm
  exact {
    known := fun other => by
      simp only [CoreMlLoweringCtx.registerInput, AList.mem_insert, state.known,
        List.mem_append, List.mem_singleton, or_comm]
    bound := fun other => by
      by_cases here : other = id
      · subst other
        simp [CoreMlLoweringCtx.registerInput, inputRef]
      · simp [CoreMlLoweringCtx.registerInput, AList.lookup_insert_ne here, state.bound, here]
    inputs := fun name => by
      rw [← listed name]
      simp [CoreMlLoweringCtx.registerInput, MilBuilder.input]
    distinct := by
      have apart : (ctx.builder.inputs.map NamedValueType.name ++
          [inputName region id]).Nodup := by
        rw [← List.concat_eq_append, List.nodup_concat]
        -- another tensor with this name would have its index
        refine ⟨?_, state.distinct⟩
        intro member
        obtain ⟨other, there, same⟩ := (state.inputs _).mp member
        have listed : other ∈ region.inputs := by
          rw [split]
          exact List.mem_append_left _ there
        exact fresh (inputName_inj listed same ▸ there)
      simpa [CoreMlLoweringCtx.registerInput, MilBuilder.input] using apart
    ops := state.ops
    outputs := state.outputs
    function := state.function }

theorem registerInputs_from {region : ScheduledRegion} {rest : List TensorId} :
    ∀ {done : List TensorId} {ctx : CoreMlLoweringCtx}, Registered region done ctx →
      region.inputs = done ++ rest →
      Registered region region.inputs ((rest.zipIdx done.length).foldl (fun ctx entry =>
        if entry.1 ∈ ctx.tensorMeta then ctx
        else ctx.registerInput entry.1 s!"input_{entry.2}" (placedShape region entry.1 [1, 4])
          .float32) ctx) := by
  induction rest with
  | nil =>
    intro done ctx state split
    rw [List.append_nil] at split
    rw [split]
    exact state
  | cons id rest ih =>
    intro done ctx state split
    have split' : region.inputs = (done ++ [id]) ++ rest := by
      rw [split, List.append_assoc, List.singleton_append]
    have length : done.length + 1 = (done ++ [id]).length := by simp
    rw [List.zipIdx_cons, List.foldl_cons, length]
    apply ih _ split'
    by_cases member : id ∈ done
    · rw [if_pos ((state.known id).mpr member)]
      exact state.again member
    · rw [if_neg (mt (state.known id).mp member)]
      exact state.next split member

/-- Registering tensors for their shapes alone binds no names. -/
structure SameNames (ctx ctx' : CoreMlLoweringCtx) : Prop where
  builder : ctx'.builder = ctx.builder
  bindings : ctx'.valueBindings = ctx.valueBindings

theorem SameNames.foldl {α : Type} {turn : CoreMlLoweringCtx → α → CoreMlLoweringCtx}
    (one : ∀ ctx a, SameNames ctx (turn ctx a)) (ctx : CoreMlLoweringCtx) (items : List α) :
    SameNames ctx (items.foldl turn ctx) := by
  induction items generalizing ctx with
  | nil => exact ⟨rfl, rfl⟩
  | cons a items ih =>
    have first := one ctx a
    have later := ih (turn ctx a)
    exact ⟨later.builder.trans first.builder, later.bindings.trans first.bindings⟩

theorem registerTensor_sameNames (region : ScheduledRegion) (fallback : List UInt32)
    (isConstant : Bool) (ctx : CoreMlLoweringCtx) (id : TensorId) :
    SameNames ctx (registerTensor region fallback isConstant ctx id) := by
  unfold registerTensor
  split
  · exact ⟨rfl, rfl⟩
  · exact ⟨rfl, rfl⟩

theorem registerIntermediates_sameNames (region : ScheduledRegion) (ops : List ScheduledOp)
    (ctx : CoreMlLoweringCtx) : SameNames ctx (registerIntermediates region ops ctx) := by
  apply SameNames.foldl
  intro ctx op
  have known := SameNames.foldl (registerTensor_sameNames region [1, 4] false) ctx op.inputs
  have produced := SameNames.foldl
    (registerTensor_sameNames region [4, 1] (op.opcode = .constant))
    (op.inputs.foldl (registerTensor region [1, 4] false) ctx) op.outputs
  exact ⟨produced.builder.trans known.builder, produced.bindings.trans known.bindings⟩

theorem registerOutputs_sameNames (region : ScheduledRegion) (ctx : CoreMlLoweringCtx) :
    SameNames ctx (registerOutputs region ctx) := by
  apply SameNames.foldl
  intro ctx id
  exact ⟨rfl, rfl⟩

structure Starts (region : ScheduledRegion) (ctx : CoreMlLoweringCtx) : Prop where
  bound : ∀ id, ctx.valueBindings.lookup id =
    if id ∈ region.inputs then some (inputRef region id) else none
  inputs : ∀ name, name ∈ ctx.builder.inputs.map NamedValueType.name ↔
    ∃ id ∈ region.inputs, inputName region id = name
  distinct : (ctx.builder.inputs.map NamedValueType.name).Nodup
  ops : ctx.builder.ops = []
  outputs : ctx.builder.blockOutputs = []
  function : ctx.builder.functionName = "main"

theorem registered_starts (lowering : CoreMlLowering) (region : ScheduledRegion)
    (ops : List ScheduledOp) : Starts region (registered lowering region ops) := by
  have inputs := registerInputs_from
    (registered_new region lowering s!"region_{region.regionId.id}") (List.nil_append _).symm
  change Registered region region.inputs (registerInputs region _) at inputs
  unfold registered
  generalize registerInputs region _ = ctx at inputs ⊢
  have known := registerIntermediates_sameNames region ops ctx
  have produced := registerOutputs_sameNames region (registerIntermediates region ops ctx)
  have builder := produced.builder.trans known.builder
  have bindings := produced.bindings.trans known.bindings
  exact {
    bound := by
      rw [bindings]
      exact inputs.bound
    inputs := by
      rw [builder]
      exact inputs.inputs
    distinct := by
      rw [builder]
      exact inputs.distinct
    ops := by rw [builder, inputs.ops]
    outputs := by rw [builder, inputs.outputs]
    function := by rw [builder, inputs.function] }

end TribunusCompute.Lowering
