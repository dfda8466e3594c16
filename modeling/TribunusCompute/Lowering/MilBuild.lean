import TribunusCompute.Lowering.CoreMlLaw

/-!
# What the MIL builder accepts

A program is well formed when operands are defined before they are used, operations have a name,
names are defined once, and there is an output. `build` checks the first of these, that there is
a name attribute, and that the outputs are defined; the rest of its documented checks are not made.
-/
namespace TribunusCompute.Lowering

open Outcome MilSpec

/-! ### Sequences of calls -/

inductive BuilderCall
  | input (name : String) (dtype : DataType) (shape : List Int64)
  | operation (op : Operation) (outputType : Option (String × ValueType))
  | output (name : String)

namespace BuilderCall

def apply (builder : MilBuilder) : BuilderCall → MilBuilder
  | .input name dtype shape => builder.input name dtype shape
  | .operation op outputType =>
    match outputType with
    | some (name, type) =>
      { builder with valueTypes := builder.valueTypes.insert name type }.operation op
    | none => builder.operation op
  | .output name => builder.output name

def applyAll (functionName : String) (calls : List BuilderCall) : MilBuilder :=
  calls.foldl apply (.new functionName)

def inputNames (calls : List BuilderCall) : List String :=
  calls.filterMap fun
    | .input name _ _ => some name
    | .operation _ _ => none
    | .output _ => none

def operations (calls : List BuilderCall) : List Operation :=
  calls.filterMap fun
    | .input _ _ _ => none
    | .operation op _ => some op
    | .output _ => none

def blockOutputs (calls : List BuilderCall) : List String :=
  calls.filterMap fun
    | .input _ _ _ => none
    | .operation _ _ => none
    | .output name => some name

/-- All names that are defined: the inputs, then what the operations put out. -/
def definedNames (calls : List BuilderCall) : List String :=
  inputNames calls ++ (operations calls).flatMap Operation.outputNames

end BuilderCall

open BuilderCall

/-- The name attribute is a string that is not empty. -/
def HasName (op : Operation) : Prop :=
  ∃ name, name ≠ "" ∧ (op.attributes.lookup "name").map Value.immediate = some (.strings [name])

def OperandsDefined (calls : List BuilderCall) : Prop :=
  ∀ (i : ℕ) (op : Operation), (operations calls)[i]? = some op →
    ∀ name ∈ MilBuilder.operandNames op, name ∈ inputNames calls ∨
      ∃ j < i, ∃ earlier : Operation, (operations calls)[j]? = some earlier ∧
        name ∈ earlier.outputNames

/-- The documented well-formedness of what the calls describe. -/
structure WellFormed (calls : List BuilderCall) : Prop where
  operands : OperandsDefined calls
  named : ∀ op ∈ operations calls, HasName op
  distinct : (definedNames calls).Nodup
  some_output : blockOutputs calls ≠ []
  outputs : ∀ name ∈ blockOutputs calls, name ∈ definedNames calls

/-- The part of it that `build` checks: a name attribute of any value will do. -/
structure Checked (calls : List BuilderCall) : Prop where
  operands : OperandsDefined calls
  attributed : ∀ op ∈ operations calls, "name" ∈ op.attributes
  outputs : ∀ name ∈ blockOutputs calls, name ∈ definedNames calls

/-- The part of it that `build` does not look at. -/
structure Unlooked (calls : List BuilderCall) : Prop where
  named : ∀ op ∈ operations calls, HasName op
  distinct : (definedNames calls).Nodup
  some_output : blockOutputs calls ≠ []

/-! ### The builder after the calls -/

structure Collected (calls : List BuilderCall) (start builder : MilBuilder) : Prop where
  inputs : builder.inputs.map NamedValueType.name =
    start.inputs.map NamedValueType.name ++ inputNames calls
  ops : builder.ops = start.ops ++ operations calls
  blockOutputs : builder.blockOutputs = start.blockOutputs ++ blockOutputs calls

theorem collected_foldl (calls : List BuilderCall) (start : MilBuilder) :
    Collected calls start (calls.foldl apply start) := by
  induction calls generalizing start with
  | nil => constructor <;> simp [inputNames, operations, BuilderCall.blockOutputs]
  | cons call calls ih =>
    have later := ih (apply start call)
    rw [List.foldl_cons]
    cases call with
    | input name dtype shape =>
      constructor
      · simpa [apply, MilBuilder.input, inputNames] using later.inputs
      · simpa [apply, MilBuilder.input, operations] using later.ops
      · simpa [apply, MilBuilder.input, BuilderCall.blockOutputs] using later.blockOutputs
    | operation op outputType =>
      -- the type of the output goes into the table of types, which `build` does not read
      have same : (apply start (.operation op outputType)).inputs = start.inputs ∧
          (apply start (.operation op outputType)).ops = start.ops ++ [op] ∧
          (apply start (.operation op outputType)).blockOutputs = start.blockOutputs := by
        rcases outputType with _ | ⟨name, type⟩ <;> exact ⟨rfl, rfl, rfl⟩
      constructor
      · rw [later.inputs, same.1]
        rfl
      · rw [later.ops, same.2.1, List.append_assoc]
        rfl
      · rw [later.blockOutputs, same.2.2]
        rfl
    | output name =>
      constructor
      · simpa [apply, MilBuilder.output, inputNames] using later.inputs
      · simpa [apply, MilBuilder.output, operations] using later.ops
      · simpa [apply, MilBuilder.output, BuilderCall.blockOutputs] using later.blockOutputs

/-! ### The check -/

theorem verifyOperation_ok_iff {defined next : List String} {op : Operation} :
    MilBuilder.verifyOperation defined op = .ok next ↔
      "name" ∈ op.attributes ∧ (∀ name ∈ MilBuilder.operandNames op, name ∈ defined) ∧
        defined ++ op.outputNames = next := by
  unfold MilBuilder.verifyOperation
  simp only [bind_ok_iff, require_ok_iff, pure_ok_iff]
  constructor
  · rintro ⟨⟨⟩, attributed, ⟨⟩, known, made⟩
    refine ⟨attributed, ?_, made⟩
    intro name member
    exact require_ok_iff.mp (forM_ok_iff.mp known name member)
  · rintro ⟨attributed, known, made⟩
    refine ⟨(), attributed, (), forM_ok_iff.mpr ?_, made⟩
    intro name member
    exact require_ok_iff.mpr (known name member)

/-- The loop succeeds exactly when each operation has a name and knows its operands. -/
theorem verified_iff {ops : List Operation} {defined final : List String} :
    ops.foldlM MilBuilder.verifyOperation defined = .ok final ↔
      (∀ op ∈ ops, "name" ∈ op.attributes) ∧
      (∀ (i : ℕ) (op : Operation), ops[i]? = some op →
        ∀ name ∈ MilBuilder.operandNames op, name ∈ defined ∨
          ∃ j < i, ∃ earlier : Operation, ops[j]? = some earlier ∧
            name ∈ earlier.outputNames) ∧
      defined ++ ops.flatMap Operation.outputNames = final := by
  induction ops generalizing defined with
  | nil => simp
  | cons first ops ih =>
    constructor
    · intro verified
      obtain ⟨next, checked, later⟩ := foldlM_cons_ok_iff.mp verified
      obtain ⟨attributed, -, rfl⟩ := verifyOperation_ok_iff.mp checked
      obtain ⟨attributes, -, made⟩ := ih.mp later
      refine ⟨List.forall_mem_cons.mpr ⟨attributed, attributes⟩, ?_, ?_⟩
      · intro i op there name member
        exact verified_operands verified there member
      · rw [List.flatMap_cons, ← List.append_assoc, made]
    · rintro ⟨attributes, known, made⟩
      rw [List.forall_mem_cons] at attributes
      -- nothing stands before the first operation
      have firsts : ∀ name ∈ MilBuilder.operandNames first, name ∈ defined := by
        intro name member
        rcases known 0 first rfl name member with before | ⟨j, earlier, -⟩
        · exact before
        · exact absurd earlier (Nat.not_lt_zero j)
      refine foldlM_cons_ok_iff.mpr
        ⟨_, verifyOperation_ok_iff.mpr ⟨attributes.1, firsts, rfl⟩, ?_⟩
      refine ih.mpr ⟨attributes.2, ?_, ?_⟩
      · -- what the first operation puts out is defined for all that follow
        intro i op there name member
        have located := known (i + 1) op (by simpa using there) name member
        rcases located with before | ⟨j, earlier, other, found, output⟩
        · exact .inl (List.mem_append_left _ before)
        -- the earlier operation is the first one, or one of those that follow it
        · cases j with
          | zero =>
            obtain rfl : first = other := by simpa using found
            exact .inl (List.mem_append_right _ output)
          | succ j => exact .inr ⟨j, by omega, other, by simpa using found, output⟩
      · rw [List.flatMap_cons, ← List.append_assoc] at made
        exact made

theorem exists_build_ok_iff {builder : MilBuilder} :
    (∃ program, builder.build = .ok program) ↔
      ∃ defined, builder.ops.foldlM MilBuilder.verifyOperation
          (builder.inputs.map NamedValueType.name) = .ok defined ∧
        ∀ name ∈ builder.blockOutputs, name ∈ defined := by
  unfold MilBuilder.build
  simp only [bind_ok_iff, pure_ok_iff]
  constructor
  · rintro ⟨program, defined, verified, ⟨⟩, known, -⟩
    refine ⟨defined, verified, ?_⟩
    intro name member
    exact require_ok_iff.mp (forM_ok_iff.mp known name member)
  · rintro ⟨defined, verified, known⟩
    refine ⟨_, defined, verified, (), forM_ok_iff.mpr ?_, rfl⟩
    intro name member
    exact require_ok_iff.mpr (known name member)

/-- After any calls, `build` succeeds exactly on what it checks. -/
theorem build_ok_iff_checked (functionName : String) (calls : List BuilderCall) :
    (∃ program, (applyAll functionName calls).build = .ok program) ↔ Checked calls := by
  have collected := collected_foldl calls (.new functionName)
  have inputs : (applyAll functionName calls).inputs.map NamedValueType.name =
      inputNames calls := collected.inputs
  have ops : (applyAll functionName calls).ops = operations calls := collected.ops
  have outputs : (applyAll functionName calls).blockOutputs = BuilderCall.blockOutputs calls :=
    collected.blockOutputs
  rw [exists_build_ok_iff, inputs, ops, outputs]
  constructor
  · rintro ⟨defined, verified, known⟩
    obtain ⟨attributed, operands, rfl⟩ := verified_iff.mp verified
    exact ⟨operands, attributed, known⟩
  · intro checked
    exact ⟨_, verified_iff.mpr ⟨checked.attributed, checked.operands, rfl⟩, checked.outputs⟩

theorem HasName.attributed {op : Operation} (named : HasName op) : "name" ∈ op.attributes := by
  obtain ⟨name, -, found⟩ := named
  apply AList.lookup_isSome.mp
  cases looked : op.attributes.lookup "name" with
  | none => simp [looked] at found
  | some value => rfl

theorem wellFormed_iff (calls : List BuilderCall) :
    WellFormed calls ↔ Checked calls ∧ Unlooked calls := by
  constructor
  · intro formed
    have attributed : ∀ op ∈ operations calls, "name" ∈ op.attributes := by
      intro op member
      exact (formed.named op member).attributed
    exact ⟨⟨formed.operands, attributed, formed.outputs⟩,
      ⟨formed.named, formed.distinct, formed.some_output⟩⟩
  · rintro ⟨checked, unlooked⟩
    exact ⟨checked.operands, unlooked.named, unlooked.distinct, unlooked.some_output,
      checked.outputs⟩

/-- `build` decides the documented well-formedness of the calls exactly when a check that it makes
fails, or nothing is wrong with what it does not look at. -/
theorem buildLaw_iff (functionName : String) (calls : List BuilderCall) :
    ((∃ program, (applyAll functionName calls).build = .ok program) ↔ WellFormed calls) ↔
      (¬Checked calls ∨ Unlooked calls) := by
  rw [build_ok_iff_checked, wellFormed_iff]
  constructor
  · intro law
    -- where `build` fails both sides fail
    by_cases checked : Checked calls
    · exact .inr (law.mp checked).2
    · exact .inl checked
  · rintro (failed | unlooked)
    · exact ⟨fun checked => absurd checked failed, fun both => both.1⟩
    · exact ⟨fun checked => ⟨checked, unlooked⟩, fun both => both.1⟩

/-- A function that has an input and no output is built. -/
theorem no_output_built :
    ¬ ∀ (functionName : String) (calls : List BuilderCall),
      (∃ program, (applyAll functionName calls).build = .ok program) ↔ WellFormed calls := by
  intro law
  have built : ∃ program,
      (applyAll "main" [.input "x" .float32 [1, 4]]).build = .ok program := ⟨_, rfl⟩
  exact ((law "main" _).mp built).some_output rfl

end TribunusCompute.Lowering
