import Mathlib.Data.List.AList
import TribunusCompute.Library.Outcome

/-!
# MIL programs and their builder

Programs of the model intermediate language: a function with named, typed inputs and a block of
operations, each of which names and types what it puts out. The builder collects inputs,
operations and outputs, and checks names before it hands out the program.
-/
namespace TribunusCompute.Lowering

open Outcome

namespace MilSpec

inductive DataType
  | float32
  | int64
  | bool
  | string
  deriving DecidableEq, Repr

inductive Dimension
  | constant (size : UInt64)
  | unknown (variadic : Bool)
  deriving DecidableEq

structure TensorType where
  dataType : DataType
  rank : ℕ
  dimensions : List Dimension
  deriving DecidableEq

inductive ValueType
  | tensorType (tensor : TensorType)
  deriving DecidableEq

/-- The elements of an immediate tensor; a float by its bits. -/
inductive TensorValue
  | floats (values : List UInt32)
  | bools (values : List Bool)
  | longInts (values : List Int64)
  | strings (values : List String)
  deriving DecidableEq

structure Value where
  type : ValueType
  immediate : TensorValue
  deriving DecidableEq

inductive Binding
  | name (name : String)
  | value (value : Value)
  deriving DecidableEq

structure Argument where
  arguments : List Binding
  deriving DecidableEq

structure NamedValueType where
  name : String
  type : ValueType
  deriving DecidableEq

structure Operation where
  type : String
  inputs : AList fun _ : String => Argument
  outputs : List NamedValueType
  attributes : AList fun _ : String => Value

structure Block where
  outputs : List String
  operations : List Operation

structure Function where
  inputs : List NamedValueType
  opset : String
  blockSpecializations : AList fun _ : String => Block

structure Program where
  version : ℕ
  functions : AList fun _ : String => Function

end MilSpec

open MilSpec

/-! ### Values and arguments -/

def tensorType (dtype : DataType) (shape : List Int64) : TensorType where
  dataType := dtype
  rank := shape.length
  dimensions := shape.map fun s => .constant s.toUInt64

def valueTypeTensor (tensor : TensorType) : ValueType := .tensorType tensor

def namedArg (name : String) : Argument := ⟨[.name name]⟩

/-- A value without dimensions. -/
def scalarType (dtype : DataType) : ValueType := valueTypeTensor ⟨dtype, 0, []⟩

def boolAttr (val : Bool) : Value := ⟨scalarType .bool, .bools [val]⟩

def boolArg (val : Bool) : Argument := ⟨[.value (boolAttr val)]⟩

def intArg (val : Int64) : Argument := ⟨[.value ⟨scalarType .int64, .longInts [val]⟩]⟩

def intArrayArg (values : List Int64) : Argument :=
  ⟨[.value ⟨valueTypeTensor ⟨.int64, 1, [.constant (UInt64.ofNat values.length)]⟩,
    .longInts values⟩]⟩

def stringAttr (val : String) : Value := ⟨scalarType .string, .strings [val]⟩

def makeOperation (opType opName : String) (inputs : AList fun _ : String => Argument)
    (outputs : List (String × ValueType)) (extraAttrs : AList fun _ : String => Value) :
    Operation where
  type := opType
  inputs
  outputs := outputs.map fun output => ⟨output.1, output.2⟩
  attributes := extraAttrs.insert "name" (stringAttr opName)

/-! ### The builder -/

structure MilBuilder where
  functionName : String
  opset : String
  inputs : List NamedValueType
  ops : List Operation
  blockOutputs : List String
  valueTypes : AList fun _ : String => ValueType

namespace MilBuilder

def new (functionName : String) : MilBuilder where
  functionName
  opset := "CoreML9"
  inputs := []
  ops := []
  blockOutputs := []
  valueTypes := ∅

def setOpset (builder : MilBuilder) (opset : String) : MilBuilder := { builder with opset }

def input (builder : MilBuilder) (name : String) (dtype : DataType) (shape : List Int64) :
    MilBuilder :=
  let type := valueTypeTensor (tensorType dtype shape)
  { builder with
    valueTypes := builder.valueTypes.insert name type
    inputs := builder.inputs ++ [⟨name, type⟩] }

def operation (builder : MilBuilder) (op : Operation) : MilBuilder :=
  { builder with ops := builder.ops ++ [op] }

def output (builder : MilBuilder) (name : String) : MilBuilder :=
  { builder with blockOutputs := builder.blockOutputs ++ [name] }

def referenced (argument : Argument) : List String :=
  argument.arguments.filterMap fun
    | .name name => some name
    | .value _ => none

def operandNames (op : Operation) : List String :=
  op.inputs.entries.flatMap fun entry => referenced entry.2

/-- Check one operation, and add what it puts out to the names defined. -/
def verifyOperation (defined : List String) (op : Operation) : Outcome (List String) := do
  require ("name" ∈ op.attributes) s!"operation type '{op.type}' missing required 'name' attribute"
  (operandNames op).forM fun name =>
    require (name ∈ defined) s!"operation '{op.type}' references undefined value '{name}'"
  return defined ++ op.outputs.map NamedValueType.name

def build (builder : MilBuilder) : Outcome Program := do
  let defined ← builder.ops.foldlM verifyOperation (builder.inputs.map NamedValueType.name)
  builder.blockOutputs.forM fun name =>
    require (name ∈ defined) s!"block output '{name}' is not defined by any operation or input"
  let block : Block := { outputs := builder.blockOutputs, operations := builder.ops }
  let function : Function := {
    inputs := builder.inputs
    opset := builder.opset
    blockSpecializations := (∅ : AList fun _ : String => Block).insert builder.opset block }
  return {
    version := 1
    functions := (∅ : AList fun _ : String => Function).insert builder.functionName function }

end MilBuilder

end TribunusCompute.Lowering
