import TribunusCompute.Library.StraightLine
import TribunusCompute.Lowering.CoreMl

/-!
# What the operations compute

Scheduled operations and operations of a MIL block say the same nine things in two notations.
Both are read as definitions of straight-line programs, over tensor ids in the one case and over
names in the other.
-/
namespace TribunusCompute.Lowering

open MilSpec StraightLine

/-- An opcode with its attributes. -/
inductive TensorOp
  | constant (data : List UInt32) (shape : List ℕ)
  | identity
  | add
  | multiply
  | matmul (transposeX transposeY : Bool)
  | reshape (targetShape : List ℤ)
  | transpose (permutation : List ℤ)
  | softmax (axis : ℤ)
  | silu
  deriving DecidableEq

namespace TensorOp

def arity : TensorOp → ℕ
  | constant .. => 0
  | add | multiply | matmul .. => 2
  | identity | reshape _ | transpose _ | softmax _ | silu => 1

def declaredType : TensorOp → List ValueType → Option ValueType
  | constant _ shape, _ =>
    some (valueTypeTensor (tensorType .float32 (shape.map fun n => (UInt64.ofNat n).toInt64)))
  | matmul .., _ => some (valueTypeTensor (tensorType .float32 [1, 1]))
  | reshape targetShape, _ =>
    some (valueTypeTensor (tensorType .float32 (targetShape.map Int64.ofInt)))
  | _, types => types.head?

end TensorOp

/-- The nine opcodes as functions of their operands and attributes. -/
structure Interpretation (V : Type) where
  constant : List UInt32 → List ℕ → V
  identity : V → V
  add : V → V → V
  multiply : V → V → V
  matmul : Bool → Bool → V → V → V
  reshape : List ℤ → V → V
  transpose : List ℤ → V → V
  softmax : ℤ → V → V
  silu : V → V

/-- The value of an operation on its operands, where they are as many as it takes. -/
def Interpretation.value {V : Type} (I : Interpretation V) : TensorOp → List V → Option V
  | .constant data shape, [] => some (I.constant data shape)
  | .identity, [x] => some (I.identity x)
  | .add, [x, y] => some (I.add x y)
  | .multiply, [x, y] => some (I.multiply x y)
  | .matmul transposeX transposeY, [x, y] => some (I.matmul transposeX transposeY x y)
  | .reshape targetShape, [x] => some (I.reshape targetShape x)
  | .transpose permutation, [x] => some (I.transpose permutation x)
  | .softmax axis, [x] => some (I.softmax axis x)
  | .silu, [x] => some (I.silu x)
  | _, _ => none

theorem Interpretation.exists_value {V : Type} (I : Interpretation V) {operation : TensorOp}
    {values : List V} (lengths : values.length = operation.arity) :
    ∃ value, I.value operation values = some value := by
  cases operation with
  | constant data shape =>
    rw [List.length_eq_zero_iff.mp lengths]
    exact ⟨_, rfl⟩
  | add | multiply | matmul =>
    obtain ⟨x, y, rfl⟩ := List.length_eq_two.mp lengths
    exact ⟨_, rfl⟩
  | identity | reshape | transpose | softmax | silu =>
    obtain ⟨x, rfl⟩ := List.length_eq_one_iff.mp lengths
    exact ⟨_, rfl⟩

/-! ### Scheduled operations -/

namespace ScheduledOp

/-- The opcode with its own attributes; there is none where they are another opcode's. -/
def tensorOp? (op : ScheduledOp) : Option TensorOp :=
  match op.opcode, op.attrs with
  | .constant, .constant data shape => some (.constant data (shape.map UInt32.toNat))
  | .identity, _ => some .identity
  | .add, _ => some .add
  | .multiply, _ => some .multiply
  | .matmul, .matmul transposeX transposeY => some (.matmul transposeX transposeY)
  | .reshape, .reshape targetShape => some (.reshape (targetShape.map Int64.toInt))
  | .transpose, .transpose permutation =>
    some (.transpose (permutation.map fun p => (p.toNat : ℤ)))
  | .softmax, .softmax axis => some (.softmax axis.toInt)
  | .silu, _ => some .silu
  | _, _ => none

/-- An operation defines its first output, from as many inputs as its opcode takes. -/
def instr? (op : ScheduledOp) : Option (Instr TensorId TensorOp) := do
  let operation ← op.tensorOp?
  let dest ← op.outputs.head?
  guard (operation.arity ≤ op.inputs.length)
  return ⟨dest, operation, op.inputs.take operation.arity⟩

end ScheduledOp

/-! ### Operations of a block -/

end TribunusCompute.Lowering

namespace TribunusCompute.Lowering.MilSpec

open StraightLine

namespace Operation

def operand? (op : Operation) (parameter : String) : Option String :=
  match op.inputs.lookup parameter with
  | some ⟨[.name name]⟩ => some name
  | _ => none

def immediate? (op : Operation) (parameter : String) : Option TensorValue :=
  match op.inputs.lookup parameter with
  | some ⟨[.value value]⟩ => some value.immediate
  | _ => none

def bool? (op : Operation) (parameter : String) : Option Bool :=
  match op.immediate? parameter with
  | some (.bools [val]) => some val
  | _ => none

def ints? (op : Operation) (parameter : String) : Option (List ℤ) :=
  match op.immediate? parameter with
  | some (.longInts values) => some (values.map Int64.toInt)
  | _ => none

end Operation

def Dimension.size? : Dimension → Option ℕ
  | .constant size => some size.toNat
  | .unknown _ => none

def ValueType.shape? : ValueType → Option (List ℕ)
  | .tensorType tensor => tensor.dimensions.mapM Dimension.size?

namespace Operation

def constant? (op : Operation) : Option TensorOp :=
  match op.attributes.lookup "val" with
  | some ⟨type, .floats data⟩ => type.shape?.map (TensorOp.constant data)
  | _ => none

/-- The operation that the type and the parameters stand for, and the names it reads. -/
def tensorOp? (op : Operation) : Option (TensorOp × List String) :=
  let unary := fun operation => (op.operand? "x").map fun x => (operation, [x])
  let binary := fun operation => do
    let x ← op.operand? "x"
    let y ← op.operand? "y"
    return (operation, [x, y])
  if op.type = "const" then op.constant?.map fun operation => (operation, [])
  else if op.type = "identity" then unary .identity
  else if op.type = "add" then binary .add
  else if op.type = "mul" then binary .multiply
  else if op.type = "matmul" then do
    let transposeX ← op.bool? "transpose_x"
    let transposeY ← op.bool? "transpose_y"
    binary (.matmul transposeX transposeY)
  else if op.type = "reshape" then do
    let targetShape ← op.ints? "shape"
    unary (.reshape targetShape)
  else if op.type = "transpose" then do
    let permutation ← op.ints? "perm"
    unary (.transpose permutation)
  else if op.type = "softmax" then
    match op.ints? "axis" with
    | some [axis] => unary (.softmax axis)
    | _ => none
  else if op.type = "silu" then unary .silu
  else none

/-- An operation defines the one name it puts out. -/
def instr? (op : Operation) : Option (Instr String TensorOp) :=
  match op.outputs with
  | [output] => op.tensorOp?.map fun computed => ⟨output.name, computed.1, computed.2⟩
  | _ => none

end Operation

end TribunusCompute.Lowering.MilSpec
