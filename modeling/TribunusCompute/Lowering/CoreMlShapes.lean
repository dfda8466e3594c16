import Mathlib.Algebra.BigOperators.Group.List.Basic
import TribunusCompute.Library.Keyed
import TribunusCompute.Lowering.CoreMlLaw

/-!
# Declared types and shapes

What shape an operation produces is a function of its operands' shapes, so that the shapes of a
region's tensors come out of the same evaluation as their values. The emitters declare types on
their own: a product is declared to be one number, a transpose to be shaped as its operand, and a
reshape by its target, the `-1` in it included.

## Strategy

For one operation the declared shape is the produced one exactly where `TensorOp.Fixed` holds of
its operands (`declaredShape_iff`). Along a run both are read from the declared types of the
operands, which are right as long as all were right so far (`loweredAll_types_iff`).
-/
namespace TribunusCompute.Lowering

open Outcome MilSpec StraightLine

abbrev Shape := List ℕ

/-! ### Shapes the operations produce -/

/-- The extents of a product: of the first factor's rows and the second one's columns. -/
def matmulShape (transposeX transposeY : Bool) : Shape → Shape → Option Shape
  | [a, b], [c, d] =>
    let rows := if transposeX then b else a
    let inner := if transposeX then a else b
    let inner' := if transposeY then d else c
    let columns := if transposeY then c else d
    if inner = inner' then some [rows, columns] else none
  | _, _ => none

def knownExtents (targetShape : List ℤ) : List ℤ := targetShape.filter (· ≠ -1)

/-- A target with as many elements; one extent may be left open by `-1`. -/
def reshapeShape (targetShape : List ℤ) (shape : Shape) : Option Shape :=
  let known := ((knownExtents targetShape).map Int.toNat).prod
  if ∃ d ∈ knownExtents targetShape, d < 0 then none
  else if targetShape.count (-1) = 0 then
    if known = shape.prod then some (targetShape.map Int.toNat) else none
  else if targetShape.count (-1) = 1 ∧ 0 < known ∧ known ∣ shape.prod then
    some (targetShape.map fun d => if d = -1 then shape.prod / known else d.toNat)
  else none

/-- The axes in the order of a permutation of them. -/
def transposeShape (permutation : List ℤ) (shape : Shape) : Option Shape :=
  if permutation.Perm ((List.range shape.length).map fun axis : ℕ => (axis : ℤ)) then
    some (permutation.map fun p => shape.getD p.toNat 0)
  else none

namespace TensorOp

/-- The shape of the result; there is none where the operands do not fit. -/
def shape : TensorOp → List Shape → Option Shape
  | constant _ shape, [] => some shape
  | identity, [s] => some s
  | add, [s, t] => if s = t then some s else none
  | multiply, [s, t] => if s = t then some s else none
  | matmul transposeX transposeY, [s, t] => matmulShape transposeX transposeY s t
  | reshape targetShape, [s] => reshapeShape targetShape s
  | transpose permutation, [s] => transposeShape permutation s
  | softmax _, [s] => some s
  | silu, [s] => some s
  | _, _ => none

def declaredShape : TensorOp → List Shape → Option Shape
  | constant _ shape, _ => some shape
  | matmul .., _ => some [1, 1]
  | reshape targetShape, _ => some (targetShape.map fun d => (d % 2 ^ 64).toNat)
  | _, shapes => shapes.head?

/-- Operands for which the emitter declares what is produced: a row times a column, a transpose
that only exchanges axes of one extent, a reshape without an open extent (or with one that is the
largest there is). -/
def Fixed : TensorOp → List Shape → Prop
  | matmul transposeX transposeY, [[a, b], [c, d]] =>
    (if transposeX then b else a) = 1 ∧ (if transposeY then c else d) = 1
  | reshape targetShape, [s] =>
    -1 ∈ targetShape → (2 ^ 64 - 1) * ((knownExtents targetShape).map Int.toNat).prod = s.prod
  | transpose permutation, [s] =>
    ∀ i < permutation.length, s.getD i 0 = s.getD (permutation.getD i 0).toNat 0
  | _, _ => True

/-- The attributes are machine integers. -/
def InRange : TensorOp → Prop
  | constant _ shape => ∀ n ∈ shape, n < 2 ^ 32
  | reshape targetShape => ∀ d ∈ targetShape, -2 ^ 63 ≤ d ∧ d < 2 ^ 63
  | _ => True

end TensorOp

def regionShapes (region : ScheduledRegion) : Env TensorId Shape := fun id =>
  if id ∈ region.inputs then some ((placedShape region id [1, 4]).map UInt32.toNat) else none

/-- The shapes of all tensors; there are none where an operation does not fit. -/
def evalShapes (region : ScheduledRegion) (ops : List ScheduledOp) :
    Option (Env TensorId Shape) := do
  let program ← ops.mapM ScheduledOp.instr?
  StraightLine.eval TensorOp.shape (regionShapes region) program

def MilSpec.Operation.declaredShape? (op : Operation) : Option Shape :=
  op.outputs.head?.bind fun output => output.type.shape?

/-- Every operation emitted is declared with the shape it produces. -/
def TypesDeclared (shapes : Env TensorId Shape) (ops : List ScheduledOp) (block : Block) : Prop :=
  block.operations.map Operation.declaredShape? =
    ops.map fun op => op.outputs.head?.bind shapes

/-- The operation is applied to operands for which its emitter declares what is produced. -/
def FixedOp (shapes : Env TensorId Shape) (op : ScheduledOp) : Prop :=
  ∀ instr ∈ op.instr?, ∀ operands ∈ instr.operands.mapM shapes, instr.operation.Fixed operands

/-! ### One operation -/

theorem toNat_emod {d : ℤ} (lower : 0 ≤ d) (upper : d < 2 ^ 63) : (d % 2 ^ 64).toNat = d.toNat := by
  rw [Int.emod_eq_of_lt lower (by omega)]

theorem reshape_iff {targetShape : List ℤ} {s out : Shape}
    (inRange : ∀ d ∈ targetShape, -2 ^ 63 ≤ d ∧ d < 2 ^ 63)
    (fits : reshapeShape targetShape s = some out) :
    targetShape.map (fun d => (d % 2 ^ 64).toNat) = out ↔
      (-1 ∈ targetShape →
        (2 ^ 64 - 1) * ((knownExtents targetShape).map Int.toNat).prod = s.prod) := by
  unfold reshapeShape at fits
  dsimp only at fits
  split at fits
  next => cases fits
  next proper =>
    -- An extent that is given is a natural number, and 64 bits hold it as it is.
    have known : ∀ d ∈ targetShape, d ≠ -1 → (d % 2 ^ 64).toNat = d.toNat := by
      intro d member given
      have listed : d ∈ knownExtents targetShape := by
        simp [knownExtents, member, given]
      have positive : 0 ≤ d := Int.not_lt.mp fun negative => proper ⟨d, listed, negative⟩
      exact toNat_emod positive (inRange d member).2
    split at fits
    next closed =>
      have absent : -1 ∉ targetShape := List.count_eq_zero.mp closed
      split at fits
      next =>
        cases fits
        constructor
        · intro _ member
          exact absurd member absent
        · intro _
          apply List.map_congr_left
          intro d member
          apply known d member
          rintro rfl
          exact absent member
      next => cases fits
    next =>
      split at fits
      next opened =>
        obtain ⟨one, positive, divides⟩ := opened
        cases fits
        have member : -1 ∈ targetShape := by
          apply List.count_pos_iff.mp
          omega
        -- Only the open extent is at stake, which 64 bits read as the largest number.
        rw [List.map_inj_left]
        constructor
        · intro same _
          have here := same (-1) member
          rw [if_pos rfl] at here
          have largest : ((-1 : ℤ) % 2 ^ 64).toNat = 2 ^ 64 - 1 := by decide
          rw [largest] at here
          rw [here, Nat.div_mul_cancel divides]
        · intro product d member'
          by_cases open' : d = -1
          · subst d
            rw [if_pos rfl, ← product member, Nat.mul_div_cancel _ positive]
            decide
          · rw [if_neg open']
            exact known d member' open'
      next => cases fits

theorem transpose_iff {permutation : List ℤ} {s out : Shape}
    (fits : transposeShape permutation s = some out) :
    s = out ↔ ∀ i < permutation.length, s.getD i 0 = s.getD (permutation.getD i 0).toNat 0 := by
  unfold transposeShape at fits
  split at fits
  next permuted =>
    cases fits
    have lengths : permutation.length = s.length := by simpa using permuted.length_eq
    constructor
    · intro same i inside
      have there := congrArg (fun l : Shape => l.getD i 0) same
      rw [there]
      simp [List.getD_eq_getElem?_getD, inside]
    · intro each
      apply List.ext_getElem (by simp [lengths])
      intro i inside inside'
      have there := each i (by simpa using inside')
      rw [List.length_map] at inside'
      rw [List.getElem_map]
      simpa [List.getD_eq_getElem?_getD, inside, inside'] using there
  next => cases fits

theorem matmul_iff {transposeX transposeY : Bool} {s t out : Shape}
    (fits : matmulShape transposeX transposeY s t = some out) :
    [1, 1] = out ↔ (TensorOp.matmul transposeX transposeY).Fixed [s, t] := by
  unfold matmulShape at fits
  split at fits
  next a b c d =>
    rw [Option.ite_none_right_eq_some, Option.some.injEq] at fits
    obtain ⟨-, rfl⟩ := fits
    simp only [TensorOp.Fixed, List.cons.injEq, and_true, eq_comm]
  next => cases fits

/-- The shape declared is the one produced exactly where the operands are such. -/
theorem declaredShape_iff {operation : TensorOp} {shapes : List Shape} {out : Shape}
    (inRange : operation.InRange) (fits : operation.shape shapes = some out) :
    operation.declaredShape shapes = some out ↔ operation.Fixed shapes := by
  unfold TensorOp.shape at fits
  split at fits
  case h_1 => simpa [TensorOp.declaredShape, TensorOp.Fixed] using fits
  case h_2 => simpa [TensorOp.declaredShape, TensorOp.Fixed] using fits
  case h_3 =>
    split at fits
    · simpa [TensorOp.declaredShape, TensorOp.Fixed] using fits
    · cases fits
  case h_4 =>
    split at fits
    · simpa [TensorOp.declaredShape, TensorOp.Fixed] using fits
    · cases fits
  case h_5 => simpa [TensorOp.declaredShape] using matmul_iff fits
  case h_6 => simpa [TensorOp.declaredShape, TensorOp.Fixed] using reshape_iff inRange fits
  case h_7 => simpa [TensorOp.declaredShape, TensorOp.Fixed] using transpose_iff fits
  case h_8 => simpa [TensorOp.declaredShape, TensorOp.Fixed] using fits
  case h_9 => simpa [TensorOp.declaredShape, TensorOp.Fixed] using fits
  case h_10 => cases fits

/-! ### Declared types -/

theorem toNat_toUInt64_ofInt (d : ℤ) : (Int64.ofInt d).toUInt64.toNat = (d % 2 ^ 64).toNat :=
  BitVec.toNat_ofInt d

theorem shape?_declaredType {operation : TensorOp} {types : List ValueType} {type : ValueType}
    {shapes : List Shape} (inRange : operation.InRange)
    (declared : operation.declaredType types = some type)
    (operands : types.mapM ValueType.shape? = some shapes) :
    type.shape? = operation.declaredShape shapes := by
  have first : types.head? = some type → type.shape? = shapes.head? := by
    intro head
    cases types with
    | nil => cases head
    | cons t types =>
      obtain rfl : t = type := Option.some.inj head
      rw [List.mapM_cons] at operands
      simp only [Option.bind_eq_bind, Option.bind_eq_some_iff, Option.pure_def,
        Option.some.injEq] at operands
      obtain ⟨shape, here, rest, -, rfl⟩ := operands
      exact here
  cases operation with
  | constant data shape =>
    cases declared
    rw [shape?_tensorType, TensorOp.declaredShape, List.map_map]
    congr 1
    refine (List.map_congr_left ?_).trans (List.map_id shape)
    intro n member
    have small : n < 2 ^ 64 := (inRange n member).trans (by decide)
    simp only [Function.comp_apply, UInt64.toUInt64_toInt64, id_eq]
    exact UInt64.toNat_ofNat_of_lt' small
  | matmul transposeX transposeY =>
    cases declared
    rfl
  | reshape targetShape =>
    cases declared
    rw [shape?_tensorType, TensorOp.declaredShape, List.map_map]
    exact congrArg some (List.map_congr_left fun d _ => toNat_toUInt64_ofInt d)
  | identity | add | multiply | transpose | softmax | silu => exact first declared

theorem instr?_inRange {op : ScheduledOp} {instr : Instr TensorId TensorOp}
    (source : op.instr? = some instr) : instr.operation.InRange := by
  obtain ⟨opcode, -⟩ := instr?_cases source
  unfold ScheduledOp.tensorOp? at opcode
  split at opcode
  case h_1 data shape _ _ =>
    rw [← Option.some.inj opcode]
    intro n member
    obtain ⟨p, -, rfl⟩ := List.mem_map.mp member
    exact p.toNat_lt
  case h_6 targetShape _ _ =>
    rw [← Option.some.inj opcode]
    intro d member
    obtain ⟨d, -, rfl⟩ := List.mem_map.mp member
    exact ⟨d.le_toInt, d.toInt_lt⟩
  case h_10 => cases opcode
  all_goals
    rw [← Option.some.inj opcode]
    trivial

/-! ### A run -/

/-- The types declared so far are those of the tensors' shapes. -/
def Typed (ctx : CoreMlLoweringCtx) (shapes : Env TensorId Shape) : Prop :=
  ∀ id ref, ctx.valueBindings.lookup id = some ref →
    ∃ shape, ref.valueType.shape? = some shape ∧ shapes id = some shape

theorem typed_registered (lowering : CoreMlLowering) (region : ScheduledRegion)
    (ops : List ScheduledOp) :
    Typed (registered lowering region ops) (regionShapes region) := by
  intro id ref bound
  rw [(registered_starts lowering region ops).bound] at bound
  split at bound
  next member =>
    obtain rfl := Option.some.inj bound
    refine ⟨(placedShape region id [1, 4]).map UInt32.toNat, ?_, if_pos member⟩
    rw [inputRef, MilValueRef.new, shape?_tensorType, List.map_map]
    rfl
  next => cases bound

theorem Typed.operands {ctx : CoreMlLoweringCtx} {shapes : Env TensorId Shape}
    (typed : Typed ctx shapes) {ids : List TensorId} {refs : List MilValueRef}
    (bound : ids.mapM ctx.valueBindings.lookup = some refs) {values : List Shape}
    (read : ids.mapM shapes = some values) :
    (refs.map MilValueRef.valueType).mapM ValueType.shape? = some values := by
  induction ids generalizing refs values with
  | nil =>
    obtain rfl : refs = [] := by simpa using bound.symm
    obtain rfl : values = [] := by simpa using read.symm
    rfl
  | cons id ids ih =>
    rw [List.mapM_cons] at bound read
    simp only [Option.bind_eq_bind, Option.bind_eq_some_iff, Option.pure_def,
      Option.some.injEq] at bound read
    obtain ⟨ref, first, refs, later, rfl⟩ := bound
    obtain ⟨value, here, values, rest, rfl⟩ := read
    obtain ⟨shape, declared, there⟩ := typed id ref first
    obtain rfl : shape = value := Option.some.inj (there.symm.trans here)
    simp [List.mapM_cons, declared, ih later rest]

theorem Typed.next {ctx next : CoreMlLoweringCtx} {op : ScheduledOp}
    {instr : Instr TensorId TensorOp} {refs : List MilValueRef} {milOp : Operation}
    {ref : MilValueRef} {shapes : Env TensorId Shape} {shape : Shape} (typed : Typed ctx shapes)
    (turn : Lowered ctx op next instr refs milOp ref)
    (declared : ref.valueType.shape? = some shape) :
    Typed next (Function.update shapes instr.dest (some shape)) := by
  intro id other bound
  rw [turn.bindings] at bound
  rcases Keyed.lookup_insert_eq_some_iff.mp bound with ⟨rfl, rfl⟩ | ⟨here, bound⟩
  · exact ⟨shape, declared, Function.update_self ..⟩
  · rw [Function.update_of_ne here]
    exact typed id other bound

theorem loweredAll_keeps {ctx final : CoreMlLoweringCtx} {ops : List ScheduledOp}
    {instrs : List (Instr TensorId TensorOp)} {milOps : List Operation}
    (run : LoweredAll ctx ops instrs milOps final) {shapes done : Env TensorId Shape}
    (evaluated : StraightLine.eval TensorOp.shape shapes instrs = some done) {id : TensorId}
    (bound : id ∈ ctx.valueBindings) : done id = shapes id := by
  induction run generalizing shapes with
  | nil =>
    cases evaluated
    rfl
  | @cons _ _ _ _ _ instr _ _ _ _ _ turn _ ih =>
    obtain ⟨next, stepped, later⟩ := eval_cons_eq_some_iff.mp evaluated
    obtain ⟨values, -, value, -, rfl⟩ := step_eq_some_iff.mp stepped
    have apart : id ≠ instr.dest := by
      rintro rfl
      exact turn.fresh bound
    have still := ih later (by
      rw [turn.bindings]
      exact (AList.mem_insert _).mpr (.inr bound))
    rw [still, Function.update_of_ne apart]

/-- The declared types of a run are right exactly where every operation has such operands. -/
theorem loweredAll_types_iff {ctx final : CoreMlLoweringCtx} {ops : List ScheduledOp}
    {instrs : List (Instr TensorId TensorOp)} {milOps : List Operation}
    (run : LoweredAll ctx ops instrs milOps final) {shapes done : Env TensorId Shape}
    (typed : Typed ctx shapes)
    (evaluated : StraightLine.eval TensorOp.shape shapes instrs = some done) :
    milOps.map Operation.declaredShape? = ops.map (fun op => op.outputs.head?.bind done) ↔
      ∀ op ∈ ops, FixedOp done op := by
  induction run generalizing shapes with
  | nil => simp
  | @cons ctx next _ op _ instr _ refs milOp _ ref turn later ih =>
    obtain ⟨env, stepped, rest⟩ := eval_cons_eq_some_iff.mp evaluated
    obtain ⟨values, read, shape, produced, rfl⟩ := step_eq_some_iff.mp stepped
    have inRange := instr?_inRange turn.source
    -- the final shapes are those the operation is evaluated with
    have read' : instr.operands.mapM done = some values := by
      rw [← read]
      apply mapM_congr
      intro id member
      obtain ⟨ref', bound⟩ := exists_of_mapM_some turn.operands member
      exact loweredAll_keeps (.cons turn later) evaluated
        (AList.lookup_isSome.mp (by rw [bound]; rfl))
    have dest : done instr.dest = some shape := by
      have bound : instr.dest ∈ next.valueBindings := by
        rw [turn.bindings]
        exact (AList.mem_insert _).mpr (.inl rfl)
      rw [loweredAll_keeps later rest bound, Function.update_self]
    have declares := shape?_declaredType inRange turn.declares (typed.operands turn.operands read)
    have here : milOp.declaredShape? = op.outputs.head?.bind done ↔ FixedOp done op := by
      have output : milOp.declaredShape? = instr.operation.declaredShape values := by
        rw [Operation.declaredShape?, turn.outputs]
        exact declares
      rw [output, (instr?_cases turn.source).2.1, Option.bind_some, dest,
        declaredShape_iff inRange produced]
      simp [FixedOp, turn.source, read']
    rw [List.map_cons, List.map_cons, List.cons.injEq, here, List.forall_mem_cons]
    apply and_congr_right
    intro fixed
    apply ih _ rest
    apply typed.next turn
    rw [declares]
    apply (declaredShape_iff inRange produced).mpr
    exact fixed instr turn.source values read'

/-! ### The lowering -/

/-- The types declared in a lowered region whose shapes fit are right exactly where every
operation is applied to operands for which its emitter declares what is produced. -/
theorem lowerToMil_types_iff (sha256 : List UInt8 → String) (lowering : CoreMlLowering)
    (region : ScheduledRegion) (ops : List ScheduledOp) (artifact : CoreMlMilArtifact)
    (receipt : MilLoweringReceipt) (shapes : Env TensorId Shape)
    (lowered : lowering.lowerToMil sha256 region ops = .ok (artifact, receipt))
    (fit : evalShapes region ops = some shapes) :
    ∃ function block, artifact.program.main? = some (function, block) ∧
      (TypesDeclared shapes ops block ↔ ∀ op ∈ ops, FixedOp shapes op) := by
  obtain ⟨instrs, final, function, block, result⟩ := lowerToMil_ok lowered
  refine ⟨function, block, result.main, ?_⟩
  apply loweredAll_types_iff result.turns (typed_registered lowering region ops)
  unfold evalShapes at fit
  rw [loweredAll_sources result.turns] at fit
  exact fit

/-- A row times a column, activated, is declared right. -/
theorem projection_typesDeclared :
    ∃ artifact receipt shapes function block, (CoreMlLowering.new .macOS13).lowerToMil
        (fun _ => "") projectionRegion projectionOps = .ok (artifact, receipt) ∧
      evalShapes projectionRegion projectionOps = some shapes ∧
        artifact.program.main? = some (function, block) ∧
          TypesDeclared shapes projectionOps block := by
  have made : ((CoreMlLowering.new .macOS13).lowerToMil (fun _ => "") projectionRegion
      projectionOps).toOption.isSome = true := by
    decide +kernel
  have factors : ((evalShapes projectionRegion projectionOps).map fun shapes =>
      [⟨1⟩, ⟨2⟩].mapM shapes) = some (some [[1, 4], [4, 1]]) := by
    decide +kernel
  obtain ⟨⟨artifact, receipt⟩, lowered⟩ := exists_ok_of_isSome made
  obtain ⟨shapes, fit, rowTimesColumn⟩ := Option.map_eq_some_iff.mp factors
  obtain ⟨function, block, main, types⟩ := lowerToMil_types_iff _ _ projectionRegion projectionOps
    artifact receipt shapes lowered fit
  refine ⟨artifact, receipt, shapes, function, block, lowered, fit, main, types.mpr ?_⟩
  intro op member instr source operands read
  simp only [projectionOps, List.mem_cons, List.not_mem_nil, or_false] at member
  rcases member with rfl | rfl | rfl
  · cases source
    trivial
  · cases source
    obtain rfl := Option.some.inj (rowTimesColumn.symm.trans read)
    exact ⟨rfl, rfl⟩
  · cases source
    trivial

def twoRowsRegion : ScheduledRegion where
  regionId := ⟨0⟩
  name := "two rows"
  operations := []
  selectedBackend := ⟨2⟩
  physicalTensors := [{
    semanticId := ⟨1⟩
    name := "x"
    shape := [2, 4]
    dtype := .f32
    layout := .rowMajor
    storageClass := .ioSurface
    backend := ⟨2⟩
    materialized := true
    alignment := 4096 }]
  inputs := [⟨1⟩]
  outputs := [⟨3⟩]
  dependencies := []
  stateEffects := []
  tempMemoryBytes := 0
  isFence := false

/-- Its product with a constant of four rows and three columns. -/
def twoRowsOps : List ScheduledOp :=
  [⟨⟨10⟩, .constant, [], [⟨2⟩], .constant (List.replicate 12 0) [4, 3]⟩,
    ⟨⟨11⟩, .matmul, [⟨1⟩, ⟨2⟩], [⟨3⟩], .matmul false false⟩]

/-- A product of two rows and three columns is declared to be one number. -/
theorem twoRows_not_typesDeclared :
    ∃ artifact receipt shapes function block, (CoreMlLowering.new .macOS13).lowerToMil
        (fun _ => "") twoRowsRegion twoRowsOps = .ok (artifact, receipt) ∧
      evalShapes twoRowsRegion twoRowsOps = some shapes ∧
        artifact.program.main? = some (function, block) ∧
          ¬ TypesDeclared shapes twoRowsOps block := by
  have declared : (((CoreMlLowering.new .macOS13).lowerToMil (fun _ => "") twoRowsRegion
      twoRowsOps).toOption.bind fun result => result.1.program.main?.map fun main =>
        main.2.operations.map Operation.declaredShape?) =
      some [some [4, 3], some [1, 1]] := by
    decide +kernel
  have produced : ((evalShapes twoRowsRegion twoRowsOps).map fun shapes =>
      twoRowsOps.map fun op => op.outputs.head?.bind shapes) =
      some [some [4, 3], some [2, 3]] := by
    decide +kernel
  obtain ⟨⟨artifact, receipt⟩, made, main⟩ := Option.bind_eq_some_iff.mp declared
  obtain ⟨⟨function, block⟩, found, types⟩ := Option.map_eq_some_iff.mp main
  obtain ⟨shapes, fit, shaped⟩ := Option.map_eq_some_iff.mp produced
  have lowered : (CoreMlLowering.new .macOS13).lowerToMil (fun _ => "") twoRowsRegion
      twoRowsOps = .ok (artifact, receipt) := by
    obtain ⟨result, ok⟩ := exists_ok_of_isSome (by rw [made]; rfl)
    rw [ok] at made ⊢
    cases made
    rfl
  refine ⟨artifact, receipt, shapes, function, block, lowered, fit, found, ?_⟩
  unfold TypesDeclared
  rw [types, shaped]
  decide

end TribunusCompute.Lowering
