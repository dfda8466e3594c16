import Mathlib.Data.Rat.Denumerable
import TribunusCompute.ComputeImage.PackedShapes
import TribunusCompute.ComputeImage.QuantizeError

/-!
# Dequantization

The stored codes, scales and biases of a weight read back element by element, against the
values of the source.
-/
namespace TribunusCompute.ComputeImage

/-! ## Reading back -/

/-- The element that the stored codes stand for, and the scale of its group. -/
def dequantize (decode : List UInt8 → List ℚ) (qmode : CompileQuantMode) (loaded : LoadedSource)
    (name : String) (inDim row col : ℕ) : Option (ℚ × ℚ) := do
  let weight ← loaded.sourceTensors.lookup name
  let scales ← loaded.sourceTensors.lookup (scalesName name)
  let biases ← loaded.sourceTensors.lookup (biasesName name)
  let group := row * qmode.groupsPerRow inDim + col / qmode.groupSize
  let scale ← (decode scales.data)[group]?
  match qmode with
  | .nf4 _ =>
    let start := (row * ((inDim + 7) / 8) + col / 8) * 4
    let word := LittleEndian.decode ((weight.data.drop start).take 4)
    let level ← nf4Codebook[Nibbles.nibble word (col % 8)]?
    return (level * scale, scale)
  | .af8 _ =>
    let code ← weight.data[row * inDim + col]?
    let bias ← (decode biases.data)[group]?
    return (code.toNat * scale + bias, scale)

/-- The allowed error, in units of the scale. -/
def CompileQuantMode.tolerance : CompileQuantMode → ℚ
  | nf4 _ => largestGap / 2
  | af8 _ => 1 / 2

def SourceTensor.element (t : SourceTensor) (i : ℕ) : ℚ :=
  let bits := (halves t.data).getD i 0
  if t.dtype = "BF16" then Ieee.value 8 7 bits else Ieee.value 5 10 bits

/-- Each dequantized element is within the tolerance of the source. -/
def Accurate (decode : List UInt8 → List ℚ) (qmode : CompileQuantMode) (loaded : LoadedSource)
    (name : String) (t : SourceTensor) (outDim inDim : ℕ) : Prop :=
  ∀ row < outDim, ∀ col < inDim, ∃ x scale,
    dequantize decode qmode loaded name inDim row col = some (x, scale) ∧
      |x - t.element (row * inDim + col)| ≤ qmode.tolerance * scale

/-! ## Groups -/

section Groups

variable {R : Type} {values : List R} {outDim inDim gs row col : ℕ}

theorem group_lt (positive : 0 < gs) (inRow : col < inDim) : col / gs < (inDim + gs - 1) / gs := by
  rw [Nat.div_lt_iff_lt_mul positive]
  have whole := Nat.div_add_mod (inDim + gs - 1) gs
  have rest := Nat.mod_lt (inDim + gs - 1) positive
  rw [Nat.mul_comm] at whole
  omega

theorem start_lt {g : ℕ} (positive : 0 < gs) (inGroups : g < (inDim + gs - 1) / gs) :
    g * gs < inDim := by
  have below := Nat.mul_le_mul_right gs (Nat.succ_le_of_lt inGroups)
  have whole := Nat.div_mul_le_self (inDim + gs - 1) gs
  rw [Nat.succ_mul] at below
  omega

theorem groupValues_spec {g : ℕ} (length : values.length = outDim * inDim) (inRows : row < outDim)
    (inRow : g * gs < inDim) :
    (groupValues values inDim gs (row, g)).length = min gs (inDim - g * gs) ∧
      ∀ i < min gs (inDim - g * gs),
        (groupValues values inDim gs (row, g))[i]? = values[row * inDim + g * gs + i]? := by
  have rows := Nat.mul_le_mul_right inDim (show row + 1 ≤ outDim by omega)
  rw [Nat.add_mul, Nat.one_mul] at rows
  have span : groupEnd inDim gs (row, g) - groupStart inDim gs (row, g) =
      min gs (inDim - g * gs) := by
    simp only [groupEnd, groupStart]
    omega
  constructor
  · rw [groupValues, List.length_take, List.length_drop, span, length]
    simp only [groupStart]
    omega
  · intro i inside
    rw [groupValues, span, List.getElem?_take_of_lt inside, List.getElem?_drop]
    rfl

theorem groupValues_element (positive : 0 < gs) (length : values.length = outDim * inDim)
    (inRows : row < outDim) (inRow : col < inDim) :
    ∃ v, values[row * inDim + col]? = some v ∧
      (groupValues values inDim gs (row, col / gs))[col % gs]? = some v := by
  have start := start_lt positive (group_lt positive inRow)
  have offset : col / gs * gs + col % gs = col := by
    rw [Nat.mul_comm]
    exact Nat.div_add_mod col gs
  have inGroup : col % gs < min gs (inDim - col / gs * gs) := by
    have := Nat.mod_lt col positive
    omega
  obtain ⟨-, elements⟩ := groupValues_spec length inRows start
  have rows := Nat.mul_le_mul_right inDim (show row + 1 ≤ outDim by omega)
  rw [Nat.add_mul, Nat.one_mul] at rows
  have inside : row * inDim + col < values.length := by omega
  have element := elements (col % gs) inGroup
  rw [Nat.add_assoc, offset] at element
  exact ⟨values[row * inDim + col], List.getElem?_eq_getElem inside,
    element.trans (List.getElem?_eq_getElem inside)⟩

/-- No group is empty, and only the last of a row is short. -/
theorem groupValues_cell (positive : 0 < gs) (length : values.length = outDim * inDim)
    {cell : ℕ × ℕ} (member : cell ∈ Blocks.cells outDim ((inDim + gs - 1) / gs)) :
    groupValues values inDim gs cell ≠ [] ∧
      (groupValues values inDim gs cell).length = min gs (inDim - cell.2 * gs) ∧
      cell.2 * gs < inDim := by
  obtain ⟨inRows, inGroups⟩ := Blocks.mem_cells.mp member
  have start := start_lt positive inGroups
  have size := (groupValues_spec length inRows start).1
  refine ⟨fun empty => ?_, size, start⟩
  rw [empty, List.length_nil] at size
  omega

theorem mem_of_mem_groupValues {cell : ℕ × ℕ} {v : R}
    (member : v ∈ groupValues values inDim gs cell) : v ∈ values :=
  List.mem_of_mem_drop (List.mem_of_mem_take member)

theorem packed_getElem? {α : Type} (q : Quantizer R α) (values : List R) (zeros : List α)
    (width step : ℕ) {groups : ℕ} (place : ∀ row g, q.place row g = row * width + g * step)
    (zeroed : zeros.length = outDim * width)
    (fits : ∀ cell ∈ Blocks.cells outDim groups,
      (q.quantize (groupValues values inDim gs cell)).1.length ≤ step ∧
        cell.2 * step + (q.quantize (groupValues values inDim gs cell)).1.length ≤ width)
    {g i : ℕ} {code : α} (inRows : row < outDim) (inGroups : g < groups)
    (there : (q.quantize (groupValues values inDim gs (row, g))).1[i]? = some code) :
    (packed q values inDim gs zeros (Blocks.cells outDim groups)).packed[
      row * width + g * step + i]? = some code := by
  have writes : (Blocks.cells outDim groups).flatMap (groupWrites q values inDim gs) =
      (Blocks.cells outDim groups).flatMap (Blocks.cellWrites
        (fun cell => (q.quantize (groupValues values inDim gs cell)).1) width step) := by
    congr 1
    funext cell
    simp only [groupWrites, Blocks.cellWrites, place]
  unfold packed
  dsimp only
  rw [writes]
  exact Blocks.getElem?_written_cells zeroed fits (Blocks.mem_cells.mpr ⟨inRows, inGroups⟩) there

end Groups

/-! ## One weight -/

section Weight

variable {toLeBytes : ℚ → List UInt8} {decode : List UInt8 → List ℚ} {qmode : CompileQuantMode}
  {loaded : LoadedSource} {name : String} {t : SourceTensor} {q : QuantizedWeight}
  {outDim inDim row col gs : ℕ} {values : List ℚ}

section Companions

variable {α : Type} {groups g : ℕ}

theorem packed_scale (q : Quantizer ℚ α) (values : List ℚ) (inDim gs : ℕ)
    (lossless : ∀ xs, decode (xs.flatMap toLeBytes) = xs) (zeros : List α)
    (inRows : row < outDim) (inGroups : g < groups) :
    (decode ((packed q values inDim gs zeros (Blocks.cells outDim groups)).scales.flatMap
      (F32.exact toLeBytes).toLeBytes))[row * groups + g]? =
      some (q.quantize (groupValues values inDim gs (row, g))).2.1 := by
  rw [show (F32.exact toLeBytes).toLeBytes = toLeBytes from rfl, lossless]
  exact Blocks.getElem?_map_cells _ inRows inGroups

theorem packed_bias (q : Quantizer ℚ α) (values : List ℚ) (inDim gs : ℕ)
    (lossless : ∀ xs, decode (xs.flatMap toLeBytes) = xs) (zeros : List α)
    (inRows : row < outDim) (inGroups : g < groups) :
    (decode ((packed q values inDim gs zeros (Blocks.cells outDim groups)).biases.flatMap
      (F32.exact toLeBytes).toLeBytes))[row * groups + g]? =
      some (q.quantize (groupValues values inDim gs (row, g))).2.2 := by
  rw [show (F32.exact toLeBytes).toLeBytes = toLeBytes from rfl, lossless]
  exact Blocks.getElem?_map_cells _ inRows inGroups

end Companions

/-- The largest scale that values below one can give. -/
def CompileQuantMode.spread : CompileQuantMode → ℚ
  | nf4 _ => 1
  | af8 _ => 2 / 255

/-- The error of a dequantized element, against the single it was quantized from. -/
def Near (decode : List UInt8 → List ℚ) (qmode : CompileQuantMode) (loaded : LoadedSource)
    (name : String) (inDim : ℕ) (values : List ℚ) (row col : ℕ) : Prop :=
  ∃ v x scale, values[row * inDim + col]? = some v ∧
    dequantize decode qmode loaded name inDim row col = some (x, scale) ∧
    |x - v| ≤ qmode.tolerance * scale ∧
    ∀ bound, 1 ≤ bound → (∀ v ∈ values, |v| ≤ bound) → scale ≤ qmode.spread * bound

theorem ScaleBounded.of_group {factor scale : ℚ} {cell : ℕ × ℕ}
    (bounded : ScaleBounded factor scale (groupValues values inDim gs cell)) :
    ∀ bound, 1 ≤ bound → (∀ v ∈ values, |v| ≤ bound) → scale ≤ factor * bound :=
  fun bound one within => bounded.bounded bound one fun v member =>
    within v (mem_of_mem_groupValues member)

theorem near_nf4 (lossless : ∀ xs, decode (xs.flatMap toLeBytes) = xs) (positive : 0 < gs)
    (multiple : 8 ∣ gs) (length : values.length = outDim * inDim)
    (weight : nf4Weight (F32.exact toLeBytes) values outDim inDim gs
      ((inDim + gs - 1) / gs) = .ok q)
    (stored : Stored loaded name t q) (inRows : row < outDim) (inRow : col < inDim) :
    Near decode (.nf4 gs) loaded name inDim values row col := by
  have inGroups := group_lt positive inRow
  obtain ⟨packing, rfl, -, data, -, scales, -⟩ := nf4Weight_ok weight
  obtain ⟨v, source, element⟩ := groupValues_element positive length inRows inRow
  have here : (row, col / gs) ∈ Blocks.cells outDim ((inDim + gs - 1) / gs) :=
    Blocks.mem_cells.mpr ⟨inRows, inGroups⟩
  obtain ⟨words, group, -, errors⟩ :=
    nf4Group_spec toLeBytes (groupValues_cell positive length here).1
  obtain ⟨word, level, there, small, coded, error⟩ := errors (col % gs) v element
  have grouped : (nf4Quantizer (F32.exact toLeBytes) outDim inDim ((inDim + 7) / 8) gs
      ((inDim + gs - 1) / gs)).quantize (groupValues values inDim gs (row, col / gs)) = (words,
        nf4Scale (groupValues values inDim gs (row, col / gs)), 0) := group
  obtain ⟨eighth, rfl⟩ := multiple
  have step : (8 * eighth + 7) / 8 = eighth := by omega
  -- A group starts at a whole word, so its codes stand in a row where the columns say.
  have column : col / (8 * eighth) * eighth + col % (8 * eighth) / 8 = col / 8 ∧
      col % (8 * eighth) % 8 = col % 8 := by
    have whole := Nat.div_add_mod col (8 * eighth)
    have regroup : 8 * eighth * (col / (8 * eighth)) = 8 * (col / (8 * eighth) * eighth) := by
      ring
    omega
  have offset : row * ((inDim + 7) / 8) + col / (8 * eighth) * eighth + col % (8 * eighth) / 8 =
      row * ((inDim + 7) / 8) + col / 8 := by
    rw [Nat.add_assoc, column.1]
  have read := packed_getElem? (nf4Quantizer (F32.exact toLeBytes) outDim inDim
      ((inDim + 7) / 8) (8 * eighth) ((inDim + 8 * eighth - 1) / (8 * eighth)))
    values (List.replicate (outDim * ((inDim + 7) / 8)) 0) ((inDim + 7) / 8) eighth
    (fun row g => by rw [nf4Quantizer, step]) List.length_replicate (fun cell member => by
      obtain ⟨some, size, start⟩ := groupValues_cell positive length member
      obtain ⟨words, group, count, -⟩ := nf4Group_spec toLeBytes some
      have same : ((nf4Quantizer (F32.exact toLeBytes) outDim inDim ((inDim + 7) / 8) (8 * eighth)
          ((inDim + 8 * eighth - 1) / (8 * eighth))).quantize
          (groupValues values inDim (8 * eighth) cell)).1 = words := by
        show (quantizeNf4Group (F32.exact toLeBytes)
          (groupValues values inDim (8 * eighth) cell)).1 = words
        rw [group]
      have regroup : cell.2 * (8 * eighth) = 8 * (cell.2 * eighth) := by ring
      rw [same, count, size]
      omega) inRows inGroups (by rw [grouped]; exact there)
  rw [offset] at read
  refine ⟨v, level * nf4Scale (groupValues values inDim (8 * eighth) (row, col / (8 * eighth))),
    nf4Scale (groupValues values inDim (8 * eighth) (row, col / (8 * eighth))), source, ?_, error,
    (nf4Scale_spec _).1.of_group⟩
  have scaled := packed_scale (nf4Quantizer (F32.exact toLeBytes) outDim inDim
      ((inDim + 7) / 8) (8 * eighth) ((inDim + 8 * eighth - 1) / (8 * eighth)))
    values inDim (8 * eighth) lossless (List.replicate (outDim * ((inDim + 7) / 8)) 0) inRows inGroups
  rw [← scales, grouped] at scaled
  have stored' : LittleEndian.decode (((t.requantized q).data.drop
      ((row * ((inDim + 7) / 8) + col / 8) * 4)).take 4) = word := by
    rw [SourceTensor.requantized, data,
      Blocks.take_drop_flatMap (LittleEndian.length_encode 4) read,
      LittleEndian.decode_encode 4 word (by omega)]
  rw [column.2] at coded
  simp only [dequantize, stored.weight, stored.scales, stored.biases, Option.bind_eq_bind,
    Option.bind_some, CompileQuantMode.groupsPerRow, CompileQuantMode.groupSize, companion, scaled,
    stored', coded]
  rfl

theorem near_af8 (lossless : ∀ xs, decode (xs.flatMap toLeBytes) = xs) (positive : 0 < gs)
    (length : values.length = outDim * inDim)
    (weight : af8Weight (F32.exact toLeBytes) values outDim inDim gs
      ((inDim + gs - 1) / gs) = .ok q)
    (stored : Stored loaded name t q) (inRows : row < outDim) (inRow : col < inDim) :
    Near decode (.af8 gs) loaded name inDim values row col := by
  have inGroups := group_lt positive inRow
  obtain ⟨packing, rfl, -, data, -, scales, biases, -⟩ := af8Weight_ok weight
  obtain ⟨v, source, element⟩ := groupValues_element positive length inRows inRow
  have here : (row, col / gs) ∈ Blocks.cells outDim ((inDim + gs - 1) / gs) :=
    Blocks.mem_cells.mpr ⟨inRows, inGroups⟩
  obtain ⟨codes, group, -, errors⟩ :=
    af8Group_spec toLeBytes (groupValues_cell positive length here).1
  obtain ⟨code, coded, error⟩ := errors (col % gs) v element
  have offset : row * inDim + col / gs * gs + col % gs = row * inDim + col := by
    rw [Nat.add_assoc, Nat.mul_comm (col / gs), Nat.div_add_mod]
  have read := packed_getElem? (af8Quantizer (F32.exact toLeBytes) inDim gs) values
    (List.replicate (outDim * inDim) 0) inDim gs (fun _ _ => rfl) List.length_replicate (fun cell member => by
      obtain ⟨some, size, start⟩ := groupValues_cell positive length member
      obtain ⟨codes, group, count, -⟩ := af8Group_spec toLeBytes some
      have same : ((af8Quantizer (F32.exact toLeBytes) inDim gs).quantize
          (groupValues values inDim gs cell)).1 = codes := by
        show (quantizeAf8Group (F32.exact toLeBytes) (groupValues values inDim gs cell)).1 = codes
        rw [group]
      rw [same, count, size]
      omega) inRows inGroups (by
      show (quantizeAf8Group (F32.exact toLeBytes)
        (groupValues values inDim gs (row, col / gs))).1[col % gs]? = some code
      rw [group]
      exact coded)
  rw [offset] at read
  -- What is left is that the dequantized element is read from the code and its group's companions.
  refine ⟨v, code.toNat * af8Scale (groupValues values inDim gs (row, col / gs)) +
    af8Bias (groupValues values inDim gs (row, col / gs)),
    af8Scale (groupValues values inDim gs (row, col / gs)), source, ?_, error,
    (af8Scale_spec _).1.of_group⟩
  have grouped : (af8Quantizer (F32.exact toLeBytes) inDim gs).quantize
      (groupValues values inDim gs (row, col / gs)) = (codes,
        af8Scale (groupValues values inDim gs (row, col / gs)),
        af8Bias (groupValues values inDim gs (row, col / gs))) := group
  have scaled := packed_scale (af8Quantizer (F32.exact toLeBytes) inDim gs) values inDim gs lossless
    (List.replicate (outDim * inDim) 0) inRows inGroups
  have biased := packed_bias (af8Quantizer (F32.exact toLeBytes) inDim gs) values inDim gs lossless
    (List.replicate (outDim * inDim) 0) inRows inGroups
  rw [← scales, grouped] at scaled
  rw [← biases, grouped] at biased
  have stored' : (t.requantized q).data[row * inDim + col]? = some code := by
    rw [SourceTensor.requantized, data]
    exact read
  simp only [dequantize, stored.weight, stored.scales, stored.biases, Option.bind_eq_bind,
    Option.bind_some, CompileQuantMode.groupsPerRow, CompileQuantMode.groupSize, companion, scaled,
    biased, stored']
  rfl

theorem near_of_ok (lossless : ∀ xs, decode (xs.flatMap toLeBytes) = xs)
    (multiple : 8 ∣ qmode.groupSize)
    (length : (f32Vals (F32.exact toLeBytes) t.dtype t.data).length = outDim * inDim)
    (ok : quantizeMatrix (F32.exact toLeBytes) qmode t.dtype t.data outDim inDim = .ok q)
    (stored : Stored loaded name t q) (inRows : row < outDim) (inRow : col < inDim) :
    Near decode qmode loaded name inDim (f32Vals (F32.exact toLeBytes) t.dtype t.data) row col := by
  obtain ⟨nonzero, weight⟩ := quantizeMatrix_ok ok
  have positive := Nat.pos_of_ne_zero nonzero
  cases qmode with
  | nf4 gs => exact near_nf4 lossless positive multiple length weight stored inRows inRow
  | af8 gs => exact near_af8 lossless positive length weight stored inRows inRow

end Weight

/-! ## The law -/

theorem length_halves : ∀ raw : List UInt8, (halves raw).length = raw.length / 2
  | [] => rfl
  | [_] => by simp [halves]
  | _ :: _ :: rest => by
    rw [halves, List.length_cons, length_halves rest, List.length_cons, List.length_cons]
    omega

/-- Every element of a tensor of halves is a number. -/
def SourceTensor.IsFinite (t : SourceTensor) : Prop :=
  ∀ bits ∈ halves t.data,
    if t.dtype = "BF16" then Ieee.Finite 8 7 bits else Ieee.Finite 5 10 bits

instance (t : SourceTensor) : Decidable t.IsFinite := by
  unfold SourceTensor.IsFinite
  exact inferInstance

section Law

variable {toLeBytes : ℚ → List UInt8} {decode : List UInt8 → List ℚ} {qmode : CompileQuantMode}
  {loaded loaded' : LoadedSource} {name : String} {t : SourceTensor} {outDim inDim : ℕ}

theorem f32Vals_getElem? {i bits : ℕ} (there : (halves t.data)[i]? = some bits) :
    (f32Vals (F32.exact toLeBytes) t.dtype t.data)[i]? =
      some (if t.dtype = "BF16" then Ieee.value 8 7 bits
        else halfToF32 (F32.exact toLeBytes) bits) := by
  unfold f32Vals
  split
  · rw [List.getElem?_map, there, Option.map_some]
    exact congrArg some (value_bf16 bits)
  · rw [List.getElem?_map, there, Option.map_some]

theorem element_eq {i bits : ℕ} (there : (halves t.data)[i]? = some bits) :
    t.element i = if t.dtype = "BF16" then Ieee.value 8 7 bits else Ieee.value 5 10 bits := by
  rw [SourceTensor.element, List.getD_eq_getElem?_getD, there, Option.getD_some]

theorem tolerance_spread (qmode : CompileQuantMode) :
    0 ≤ qmode.tolerance ∧ 2 * qmode.tolerance * (qmode.spread * 2 ^ 65) + 1 < 2 ^ 64 := by
  cases qmode with
  | nf4 gs =>
    rw [CompileQuantMode.tolerance, CompileQuantMode.spread, largestGap_eq]
    norm_num
  | af8 gs =>
    rw [CompileQuantMode.tolerance, CompileQuantMode.spread]
    norm_num

theorem length_f32Vals (sized : t.data.length = outDim * inDim * 2) :
    (f32Vals (F32.exact toLeBytes) t.dtype t.data).length = outDim * inDim := by
  have count : (halves t.data).length = outDim * inDim := by
    rw [length_halves, sized, Nat.mul_div_cancel _ (by decide)]
  unfold f32Vals
  split <;> rw [List.length_map, count]

/-- A subnormal is converted to a value far from its own, and then quantized. -/
theorem not_accurate_of_subnormal (lossless : ∀ xs, decode (xs.flatMap toLeBytes) = xs)
    (multiple : 8 ∣ qmode.groupSize)
    (ok : applyQuantizeToLoaded (F32.exact toLeBytes) loaded qmode = .ok loaded')
    (weight : name ∈ weightBindings loaded.spec)
    (source : loaded.sourceTensors.lookup name = some t) (matrix : t.IsMatrix outDim inDim)
    (sized : t.data.length = outDim * inDim * 2) (finite : t.IsFinite) (f16 : t.dtype = "F16")
    {bits : ℕ} (member : bits ∈ halves t.data) (subnormal : Ieee.Subnormal 5 10 bits) :
    ¬Accurate decode qmode loaded' name t outDim inDim := by
  intro accurate
  obtain ⟨q, quantized, stored⟩ := stored_of_isMatrix ok weight source matrix
  have near := fun row col (inRows : row < outDim) (inRow : col < inDim) =>
    near_of_ok lossless multiple (length_f32Vals sized) quantized stored inRows inRow
  obtain ⟨i, there⟩ := List.mem_iff_getElem?.mp member
  have inside := (List.getElem?_eq_some_iff.mp there).1
  rw [length_halves, sized, Nat.mul_div_cancel _ (by decide)] at inside
  have columns : 0 < inDim := by
    apply Nat.pos_of_ne_zero
    rintro rfl
    omega
  have position : i / inDim * inDim + i % inDim = i := by
    rw [Nat.mul_comm]
    exact Nat.div_add_mod i inDim
  obtain ⟨v, x, scale, single, read, error, bounded⟩ := near (i / inDim) (i % inDim)
    (Nat.div_lt_of_lt_mul (by rwa [Nat.mul_comm])) (Nat.mod_lt i columns)
  obtain ⟨x', scale', read', error'⟩ := accurate (i / inDim)
    (Nat.div_lt_of_lt_mul (by rwa [Nat.mul_comm])) (i % inDim) (Nat.mod_lt i columns)
  rw [read] at read'
  obtain ⟨rfl, rfl⟩ := Prod.mk.inj (Option.some.inj read')
  have notBf16 : ¬t.dtype = "BF16" := by
    rw [f16]
    decide
  rw [position] at single error'
  rw [f32Vals_getElem? there, if_neg notBf16] at single
  rw [element_eq there, if_neg notBf16] at error'
  have large := abs_halfToF32_of_subnormal toLeBytes subnormal
  have tiny := abs_value_of_subnormal subnormal
  have within : ∀ w ∈ f32Vals (F32.exact toLeBytes) t.dtype t.data, |w| ≤ 2 ^ 65 := by
    intro w member
    rw [f32Vals, if_neg notBf16] at member
    obtain ⟨other, among, rfl⟩ := List.mem_map.mp member
    have number := finite other among
    rw [if_neg notBf16] at number
    exact abs_halfToF32_le number
  obtain ⟨nonneg, gap⟩ := tolerance_spread qmode
  have scaled := mul_le_mul_of_nonneg_left (bounded (2 ^ 65) (by norm_num) within) nonneg
  obtain rfl := Option.some.inj single
  -- One dequantized value cannot be near both the converted and the true one.
  have apart : |halfToF32 (F32.exact toLeBytes) bits| ≤
      |x - halfToF32 (F32.exact toLeBytes) bits| + |x - Ieee.value 5 10 bits| +
        |Ieee.value 5 10 bits| := by
    have far := abs_sub_abs_le_abs_sub (halfToF32 (F32.exact toLeBytes) bits)
      (Ieee.value 5 10 bits)
    have between := abs_sub_le (halfToF32 (F32.exact toLeBytes) bits) x (Ieee.value 5 10 bits)
    rw [abs_sub_comm _ x] at between
    linarith
  linarith

/-- Dequantized weights are within the tolerance of the source, exactly when there is no
half-precision subnormal in it. -/
theorem accurate_iff (lossless : ∀ xs, decode (xs.flatMap toLeBytes) = xs)
    (multiple : 8 ∣ qmode.groupSize)
    (ok : applyQuantizeToLoaded (F32.exact toLeBytes) loaded qmode = .ok loaded')
    (weight : name ∈ weightBindings loaded.spec)
    (source : loaded.sourceTensors.lookup name = some t) (matrix : t.IsMatrix outDim inDim)
    (sized : t.data.length = outDim * inDim * 2) (finite : t.IsFinite) :
    Accurate decode qmode loaded' name t outDim inDim ↔
      (t.dtype = "F16" → ∀ bits ∈ halves t.data, ¬Ieee.Subnormal 5 10 bits) := by
  constructor
  · intro accurate f16 bits member subnormal
    exact not_accurate_of_subnormal lossless multiple ok weight source matrix sized finite f16
      member subnormal accurate
  · intro normal row inRows col inRow
    obtain ⟨q, quantized, stored⟩ := stored_of_isMatrix ok weight source matrix
    obtain ⟨v, x, scale, single, read, error, -⟩ := near_of_ok lossless multiple
      (length_f32Vals sized) quantized stored inRows inRow
    refine ⟨x, scale, read, ?_⟩
    have inside : row * inDim + col < (halves t.data).length := by
      have rows := Nat.mul_le_mul_right inDim (show row + 1 ≤ outDim by omega)
      rw [Nat.add_mul, Nat.one_mul] at rows
      rw [length_halves, sized]
      omega
    have there := List.getElem?_eq_getElem inside
    generalize (halves t.data)[row * inDim + col] = bits at there
    have member := List.mem_of_getElem? there
    rw [f32Vals_getElem? there] at single
    have same : v = t.element (row * inDim + col) := by
      rw [element_eq there, ← Option.some.inj single]
      split
      next => rfl
      next notBf16 =>
        have number := finite bits member
        rw [if_neg notBf16] at number
        exact halfToF32_of_not_subnormal number
          (normal (matrix.1.resolve_right notBf16) bits member)
    rwa [← same]

end Law

/-! ## A storage without loss -/

/-- A number as a run of ones, closed by a zero. -/
def unaryBytes (x : ℚ) : List UInt8 := List.replicate (Encodable.encode x) 1 ++ [0]

/-- The numbers of closed runs; `n` is the length of the run so far. -/
def unaryDecode (n : ℕ) : List UInt8 → List ℚ
  | [] => []
  | b :: rest =>
    if b = 0 then (Encodable.decode (α := ℚ) n).toList ++ unaryDecode 0 rest
    else unaryDecode (n + 1) rest

theorem unaryDecode_replicate (n m : ℕ) (rest : List UInt8) :
    unaryDecode n (List.replicate m 1 ++ rest) = unaryDecode (n + m) rest := by
  induction m generalizing n with
  | zero => rfl
  | succ m ih =>
    rw [List.replicate_succ, List.cons_append, unaryDecode, if_neg (by decide), ih,
      Nat.add_right_comm, Nat.add_assoc]

theorem unaryDecode_flatMap (xs : List ℚ) : unaryDecode 0 (xs.flatMap unaryBytes) = xs := by
  induction xs with
  | nil => rfl
  | cons x xs ih =>
    rw [List.flatMap_cons, unaryBytes, List.append_assoc, unaryDecode_replicate, Nat.zero_add,
      List.singleton_append, unaryDecode, if_pos rfl, ih, Encodable.encodek]
    rfl

/-! ## A projection with a subnormal -/

def smallProjection (bytes : List UInt8) : SourceTensor where
  name := "model.layers.0.self_attn.q_proj.weight"
  dtype := "F16"
  shape := [2, 2]
  data := bytes
  sourceFilename := "model.safetensors"
  sourceSha256 := ""
  sourceOffset := 24

def smallQuantized (bytes : List UInt8) : Outcome LoadedSource :=
  (smallLoaded "F16" bytes).bind fun loaded =>
    applyQuantizeToLoaded (F32.exact unaryBytes) loaded (.nf4 64)

/-- One, minus a half, a quarter and zero. -/
def normalBytes : List UInt8 := [0x00, 0x3c, 0x00, 0xb8, 0x00, 0x34, 0x00, 0x00]

def subnormalBytes : List UInt8 := [0x00, 0x3c, 0x00, 0xb8, 0x00, 0x34, 0x01, 0x00]

theorem smallLoaded_projection {bytes : List UInt8} {loaded : LoadedSource}
    (checked : ((smallLoaded "F16" bytes).toOption.any fun loaded =>
      (weightBindings loaded.spec).contains (smallProjection bytes).name &&
        (loaded.sourceTensors.lookup (smallProjection bytes).name) ==
          some (smallProjection bytes)) = true)
    (read : smallLoaded "F16" bytes = .ok loaded) :
    (smallProjection bytes).name ∈ weightBindings loaded.spec ∧
      loaded.sourceTensors.lookup (smallProjection bytes).name = some (smallProjection bytes) := by
  rw [read] at checked
  simpa [Except.toOption] using checked

theorem normalBytes_accurate : ∃ loaded', smallQuantized normalBytes = .ok loaded' ∧
    Accurate (unaryDecode 0) (.nf4 64) loaded' "model.layers.0.self_attn.q_proj.weight"
      (smallProjection normalBytes) 2 2 := by
  have run : (smallQuantized normalBytes).toOption.isSome = true := by decide +kernel
  obtain ⟨loaded', whole⟩ := Outcome.exists_ok_of_isSome run
  obtain ⟨loaded, read, ok⟩ := Outcome.bind_ok_iff.mp whole
  obtain ⟨weight, source⟩ := smallLoaded_projection (by decide +kernel) read
  exact ⟨loaded', whole, (accurate_iff unaryDecode_flatMap (by decide) ok weight source
    ⟨.inl rfl, rfl⟩ rfl (by decide)).mpr fun _ => by decide⟩

/-- The subnormal comes back as a value beyond all bounds. -/
theorem subnormalBytes_not_accurate : ∃ loaded', smallQuantized subnormalBytes = .ok loaded' ∧
    ¬Accurate (unaryDecode 0) (.nf4 64) loaded' "model.layers.0.self_attn.q_proj.weight"
      (smallProjection subnormalBytes) 2 2 := by
  have run : (smallQuantized subnormalBytes).toOption.isSome = true := by decide +kernel
  obtain ⟨loaded', whole⟩ := Outcome.exists_ok_of_isSome run
  obtain ⟨loaded, read, ok⟩ := Outcome.bind_ok_iff.mp whole
  obtain ⟨weight, source⟩ := smallLoaded_projection (by decide +kernel) read
  exact ⟨loaded', whole, not_accurate_of_subnormal unaryDecode_flatMap (by decide) ok weight source
    ⟨.inl rfl, rfl⟩ rfl (by decide) rfl (show 1 ∈ halves subnormalBytes by decide) (by decide)⟩

end TribunusCompute.ComputeImage
