import TribunusCompute.ComputeImage.LayoutTransform
import TribunusCompute.Library.Blocks

/-!
# Prepacked weights are read back

A blocked transposition reaches every cell once. The groups of all rows, one after another, are
numbered; group `g` has its weights at `g * groupSize` and its block at `g * (groupSize + 8)`.
-/
namespace TribunusCompute.LayoutTransform

open Outcome

/-! ## Copies one after another -/

section Copies

variable {front back piece more : List UInt8} {dst : List UInt8} {at_ : ℕ}

theorem copyInto_cons (byte : UInt8) :
    copyInto dst at_ (byte :: piece) = copyInto (dst.set at_ byte) (at_ + 1) piece := by
  -- The indices of what is left start at one; they are counted from the next position instead.
  have shift : ∀ (dst : List UInt8) (start i : ℕ),
      (piece.zipIdx (i + 1)).foldl (fun dst byte => dst.set (start + byte.2) byte.1) dst =
        (piece.zipIdx i).foldl (fun dst byte => dst.set (start + 1 + byte.2) byte.1) dst := by
    induction piece with
    | nil => intros; rfl
    | cons next piece ih =>
      intro dst start i
      simp only [List.zipIdx_cons, List.foldl_cons]
      rw [ih, Nat.add_right_comm, Nat.add_assoc start i 1]
  simp only [copyInto, List.zipIdx_cons, List.foldl_cons, Nat.add_zero]
  exact shift (dst.set at_ byte) at_ 0

theorem copyInto_append :
    copyInto dst at_ (piece ++ more) = copyInto (copyInto dst at_ piece) (at_ + piece.length) more := by
  induction piece generalizing dst at_ with
  | nil => rfl
  | cons byte piece ih =>
    rw [List.cons_append, copyInto_cons, ih, copyInto_cons, List.length_cons, Nat.add_assoc,
      Nat.add_comm 1]

theorem copyInto_after (room : piece.length ≤ back.length) :
    copyInto (front ++ back) front.length piece = front ++ (piece ++ back.drop piece.length) := by
  induction piece generalizing front back with
  | nil => simp [copyInto]
  | cons byte piece ih =>
    cases back with
    | nil => cases room
    | cons old back =>
      have inside : piece.length ≤ back.length := Nat.le_of_succ_le_succ room
      have written : (front ++ old :: back).set front.length byte = (front ++ [byte]) ++ back := by
        simp
      have next : front.length + 1 = (front ++ [byte]).length := by simp
      rw [copyInto_cons, written, next, ih inside]
      simp

theorem length_flatMap_range {piece : ℕ → List UInt8} {width count : ℕ}
    (uniform : ∀ g < count, (piece g).length = width) :
    ((List.range count).flatMap piece).length = count * width := by
  have lengths : (List.range count).map (fun g => (piece g).length) =
      List.replicate count width := by
    rw [List.eq_replicate_iff]
    constructor
    · simp
    · simpa using uniform
  rw [List.length_flatMap, lengths, List.sum_replicate_nat]

theorem slice_flatMap_range {piece : ℕ → List UInt8} {width count g start length : ℕ}
    (uniform : ∀ g < count, (piece g).length = width) (inside : g < count)
    (within : start + length ≤ width) :
    Tiling.slice ((List.range count).flatMap piece) (g * width + start) length =
      Tiling.slice (piece g) start length := by
  obtain ⟨rest, rfl⟩ : ∃ rest, count = g + (rest + 1) := ⟨count - g - 1, by omega⟩
  have before := length_flatMap_range fun g' less => uniform g' (Nat.lt_trans less inside)
  have here := uniform g inside
  rw [List.range_add, List.flatMap_append, List.range_succ_eq_map, List.map_cons, Nat.add_zero,
    List.flatMap_cons, Tiling.slice, Tiling.slice, ← before, List.drop_length_add_append,
    List.drop_append_of_le_length (by omega), List.take_append_of_le_length]
  rw [List.length_drop]
  omega

theorem foldl_copyInto {piece : ℕ → List UInt8} {width count : ℕ}
    (uniform : ∀ g < count, (piece g).length = width) (room : count * width ≤ dst.length) :
    (List.range count).foldl (fun dst g => copyInto dst (g * width) (piece g)) dst =
      (List.range count).flatMap piece ++ dst.drop (count * width) := by
  induction count with
  | zero => simp
  | succ count ih =>
    rw [Nat.add_mul, Nat.one_mul] at room ⊢
    have here := uniform count (Nat.lt_succ_self count)
    have earlier : ∀ g < count, (piece g).length = width :=
      fun g less => uniform g (Nat.lt_succ_of_lt less)
    have length := length_flatMap_range earlier
    rw [List.range_succ, List.foldl_append, ih earlier (by omega), List.flatMap_append]
    simp only [List.foldl_cons, List.foldl_nil]
    rw [← length, copyInto_after (by rw [List.length_drop]; omega), List.drop_drop, here, length]
    simp

theorem foldl_set {α : Type} {entries : List α} {entry : ℕ → α} {count : ℕ}
    (room : count ≤ entries.length) :
    (List.range count).foldl (fun entries g => entries.set g (entry g)) entries =
      (List.range count).map entry ++ entries.drop count := by
  induction count with
  | zero => simp
  | succ count ih =>
    rw [List.range_succ, List.foldl_append, ih (by omega), List.map_append]
    simp only [List.foldl_cons, List.foldl_nil]
    have inside : count < entries.length := by omega
    rw [List.set_append_right _ _ (by simp), List.length_map, List.length_range, Nat.sub_self,
      List.drop_eq_getElem_cons inside, List.set_cons_zero, List.append_assoc]
    rfl

theorem foldl_three {α β γ δ : Type} {fs : List δ} {f : α → δ → α} {g : β → δ → β} {h : γ → δ → γ}
    (a : α) (b : β) (c : γ) :
    fs.foldl (fun s d => (f s.1 d, g s.2.1 d, h s.2.2 d)) (a, b, c) =
      (fs.foldl f a, fs.foldl g b, fs.foldl h c) := by
  induction fs generalizing a b c with
  | nil => rfl
  | cons d fs ih => exact ih (f a d) (g b d) (h c d)

/-- A loop over rows and their groups is one loop over the groups of all rows. -/
theorem foldl_groups {σ : Type} {turn : σ → ℕ → σ} {rows groups : ℕ} (start : σ) :
    (List.range rows).foldl (fun s row =>
        (List.range groups).foldl (fun s group => turn s (row * groups + group)) s) start =
      (List.range (rows * groups)).foldl turn start := by
  induction rows with
  | zero => simp
  | succ rows ih =>
    rw [List.range_succ, List.foldl_append, ih, Nat.add_mul, Nat.one_mul, List.range_add,
      List.foldl_append, List.foldl_map]
    rfl

theorem flatMap_slices {src : List UInt8} {width count : ℕ} (length : src.length = count * width) :
    ((List.range count).flatMap fun g => Tiling.slice src (g * width) width) = src := by
  have cut : ∀ m ≤ count, ((List.range m).flatMap fun g => Tiling.slice src (g * width) width) =
      src.take (m * width) := by
    intro m inside
    induction m with
    | zero => simp
    | succ m ih =>
      rw [List.range_succ, List.flatMap_append, ih (by omega), Nat.add_mul, Nat.one_mul,
        List.take_add]
      simp [Tiling.slice]
  rw [cut count le_rfl, ← length, List.take_length]

end Copies

/-! ## Groups and their blocks -/

section Groups

variable {src weight packed : List UInt8} {scales biases : List UInt32} {groups n groupSize : ℕ}

def groupBlock (weight : List UInt8) (scales biases : List UInt32) (groupSize group : ℕ) :
    List UInt8 :=
  Tiling.slice weight (group * groupSize) groupSize ++
    (LittleEndian.encode 4 (scales.getD group 0).toNat ++
      LittleEndian.encode 4 (biases.getD group 0).toNat)

/-- The three copies that interleaving makes for a group. -/
def copyGroup (weight : List UInt8) (scales biases : List UInt32) (groupSize : ℕ)
    (packed : List UInt8) (group : ℕ) : List UInt8 :=
  let off := group * (groupSize + 8)
  let packed := copyInto packed off (Tiling.slice weight (group * groupSize) groupSize)
  let packed := copyInto packed (off + groupSize)
    (LittleEndian.encode 4 (scales.getD group 0).toNat)
  copyInto packed (off + groupSize + 4) (LittleEndian.encode 4 (biases.getD group 0).toNat)

theorem groupStart (row group : ℕ) :
    row * (groups * groupSize) + group * groupSize = (row * groups + group) * groupSize := by
  ring

theorem length_slice_group (length : src.length = n * (groups * groupSize)) {group : ℕ}
    (inside : group < n * groups) :
    (Tiling.slice src (group * groupSize) groupSize).length = groupSize := by
  have last : (group + 1) * groupSize ≤ n * groups * groupSize :=
    Nat.mul_le_mul_right groupSize inside
  rw [Nat.add_mul, Nat.one_mul, Nat.mul_assoc, ← length] at last
  rw [Tiling.slice, List.length_take, List.length_drop]
  omega

theorem length_groupBlock (length : weight.length = n * (groups * groupSize)) {group : ℕ}
    (inside : group < n * groups) :
    (groupBlock weight scales biases groupSize group).length = groupSize + 8 := by
  simp [groupBlock, length_slice_group length inside]

theorem copyGroup_eq (length : weight.length = n * (groups * groupSize)) {group : ℕ}
    (inside : group < n * groups) :
    copyGroup weight scales biases groupSize packed group =
      copyInto packed (group * (groupSize + 8)) (groupBlock weight scales biases groupSize group) := by
  rw [groupBlock, copyInto_append, copyInto_append, length_slice_group length inside,
    LittleEndian.length_encode, copyGroup]

theorem foldl_copyInto_slices (length : src.length = n * (groups * groupSize)) :
    (List.range (n * groups)).foldl (fun dst group => copyInto dst (group * groupSize)
      (Tiling.slice src (group * groupSize) groupSize))
        (List.replicate (n * (groups * groupSize)) 0) = src := by
  have room : n * groups * groupSize ≤
      (List.replicate (n * (groups * groupSize)) (0 : UInt8)).length := by
    rw [List.length_replicate, Nat.mul_assoc]
  rw [foldl_copyInto (fun group => length_slice_group length) room,
    flatMap_slices (length.trans (Nat.mul_assoc n groups groupSize).symm),
    List.drop_eq_nil_of_le (by rw [List.length_replicate, Nat.mul_assoc]), List.append_nil]

theorem foldl_set_getD {entries : List UInt32} {count : ℕ} (length : entries.length = count) :
    (List.range count).foldl (fun set group => set.set group (entries.getD group 0))
      (List.replicate count 0) = entries := by
  rw [foldl_set (by rw [List.length_replicate]),
    List.drop_eq_nil_of_le (by rw [List.length_replicate]), List.append_nil]
  apply List.ext_getElem
  · simp [length]
  · intro group inside inside'
    simp [List.getElem?_eq_getElem inside']

/-- Groups that are contiguous already stay where they are. -/
theorem reorderGroupsNeon_eq (positive : groupSize ≠ 0)
    (length : src.length = n * (groups * groupSize)) :
    reorderGroupsNeon src (groups * groupSize) n groupSize = .ok src := by
  have divides : groups * groupSize % groupSize = 0 := Nat.mul_mod_left groups groupSize
  have quotient : groups * groupSize / groupSize = groups :=
    Nat.mul_div_cancel groups (Nat.pos_of_ne_zero positive)
  refine bind_ok_iff.mpr ⟨(), assert_ok_iff.mpr length, bind_ok_iff.mpr
    ⟨(), assert_ok_iff.mpr ⟨positive, divides⟩, ?_⟩⟩
  simp only [quotient, groupStart]
  apply congrArg Except.ok
  refine (@foldl_groups _ (fun dst group => copyInto dst (group * groupSize)
    (Tiling.slice src (group * groupSize) groupSize)) n groups _).trans ?_
  exact foldl_copyInto_slices length

theorem interleaveScalesBiases_eq (positive : groupSize ≠ 0)
    (length : weight.length = n * (groups * groupSize)) (scaled : scales.length = n * groups)
    (biased : biases.length = n * groups) :
    interleaveScalesBiases weight scales biases (groups * groupSize) n groupSize =
      .ok ((List.range (n * groups)).flatMap (groupBlock weight scales biases groupSize)) := by
  have quotient : groups * groupSize / groupSize = groups :=
    Nat.mul_div_cancel groups (Nat.pos_of_ne_zero positive)
  refine bind_ok_iff.mpr ⟨groups, quotient_ok_iff.mpr ⟨positive, quotient⟩, bind_ok_iff.mpr
    ⟨(), assert_ok_iff.mpr length, bind_ok_iff.mpr ⟨(), assert_ok_iff.mpr scaled,
      bind_ok_iff.mpr ⟨(), assert_ok_iff.mpr biased, ?_⟩⟩⟩⟩
  simp only [groupStart]
  apply congrArg Except.ok
  refine (@foldl_groups _ (copyGroup weight scales biases groupSize) n groups _).trans ?_
  have room : n * groups * (groupSize + 8) ≤
      (List.replicate (n * groups * (groupSize + 8)) (0 : UInt8)).length := by
    rw [List.length_replicate]
  have joined := List.foldl_ext (copyGroup weight scales biases groupSize)
    (fun packed group => copyInto packed (group * (groupSize + 8))
      (groupBlock weight scales biases groupSize group))
    (List.replicate (n * groups * (groupSize + 8)) 0)
    fun packed group member => copyGroup_eq length (List.mem_range.mp member)
  rw [joined, foldl_copyInto (fun group => length_groupBlock length) room,
    List.drop_eq_nil_of_le (by rw [List.length_replicate]), List.append_nil]

def groupWeights (packed : List UInt8) (groupSize group : ℕ) : List UInt8 :=
  Tiling.slice packed (group * (groupSize + 8)) groupSize

/-- A single of a group's block in an interleaved buffer. -/
def groupFloat (packed : List UInt8) (groupSize start group : ℕ) : UInt32 :=
  UInt32.ofNat (LittleEndian.decode
    (Tiling.slice packed (group * (groupSize + 8) + start) 4))

def readGroup (packed : List UInt8) (groupSize : ℕ)
    (unpacked : List UInt8 × List UInt32 × List UInt32) (group : ℕ) :
    List UInt8 × List UInt32 × List UInt32 :=
  (copyInto unpacked.1 (group * groupSize) (groupWeights packed groupSize group),
    unpacked.2.1.set group (groupFloat packed groupSize groupSize group),
    unpacked.2.2.set group (groupFloat packed groupSize (groupSize + 4) group))

section Parts

variable {group : ℕ}
  (block : ∀ start length, start + length ≤ groupSize + 8 →
    Tiling.slice packed (group * (groupSize + 8) + start) length =
      Tiling.slice (groupBlock weight scales biases groupSize group) start length)
  (width : (Tiling.slice weight (group * groupSize) groupSize).length = groupSize)

include block width

theorem groupWeights_eq : groupWeights packed groupSize group =
    Tiling.slice weight (group * groupSize) groupSize := by
  have slices := Tiling.slice_append_append [] (Tiling.slice weight (group * groupSize) groupSize)
    (LittleEndian.encode 4 (scales.getD group 0).toNat ++
      LittleEndian.encode 4 (biases.getD group 0).toNat)
  rw [width] at slices
  exact (block 0 groupSize (by omega)).trans slices

theorem groupFloat_scale :
    groupFloat packed groupSize groupSize group = scales.getD group 0 := by
  have slices := Tiling.slice_append_append (Tiling.slice weight (group * groupSize) groupSize)
    (LittleEndian.encode 4 (scales.getD group 0).toNat)
    (LittleEndian.encode 4 (biases.getD group 0).toNat)
  rw [width, LittleEndian.length_encode] at slices
  rw [groupFloat, block groupSize 4 (by omega), groupBlock, slices,
    LittleEndian.decode_encode 4 _ (UInt32.toNat_lt _), UInt32.ofNat_toNat]

theorem groupFloat_bias :
    groupFloat packed groupSize (groupSize + 4) group = biases.getD group 0 := by
  have slices := Tiling.slice_append_append (Tiling.slice weight (group * groupSize) groupSize ++
    LittleEndian.encode 4 (scales.getD group 0).toNat)
    (LittleEndian.encode 4 (biases.getD group 0).toNat) []
  rw [List.length_append, width, LittleEndian.length_encode, LittleEndian.length_encode,
    List.append_nil, List.append_assoc] at slices
  rw [groupFloat, block (groupSize + 4) 4 (by omega), groupBlock, slices,
    LittleEndian.decode_encode 4 _ (UInt32.toNat_lt _), UInt32.ofNat_toNat]

end Parts

theorem uninterleaveScalesBiases_eq (positive : groupSize ≠ 0)
    (length : weight.length = n * (groups * groupSize)) (scaled : scales.length = n * groups)
    (biased : biases.length = n * groups) :
    uninterleaveScalesBiases
        ((List.range (n * groups)).flatMap (groupBlock weight scales biases groupSize))
        (groups * groupSize) n groupSize = .ok (weight, scales, biases) := by
  have quotient : groups * groupSize / groupSize = groups :=
    Nat.mul_div_cancel groups (Nat.pos_of_ne_zero positive)
  have uniform : ∀ group < n * groups,
      (groupBlock weight scales biases groupSize group).length = groupSize + 8 :=
    fun group => length_groupBlock length
  have packedLength := length_flatMap_range uniform
  refine bind_ok_iff.mpr ⟨groups, quotient_ok_iff.mpr ⟨positive, quotient⟩, bind_ok_iff.mpr
    ⟨(), assert_ok_iff.mpr packedLength, ?_⟩⟩
  generalize packedIs : (List.range (n * groups)).flatMap
    (groupBlock weight scales biases groupSize) = packed
  simp only [groupStart]
  apply congrArg Except.ok
  refine (@foldl_groups _ (readGroup packed groupSize) n groups _).trans ?_
  refine (@foldl_three _ _ _ _ _
    (fun weight group => copyInto weight (group * groupSize) (groupWeights packed groupSize group))
    (fun (scales : List UInt32) group =>
      scales.set group (groupFloat packed groupSize groupSize group))
    (fun (biases : List UInt32) group =>
      biases.set group (groupFloat packed groupSize (groupSize + 4) group))
    _ _ _).trans ?_
  -- Each of the three buffers is filled with what the blocks hold.
  have block : ∀ group ∈ List.range (n * groups), ∀ start length, start + length ≤ groupSize + 8 →
      Tiling.slice packed (group * (groupSize + 8) + start) length =
        Tiling.slice (groupBlock weight scales biases groupSize group) start length := by
    intro group member start length within
    rw [← packedIs]
    exact slice_flatMap_range uniform (List.mem_range.mp member) within
  have weights := List.foldl_ext _ _ (List.replicate (n * (groups * groupSize)) 0)
    fun dst group member => congrArg (copyInto dst (group * groupSize))
      (groupWeights_eq (block group member) (length_slice_group length (List.mem_range.mp member)))
  have scaleEntries := List.foldl_ext _ _ (List.replicate (n * groups) 0)
    fun entries group member => congrArg (List.set entries group)
      (groupFloat_scale (block group member) (length_slice_group length (List.mem_range.mp member)))
  have biasEntries := List.foldl_ext _ _ (List.replicate (n * groups) 0)
    fun entries group member => congrArg (List.set entries group)
      (groupFloat_bias (block group member) (length_slice_group length (List.mem_range.mp member)))
  rw [weights, scaleEntries, biasEntries, foldl_copyInto_slices length, foldl_set_getD scaled,
    foldl_set_getD biased]

end Groups

/-! ## Transposition -/

section Transpose

variable {src dst : List UInt8} {k n : ℕ}

def transposeWrites (src : List UInt8) (k n : ℕ) : List (ℕ × UInt8) :=
  (stepBy k 64).flatMap fun kb => (stepBy n 64).flatMap fun nb =>
    (List.range' kb (min (kb + 64) k - kb)).flatMap fun ki =>
      (List.range' nb (min (nb + 64) n - nb)).map fun ni =>
        (ni * k + ki, src.getD (ki * n + ni) 0)

theorem transposeU8_eq (length : src.length = k * n) : transposeU8 src k n =
    .ok (Blocks.written (List.replicate (n * k) 0) (transposeWrites src k n)) := by
  refine bind_ok_iff.mpr ⟨(), assert_ok_iff.mpr length, ?_⟩
  simp only [Blocks.written, transposeWrites, List.foldl_flatMap, List.foldl_map]
  rfl

theorem exists_block {stop i : ℕ} (inside : i < stop) :
    ∃ start ∈ stepBy stop 64, i ∈ List.range' start (min (start + 64) stop - start) := by
  refine ⟨64 * (i / 64), ?_, ?_⟩
  · rw [stepBy, List.mem_range']
    exact ⟨i / 64, by omega, by omega⟩
  · rw [List.mem_range'_1]
    omega

theorem mem_transposeWrites {ki ni : ℕ} (inK : ki < k) (inN : ni < n) :
    (ni * k + ki, src.getD (ki * n + ni) 0) ∈ transposeWrites src k n := by
  obtain ⟨kb, kStep, kBlock⟩ := exists_block inK
  obtain ⟨nb, nStep, nBlock⟩ := exists_block inN
  simp only [transposeWrites, List.mem_flatMap, List.mem_map]
  exact ⟨kb, kStep, nb, nStep, ki, kBlock, ni, nBlock, rfl⟩

theorem exists_of_mem_transposeWrites {write : ℕ × UInt8}
    (member : write ∈ transposeWrites src k n) :
    ∃ ki < k, ∃ ni < n, write = (ni * k + ki, src.getD (ki * n + ni) 0) := by
  simp only [transposeWrites, List.mem_flatMap, List.mem_map, List.mem_range'_1] at member
  obtain ⟨kb, -, nb, -, ki, kBlock, ni, nBlock, rfl⟩ := member
  exact ⟨ki, by omega, ni, by omega, rfl⟩

theorem cell_lt {row rows column columns : ℕ} (inRow : row < rows) (inColumn : column < columns) :
    row * columns + column < rows * columns := by
  have rowsEnd := Nat.mul_le_mul_right columns (Nat.succ_le_of_lt inRow)
  rw [Nat.succ_mul] at rowsEnd
  omega

theorem transposeU8_cell (ok : transposeU8 src k n = .ok dst) {ki ni : ℕ} (inK : ki < k)
    (inN : ni < n) : dst[ni * k + ki]? = src[ki * n + ni]? := by
  have length := (transposeU8_ok ok).1
  rw [transposeU8_eq length] at ok
  cases ok
  -- What belongs at an index, told from the index alone.
  let value := fun p : ℕ => src.getD (p % k * n + p / k) 0
  have locate : ∀ ki < k, ∀ ni, value (ni * k + ki) = src.getD (ki * n + ni) 0 := by
    intro ki less ni
    have row : (ni * k + ki) / k = ni := by
      rw [Nat.mul_comm, Nat.mul_add_div (by omega), Nat.div_eq_of_lt less, Nat.add_zero]
    have column : (ni * k + ki) % k = ki := by
      rw [Nat.mul_comm, Nat.mul_add_mod, Nat.mod_eq_of_lt less]
    simp only [value, row, column]
  have agree : ∀ write ∈ transposeWrites src k n, write.2 = value write.1 := by
    intro write member
    obtain ⟨ki, less, ni, -, rfl⟩ := exists_of_mem_transposeWrites member
    exact (locate ki less ni).symm
  have inside : ni * k + ki < (List.replicate (n * k) (0 : UInt8)).length := by
    rw [List.length_replicate]
    exact cell_lt inN inK
  have source : ki * n + ni < src.length := by
    rw [length]
    exact cell_lt inK inN
  have reached : ni * k + ki ∈ (transposeWrites src k n).map Prod.fst :=
    List.mem_map.mpr ⟨_, mem_transposeWrites inK inN, rfl⟩
  rw [Blocks.getElem?_written agree inside (.inl reached), locate ki inK ni,
    List.getD_eq_getElem?_getD, List.getElem?_eq_getElem source, Option.getD_some]

theorem transposeU8_transposeU8 (ok : transposeU8 src k n = .ok dst) :
    transposeU8 dst n k = .ok src := by
  obtain ⟨length, length'⟩ := transposeU8_ok ok
  have back := transposeU8_eq length'
  rw [back]
  apply congrArg Except.ok
  have sizes := (transposeU8_ok back).2
  apply List.ext_getElem?
  intro i
  by_cases inside : i < k * n
  · have columns : 0 < n := by
      apply Nat.pos_of_ne_zero
      rintro rfl
      omega
    have inRow : i / n < k := Nat.div_lt_of_lt_mul (by rwa [Nat.mul_comm])
    have inColumn : i % n < n := Nat.mod_lt i columns
    have there : i / n * n + i % n = i := Nat.div_add_mod' i n
    have cell := transposeU8_cell back inColumn inRow
    rw [transposeU8_cell ok inRow inColumn, there] at cell
    exact cell
  · rw [List.getElem?_eq_none (by omega), List.getElem?_eq_none (by omega)]

end Transpose

/-! ## The round trip -/

/-- A prepacked weight is read back transposed, with its scales and biases. -/
theorem prepackPipeline_roundTrip {weight : List UInt8} {scales biases : List UInt32}
    {k n groupSize : ℕ} (positive : groupSize ≠ 0) (divides : groupSize ∣ k)
    (sized : weight.length = k * n) (scaled : scales.length = n * k / groupSize)
    (biased : biases.length = n * k / groupSize) :
    ∃ packed transposed, prepackPipeline weight scales biases k n groupSize = .ok packed ∧
      packed.length = n * k + 8 * (n * (k / groupSize)) ∧
      uninterleaveScalesBiases packed k n groupSize = .ok (transposed, scales, biases) ∧
      (∀ ki < k, ∀ ni < n, transposed[ni * k + ki]? = weight[ki * n + ni]?) ∧
      transposed.length = n * k ∧ transposeU8 transposed n k = .ok weight := by
  obtain ⟨groups, rfl⟩ := divides
  rw [Nat.mul_comm groupSize groups] at sized scaled biased ⊢
  have quotient : groups * groupSize / groupSize = groups :=
    Nat.mul_div_cancel groups (Nat.pos_of_ne_zero positive)
  rw [← Nat.mul_assoc, Nat.mul_div_cancel _ (Nat.pos_of_ne_zero positive)] at scaled biased
  have transposes := transposeU8_eq sized
  have length := (transposeU8_ok transposes).2
  refine ⟨_, _, bind_ok_iff.mpr ⟨_, transposes, bind_ok_iff.mpr
    ⟨_, reorderGroupsNeon_eq positive length, interleaveScalesBiases_eq positive length scaled
      biased⟩⟩, ?_, uninterleaveScalesBiases_eq positive length scaled biased,
    fun ki inK ni inN => transposeU8_cell transposes inK inN, length,
    transposeU8_transposeU8 transposes⟩
  rw [quotient, length_flatMap_range fun group => length_groupBlock length]
  ring

theorem prepackPipeline_roundTrip_twoGroups : ∃ packed transposed,
    prepackPipeline [1, 2, 3, 4, 5, 6, 7, 8] [1, 2, 3, 4] [5, 6, 7, 8] 4 2 2 = .ok packed ∧
    packed.length = 40 ∧
    uninterleaveScalesBiases packed 4 2 2 = .ok (transposed, [1, 2, 3, 4], [5, 6, 7, 8]) := by
  obtain ⟨packed, transposed, packs, length, reads, -⟩ := @prepackPipeline_roundTrip
    [1, 2, 3, 4, 5, 6, 7, 8] [1, 2, 3, 4] [5, 6, 7, 8] 4 2 2 (by decide) (by decide) rfl rfl rfl
  exact ⟨packed, transposed, packs, length, reads⟩

end TribunusCompute.LayoutTransform
