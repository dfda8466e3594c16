import TribunusCompute.Library.LittleEndian
import TribunusCompute.Library.Outcome
import TribunusCompute.Library.Strides

/-!
# Weight prepacking

A quantized weight is transposed, its groups are brought next to each other, and each group is
followed by its scale and its bias.
-/
namespace TribunusCompute.LayoutTransform

open Outcome

/-- The positions `0, step, 2 * step, ...` below `stop`. -/
def stepBy (stop step : ℕ) : List ℕ := List.range' 0 ((stop + step - 1) / step) step

/-- `dst[at..at + piece.len()].copy_from_slice(piece)`. -/
def copyInto (dst : List UInt8) (at_ : ℕ) (piece : List UInt8) : List UInt8 :=
  piece.zipIdx.foldl (fun dst byte => dst.set (at_ + byte.2) byte.1) dst

/-- Transpose a `[k, n]` matrix into `[n, k]`, in blocks of 64 by 64. -/
def transposeU8 (src : List UInt8) (k n : ℕ) : Outcome (List UInt8) := do
  Outcome.assert (src.length = k * n)
  return (stepBy k 64).foldl (fun dst kb =>
    (stepBy n 64).foldl (fun dst nb =>
      (List.range' kb (min (kb + 64) k - kb)).foldl (fun dst ki =>
        (List.range' nb (min (nb + 64) n - nb)).foldl (fun dst ni =>
          dst.set (ni * k + ki) (src.getD (ki * n + ni) 0)) dst) dst) dst)
    (List.replicate (n * k) 0)

/-- Copy each group to where it already is; a pass that confirms the alignment of the groups. -/
def reorderGroupsNeon (src : List UInt8) (k n groupSize : ℕ) : Outcome (List UInt8) := do
  Outcome.assert (src.length = n * k)
  Outcome.assert (groupSize ≠ 0 ∧ k % groupSize = 0)
  let groups := k / groupSize
  return (List.range n).foldl (fun dst ni =>
    (List.range groups).foldl (fun dst gi =>
      let off := ni * k + gi * groupSize
      copyInto dst off (Tiling.slice src off groupSize)) dst)
    (List.replicate (n * k) 0)

/-- Each group of weights, then its scale and its bias. -/
def interleaveScalesBiases (weight : List UInt8) (scales biases : List UInt32)
    (k n groupSize : ℕ) : Outcome (List UInt8) := do
  let groups ← Outcome.quotient k groupSize
  Outcome.assert (weight.length = n * k)
  Outcome.assert (scales.length = n * groups)
  Outcome.assert (biases.length = n * groups)
  let groupBlockSize := groupSize + 8
  return (List.range n).foldl (fun packed ni =>
    (List.range groups).foldl (fun packed gi =>
      let weightOff := ni * k + gi * groupSize
      let group := ni * groups + gi
      let off := group * groupBlockSize
      let packed := copyInto packed off (Tiling.slice weight weightOff groupSize)
      let packed := copyInto packed (off + groupSize)
        (LittleEndian.encode 4 (scales.getD group 0).toNat)
      copyInto packed (off + groupSize + 4)
        (LittleEndian.encode 4 (biases.getD group 0).toNat)) packed)
    (List.replicate (n * groups * groupBlockSize) 0)

def uninterleaveScalesBiases (packed : List UInt8) (k n groupSize : ℕ) :
    Outcome (List UInt8 × List UInt32 × List UInt32) := do
  let groups ← Outcome.quotient k groupSize
  let groupBlockSize := groupSize + 8
  Outcome.assert (packed.length = n * groups * groupBlockSize)
  return (List.range n).foldl (fun unpacked ni =>
    (List.range groups).foldl (fun (weight, scales, biases) gi =>
      let group := ni * groups + gi
      let off := group * groupBlockSize
      let float (start : ℕ) :=
        UInt32.ofNat (LittleEndian.decode (Tiling.slice packed (off + start) 4))
      (copyInto weight (ni * k + gi * groupSize) (Tiling.slice packed off groupSize),
        scales.set group (float groupSize), biases.set group (float (groupSize + 4)))) unpacked)
    (List.replicate (n * k) 0, List.replicate (n * groups) 0, List.replicate (n * groups) 0)

def prepackPipeline (weightSrc : List UInt8) (scalesSrc biasesSrc : List UInt32)
    (k n groupSize : ℕ) : Outcome (List UInt8) := do
  let transposed ← transposeU8 weightSrc k n
  let reordered ← reorderGroupsNeon transposed k n groupSize
  interleaveScalesBiases reordered scalesSrc biasesSrc k n groupSize

/-! ## Sizes -/

theorem length_foldl {α : Type*} {turn : List UInt8 → α → List UInt8} {as : List α}
    (one : ∀ dst a, (turn dst a).length = dst.length) (dst : List UInt8) :
    (as.foldl turn dst).length = dst.length := by
  induction as generalizing dst with
  | nil => rfl
  | cons a as ih => rw [List.foldl_cons, ih, one]

@[simp] theorem length_copyInto (dst : List UInt8) (at_ : ℕ) (piece : List UInt8) :
    (copyInto dst at_ piece).length = dst.length :=
  length_foldl (fun _ _ => List.length_set) dst

section Sizes

variable {src weight packed : List UInt8} {scales biases : List UInt32} {k n groupSize : ℕ}

theorem transposeU8_ok (ok : transposeU8 src k n = .ok packed) :
    src.length = k * n ∧ packed.length = n * k := by
  obtain ⟨_, sized, done⟩ := bind_ok_iff.mp ok
  obtain rfl := pure_ok_iff.mp done
  refine ⟨assert_ok_iff.mp sized, ?_⟩
  rw [length_foldl, List.length_replicate]
  intro dst _
  refine length_foldl (fun dst _ => length_foldl (fun dst _ => length_foldl (fun dst _ => ?_) dst)
    dst) dst
  exact List.length_set

theorem reorderGroupsNeon_ok (ok : reorderGroupsNeon src k n groupSize = .ok packed) :
    (src.length = n * k ∧ groupSize ≠ 0 ∧ k % groupSize = 0) ∧ packed.length = n * k := by
  obtain ⟨_, sized, rest⟩ := bind_ok_iff.mp ok
  obtain ⟨_, grouped, done⟩ := bind_ok_iff.mp rest
  obtain rfl := pure_ok_iff.mp done
  refine ⟨⟨assert_ok_iff.mp sized, assert_ok_iff.mp grouped⟩, ?_⟩
  rw [length_foldl, List.length_replicate]
  exact fun dst _ => length_foldl (fun dst _ => length_copyInto dst _ _) dst

theorem interleaveScalesBiases_ok
    (ok : interleaveScalesBiases weight scales biases k n groupSize = .ok packed) :
    (scales.length = n * (k / groupSize) ∧ biases.length = n * (k / groupSize)) ∧
      packed.length = n * (k / groupSize) * (groupSize + 8) := by
  obtain ⟨groups, divided, rest⟩ := bind_ok_iff.mp ok
  obtain ⟨-, rfl⟩ := quotient_ok_iff.mp divided
  obtain ⟨_, -, rest⟩ := bind_ok_iff.mp rest
  obtain ⟨_, scaled, rest⟩ := bind_ok_iff.mp rest
  obtain ⟨_, biased, done⟩ := bind_ok_iff.mp rest
  obtain rfl := pure_ok_iff.mp done
  refine ⟨⟨assert_ok_iff.mp scaled, assert_ok_iff.mp biased⟩, ?_⟩
  rw [length_foldl, List.length_replicate]
  intro dst _
  apply length_foldl
  simp

/-- What the pipeline requires of its arguments. -/
structure Sized (weight : List UInt8) (scales biases : List UInt32) (k n groupSize : ℕ) :
    Prop where
  weight : weight.length = k * n
  positive : groupSize ≠ 0
  divides : k % groupSize = 0
  scales : scales.length = n * (k / groupSize)
  biases : biases.length = n * (k / groupSize)

theorem prepackPipeline_ok (ok : prepackPipeline weight scales biases k n groupSize = .ok packed) :
    Sized weight scales biases k n groupSize ∧
      packed.length = n * (k / groupSize) * (groupSize + 8) := by
  obtain ⟨transposed, first, rest⟩ := bind_ok_iff.mp ok
  obtain ⟨reordered, second, third⟩ := bind_ok_iff.mp rest
  obtain ⟨weights, -⟩ := transposeU8_ok first
  obtain ⟨⟨-, positive, divides⟩, -⟩ := reorderGroupsNeon_ok second
  obtain ⟨⟨scaled, biased⟩, length⟩ := interleaveScalesBiases_ok third
  exact ⟨⟨weights, positive, divides, scaled, biased⟩, length⟩

end Sizes

/-- A weight with one column and one group keeps its bytes, followed by its scale and bias. -/
example : prepackPipeline [1, 2] [3] [4] 2 1 2 = .ok [1, 2, 3, 0, 0, 0, 4, 0, 0, 0] := by decide

end TribunusCompute.LayoutTransform
