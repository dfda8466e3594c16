import TribunusCompute.Library.Strides
import TribunusCompute.ComputeImage.Builder
import TribunusCompute.ComputeImage.Verification

/-!
# Layouts

An image is a list of blocks, each a segment's tensors in order. Every builder that calls
reach is the rendering of such a list, and what it finalizes is verified, read back and tiled
from there.
-/
namespace TribunusCompute.ComputeImage

open Outcome

/-! ## Blocks and their rendering -/

/-- A segment as the sequence of its tensors. -/
structure Block where
  id : String
  kind : SegmentKind
  tensors : List TensorSpec
  deriving DecidableEq, Repr

def payloadOf (tensors : List TensorSpec) : List UInt8 := tensors.flatMap TensorSpec.data

@[simp] theorem payloadOf_append (xs ys : List TensorSpec) :
    payloadOf (xs ++ ys) = payloadOf xs ++ payloadOf ys := List.flatMap_append

def Block.payload (block : Block) : List UInt8 := payloadOf block.tensors

def TensorSpec.entry (t : TensorSpec) (segment : String) (id offset : ℕ) : TensorEntry where
  id
  name := t.name
  role := t.role
  layer := t.layer
  segment
  sourceFilename := t.sourceFilename
  sourceSha256 := t.sourceSha256
  sourceOffset := t.sourceOffset
  offset
  byteLength := t.data.length
  logicalDtype := t.logicalDtype
  storageDtype := t.storageDtype
  logicalShape := t.logicalShape
  physicalShape := t.physicalShape
  mutability := "read_only"
  quantization := t.quantization
  tensorAlignmentBytes := 16
  layoutVersion := 1

/-- The entries of a segment's tensors, from the first id and offset on. -/
def entriesFrom (segment : String) : ℕ → ℕ → List TensorSpec → List TensorEntry
  | _, _, [] => []
  | id, offset, t :: ts =>
    t.entry segment id offset :: entriesFrom segment (id + 1) (offset + t.data.length) ts

def countTensors (blocks : List Block) : ℕ := (blocks.map fun block => block.tensors.length).sum

def tableFrom : ℕ → List Block → List TensorEntry
  | _, [] => []
  | id, block :: blocks =>
    entriesFrom block.id id 0 block.tensors ++ tableFrom (id + block.tensors.length) blocks

def Block.segment (hashing : Hashing) (block : Block) (index id : ℕ) : Segment where
  id := block.id
  filename := segmentFilename index
  byteSize := block.payload.length
  sha256 := hashing.sha256Bytes block.payload
  tensorIds := List.range' id block.tensors.length
  kind := block.kind
  alignmentBytes := 4096

def segmentsFrom (hashing : Hashing) : ℕ → ℕ → List Block → List Segment
  | _, _, [] => []
  | index, id, block :: blocks =>
    block.segment hashing index id ::
      segmentsFrom hashing (index + 1) (id + block.tensors.length) blocks

theorem entriesFrom_append (segment : String) (id offset : ℕ) (xs ys : List TensorSpec) :
    entriesFrom segment id offset (xs ++ ys) = entriesFrom segment id offset xs ++
      entriesFrom segment (id + xs.length) (offset + (payloadOf xs).length) ys := by
  induction xs generalizing id offset with
  | nil => simp [entriesFrom, payloadOf]
  | cons x xs ih =>
    simp only [List.cons_append, entriesFrom, ih, List.length_cons, payloadOf,
      List.flatMap_cons, List.length_append]
    rw [Nat.add_right_comm id, Nat.add_assoc offset, Nat.add_assoc id]

theorem tableFrom_append (id : ℕ) (xs ys : List Block) :
    tableFrom id (xs ++ ys) = tableFrom id xs ++ tableFrom (id + countTensors xs) ys := by
  induction xs generalizing id with
  | nil => simp [tableFrom, countTensors]
  | cons x xs ih =>
    simp only [List.cons_append, tableFrom, ih, List.append_assoc, countTensors, List.map_cons,
      List.sum_cons]
    rw [Nat.add_assoc]

theorem segmentsFrom_append (hashing : Hashing) (index id : ℕ) (xs ys : List Block) :
    segmentsFrom hashing index id (xs ++ ys) = segmentsFrom hashing index id xs ++
      segmentsFrom hashing (index + xs.length) (id + countTensors xs) ys := by
  induction xs generalizing index id with
  | nil => simp [segmentsFrom, countTensors]
  | cons x xs ih =>
    simp only [List.cons_append, segmentsFrom, ih, List.length_cons, countTensors, List.map_cons,
      List.sum_cons]
    rw [Nat.add_right_comm index, Nat.add_assoc index, Nat.add_assoc id]

@[simp] theorem length_segmentsFrom {hashing : Hashing} {index id : ℕ} {blocks : List Block} :
    (segmentsFrom hashing index id blocks).length = blocks.length := by
  induction blocks generalizing index id with
  | nil => rfl
  | cons block blocks ih => simp [segmentsFrom, ih]

/-! ## Layouts -/

/-- What a builder has been given: a manifest to start from, the first tensor id, the closed
blocks, the open one, and the aliases. -/
structure Layout where
  base : Manifest
  start : ℕ
  done : List Block
  current : Option Block
  aliases : List AliasEntry
  deriving DecidableEq, Repr

namespace Layout

def blocks (l : Layout) : List Block := l.done ++ l.current.toList

def render (hashing : Hashing) (l : Layout) : ImageBuilder where
  manifest := { l.base with
    residencyPlan := (segmentsFrom hashing 0 l.start l.done).foldl ImageBuilder.recordResidency
      l.base.residencyPlan }
  nextTensorId := l.start + countTensors l.blocks
  currentSegment := l.current.map fun block => {
    id := block.id
    filename := segmentFilename l.done.length
    kind := block.kind
    data := block.payload
    tensorIds := List.range' (l.start + countTensors l.done) block.tensors.length
    offset := block.payload.length }
  segments := segmentsFrom hashing 0 l.start l.done
  segmentPayloads := l.done.map Block.payload
  tensors := tableFrom l.start l.blocks
  aliases := l.aliases

def close (l : Layout) : Layout := { l with done := l.blocks, current := none }

def openBlock (l : Layout) (id : String) (kind : SegmentKind) : Layout :=
  { l.close with current := some ⟨id, kind, []⟩ }

def append (l : Layout) (t : TensorSpec) : Layout :=
  { l with current := l.current.map fun block =>
      { block with tensors := block.tensors ++ [t] } }

variable {hashing : Hashing} {l : Layout}

@[simp] theorem blocks_close : l.close.blocks = l.blocks := by
  simp [close, blocks]

theorem flushSegment_render : (l.render hashing).flushSegment hashing = l.close.render hashing := by
  obtain ⟨base, start, done, current, aliases⟩ := l
  cases current with
  | none => simp [ImageBuilder.flushSegment, render, close, blocks]
  | some block =>
    simp [ImageBuilder.flushSegment, render, close, blocks, segmentsFrom_append, segmentsFrom,
      Block.segment]

theorem beginSegment_render (id : String) (kind : SegmentKind) :
    (l.render hashing).beginSegment hashing id kind = (l.openBlock id kind).render hashing := by
  have tables : tableFrom l.start (l.blocks ++ [⟨id, kind, []⟩]) = tableFrom l.start l.blocks := by
    simp [tableFrom_append, tableFrom, entriesFrom]
  have counts : countTensors (l.blocks ++ [⟨id, kind, []⟩]) = countTensors l.blocks := by
    simp [countTensors]
  unfold ImageBuilder.beginSegment
  rw [flushSegment_render]
  simp [render, openBlock, close, blocks, Block.payload, payloadOf] at tables counts ⊢
  exact ⟨counts.symm, tables.symm⟩

theorem addTensor_render {block : Block} {t : TensorSpec} (opened : l.current = some block)
    (fits : block.payload.length + t.data.length < 2 ^ 63) :
    (l.render hashing).addTensor t =
      .ok ((l.append t).render hashing, l.start + countTensors l.blocks) := by
  obtain ⟨base, start, done, current, aliases⟩ := l
  obtain rfl : current = some block := opened
  have size : fit 63 (block.payload.length + t.data.length) =
      .ok (block.payload.length + t.data.length) := fit_ok_iff.mpr ⟨fits, rfl⟩
  have ids : List.range' (start + countTensors done) block.tensors.length ++
      [start + (countTensors done + block.tensors.length)] =
        List.range' (start + countTensors done) (block.tensors.length + 1) := by
    rw [List.range'_concat, Nat.one_mul, Nat.add_assoc]
  simp only [ImageBuilder.addTensor, render, Option.map_some, size]
  simp [append, blocks, Block.payload, tableFrom_append, tableFrom, entriesFrom_append,
    entriesFrom, payloadOf, countTensors] at ids ⊢
  exact ⟨by omega, ids, by simp [TensorSpec.entry, Nat.add_assoc]⟩

theorem addTensor_ok {t : TensorSpec} {b : ImageBuilder} {id : ℕ}
    (done : (l.render hashing).addTensor t = .ok (b, id)) :
    (∃ block, l.current = some block ∧ block.payload.length + t.data.length < 2 ^ 63) ∧
      b = (l.append t).render hashing ∧ id = l.start + countTensors l.blocks := by
  cases opened : l.current with
  | none =>
    simp only [ImageBuilder.addTensor, render, opened, Option.map_none] at done
    cases done
  | some block =>
    have fits : block.payload.length + t.data.length < 2 ^ 63 := by
      simp only [ImageBuilder.addTensor, render, opened, Option.map_some, bind_ok_iff,
        fit_ok_iff] at done
      obtain ⟨_, ⟨fits, -⟩, -⟩ := done
      exact fits
    rw [addTensor_render opened fits] at done
    cases done
    exact ⟨⟨block, rfl, fits⟩, rfl, rfl⟩

/-! ## Runs -/

def call (l : Layout) : ImageBuilder.Call → Layout
  | .beginSegment id kind => l.openBlock id kind
  | .addTensor t => l.append t
  | .addAlias logicalName physicalTensorId reason =>
    { l with aliases := l.aliases ++ [⟨logicalName, physicalTensorId, reason⟩] }

/-- No segment outgrows a vector. -/
def Fits (l : Layout) : Prop := ∀ block ∈ l.blocks, block.payload.length < 2 ^ 63

def tensors (l : Layout) : List TensorSpec := l.blocks.flatMap Block.tensors

end Layout

def ImageBuilder.Call.added : ImageBuilder.Call → List TensorSpec
  | .addTensor t => [t]
  | _ => []

def ImageBuilder.Call.begun : ImageBuilder.Call → List String
  | .beginSegment id _ => [id]
  | _ => []

namespace Layout

variable {hashing : Hashing} {l : Layout} {b : ImageBuilder} {c : ImageBuilder.Call}

/-- What one call does: the builder stays the rendering of a layout, and the layout grows by
what the call adds or begins. -/
theorem call_render (fits : l.Fits) (done : (l.render hashing).call hashing c = .ok b) :
    b = (l.call c).render hashing ∧ (l.call c).Fits ∧
      (l.call c).tensors = l.tensors ++ c.added ∧
      (l.call c).blocks.map Block.id = l.blocks.map Block.id ++ c.begun := by
  cases c with
  | beginSegment id kind =>
    refine ⟨?_, ?_, ?_, ?_⟩
    · rw [ImageBuilder.call, beginSegment_render] at done
      exact (Except.ok.inj done).symm
    · intro block member
      simp only [call, openBlock, blocks, close, Option.toList_some] at member
      rcases List.mem_append.mp member with old | new
      · exact fits block old
      · obtain rfl := List.mem_singleton.mp new
        exact Nat.two_pow_pos 63
    · simp [tensors, call, openBlock, close, blocks, ImageBuilder.Call.added]
    · simp [call, openBlock, close, blocks, ImageBuilder.Call.begun]
  | addTensor t =>
    rw [ImageBuilder.call, bind_ok_iff] at done
    obtain ⟨⟨b', id⟩, added, same⟩ := done
    obtain ⟨⟨block, opened, small⟩, rfl, -⟩ := addTensor_ok added
    obtain rfl := pure_ok_iff.mp same
    refine ⟨rfl, ?_, ?_, ?_⟩
    · intro block' member
      simp only [call, append, blocks, opened, Option.map_some, Option.toList_some] at member
      rcases List.mem_append.mp member with old | new
      · exact fits block' (List.mem_append_left _ old)
      · obtain rfl := List.mem_singleton.mp new
        simpa [Block.payload, payloadOf] using small
    · simp [tensors, call, append, blocks, opened, ImageBuilder.Call.added]
    · simp [call, append, blocks, opened, ImageBuilder.Call.begun]
  | addAlias logicalName physicalTensorId reason =>
    obtain rfl := Except.ok.inj done
    exact ⟨rfl, fits, by simp [tensors, call, blocks, ImageBuilder.Call.added],
      by simp [call, blocks, ImageBuilder.Call.begun]⟩

theorem base_run (calls : List ImageBuilder.Call) (l : Layout) :
    (calls.foldl call l).base = l.base ∧ (calls.foldl call l).start = l.start := by
  induction calls generalizing l with
  | nil => exact ⟨rfl, rfl⟩
  | cons c calls ih =>
    have first : (l.call c).base = l.base ∧ (l.call c).start = l.start := by
      cases c <;> exact ⟨rfl, rfl⟩
    rw [List.foldl_cons, ← first.1, ← first.2]
    exact ih _

/-- What a run of calls does. -/
theorem run_render {calls : List ImageBuilder.Call} (fits : l.Fits)
    (ran : calls.foldlM (ImageBuilder.call hashing) (l.render hashing) = .ok b) :
    b = (calls.foldl call l).render hashing ∧ (calls.foldl call l).Fits ∧
      (calls.foldl call l).tensors = l.tensors ++ calls.flatMap ImageBuilder.Call.added ∧
      (calls.foldl call l).blocks.map Block.id =
        l.blocks.map Block.id ++ calls.flatMap ImageBuilder.Call.begun := by
  induction calls generalizing l with
  | nil =>
    obtain rfl := pure_ok_iff.mp ran
    simp [fits]
  | cons c calls ih =>
    rw [List.foldlM_cons, bind_ok_iff] at ran
    obtain ⟨b', first, later⟩ := ran
    obtain ⟨rfl, fits', tensors', ids'⟩ := call_render fits first
    obtain ⟨same, fitsAll, tensorsAll, idsAll⟩ := ih fits' later
    refine ⟨same, fitsAll, ?_, ?_⟩
    · rw [List.foldl_cons, tensorsAll, tensors', List.flatMap_cons, List.append_assoc]
    · rw [List.foldl_cons, idsAll, ids', List.flatMap_cons, List.append_assoc]

end Layout

end TribunusCompute.ComputeImage
