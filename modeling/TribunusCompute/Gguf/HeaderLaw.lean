import TribunusCompute.Gguf.Header

/-!
# What a GGUF header demands

The format of a header says what reading it demands: capacities, products of 64 bits, and a frame
of the stack for each level of nested values. The header of a file is read without a panic
exactly where everything that is demanded on the way, up to the first malformed field, is there to
be had.
-/
namespace TribunusCompute.Gguf

open Outcome

inductive Demand
  /-- An allocation of this many bytes. -/
  | capacity (bytes : ℕ)
  /-- A frame more than there are. -/
  | frame
  /-- A product in a word of 64 bits. -/
  | product (n : ℕ)
  deriving DecidableEq, Repr

def Demand.Granted : Demand → Prop
  | capacity bytes => bytes < 2 ^ 63
  | frame => False
  | product n => n < 2 ^ 64

/-! ## The format -/

def textFormat (len : ℕ) : Format UInt8 Demand String :=
  ⟨fun xs text rest => xs = text.toByteArray.data.toList ++ rest ∧ text.utf8ByteSize = len,
    fun _ _ => False⟩

def stringFormat : Format UInt8 Demand String := do
  let len ← .word 8
  .demand (.capacity len)
  textFormat len

/-- A value of the tag's type, nested at most `frames` deep. -/
def valueFormat (render : Rendering) : ℕ → ℕ → Format UInt8 Demand String
  | 0, _ => .here (fun _ => False) (· = .frame)
  | frames + 1, tag =>
    match GgufType.ofTag tag with
    | .string => stringFormat
    | .array => do
      let elemType ← .word 4
      let count ← .word 8
      .demand (.capacity (24 * count))
      let elems ← (valueFormat render frames elemType).times count
      return "[" ++ ", ".intercalate elems ++ "]"
    | typ => do
      let n ← .word typ.payload.1
      return typ.text render n

def metadataFormat (render : Rendering) (frames : ℕ) : Format UInt8 Demand (String × String) := do
  let key ← stringFormat
  let valueType ← .word 4
  let value ← valueFormat render frames valueType
  return (key, value)

/-- Bytes of the blocks that this many elements are packed into. -/
def packedSize (dtype elems : ℕ) : ℕ :=
  (elems + (ggmlBlockInfo dtype).1 - 1) / (ggmlBlockInfo dtype).1 * (ggmlBlockInfo dtype).2

/-- The size of a tensor: the dimensions are multiplied from the first one, then the blocks. -/
def sizeFormat (dtype : ℕ) (shape : List ℕ) : Format UInt8 Demand ℕ :=
  .here (fun n => n = if shape.prod = 0 then 0 else packedSize dtype shape.prod) fun d =>
    (∃ k ≤ shape.length, d = .product (shape.take k).prod) ∨
      shape.prod ≠ 0 ∧ d = .product (packedSize dtype shape.prod)

def tensorFormat : Format UInt8 Demand GgufTensorMeta := do
  let name ← stringFormat
  let nDims ← .word 4
  .demand (.capacity (4 * nDims))
  let dims ← (Format.word 4).times nDims
  let dtype ← .word 4
  let byteOffset ← .word 8
  let byteSize ← sizeFormat dtype dims
  return { name, dtype := ggmlDtypeName dtype, shape := dims, byteOffset, byteSize }

/-- What follows the counts. -/
def bodyFormat (render : Rendering) (frames tensorCount metadataKvCount : ℕ) :
    Format UInt8 Demand (List (String × String) × List GgufTensorMeta) := do
  .demand (.capacity (48 * metadataKvCount))
  let metadata ← (metadataFormat render frames).times metadataKvCount
  .demand (.capacity (88 * tensorCount))
  let tensors ← tensorFormat.times tensorCount
  return (metadata, tensors)

def headerFormat (render : Rendering) (frames : ℕ) :
    Format UInt8 Demand (List (String × String) × List GgufTensorMeta) := do
  let magic ← .exactly 4
  .guarded (magic = ggufMagic)
  let version ← .word 4
  .guarded (1 ≤ version ∧ version ≤ 3)
  let tensorCount ← .word (if version ≥ 2 then 8 else 4)
  let metadataKvCount ← .word (if version ≥ 2 then 8 else 4)
  bodyFormat render frames tensorCount metadataKvCount

/-! ## The readers -/

section Readers

variable {render : Rendering}

theorem reads_allocate (size count : ℕ) :
    Reads Demand.Granted (allocate size count) (.demand (.capacity (size * count))) := by
  apply Reads.demand
  · intro fits
    exact if_pos fits
  · intro large
    exact if_neg large

theorem fromUTF8?_eq_some_iff {bytes : List UInt8} {text : String} :
    String.fromUTF8? ⟨⟨bytes⟩⟩ = some text ↔ text.toByteArray.data.toList = bytes := by
  unfold String.fromUTF8?
  constructor
  · intro h
    split at h
    · cases h
      rfl
    · cases h
  · rintro rfl
    rw [dif_pos text.isValidUTF8]
    rfl

theorem reads_text (len : ℕ) : Reads Demand.Granted
    (Reader.exactly len (eof "GGUF read string") >>= fun buf => Reader.call (fromUtf8 render buf))
    (textFormat len) := by
  have accepted : ∀ buf, Reads Demand.Granted (Reader.call (fromUtf8 render buf) : Reader UInt8 _)
      (.here (fun text => text.toByteArray.data.toList = buf) fun _ => False) := by
    intro buf
    apply Reads.call
    · exact fun _ ok => fromUTF8?_eq_some_iff.mp (orReport_ok_iff.mp ok)
    · exact fun _ there => .inl (orReport_ok_iff.mpr (fromUTF8?_eq_some_iff.mpr there))
    · rw [fromUtf8]
      cases String.fromUTF8? ⟨⟨buf⟩⟩ <;> simp [orReport, report, panics]
  refine ((Reads.exactly len _).bind accepted).congr (fun xs text rest => ?_) fun xs d => ?_
  · constructor
    · rintro ⟨rfl, rfl⟩
      exact ⟨text.toByteArray.data.toList, rest, ⟨rfl, by simp⟩, rfl, rfl⟩
    · rintro ⟨_, _, ⟨rfl, rfl⟩, rfl, rfl⟩
      exact ⟨rfl, by simp⟩
  · constructor
    · intro demanded
      cases demanded
    · rintro (demanded | ⟨_, _, -, demanded⟩) <;> cases demanded

theorem reads_string : Reads Demand.Granted (readString render) stringFormat := by
  refine Reads.bind (Reads.word 8 _) fun len => Reads.bind ?_ fun _ => reads_text len
  have room : Reads Demand.Granted (allocate 1 len) (.demand (.capacity (1 * len))) :=
    reads_allocate 1 len
  rwa [Nat.one_mul] at room

theorem reads_value (frames tag : ℕ) :
    Reads Demand.Granted (readTypedValue render frames tag) (valueFormat render frames tag) := by
  induction frames generalizing tag with
  | zero =>
    apply Reads.call
    · exact fun _ ok => by cases ok
    · exact fun _ never => never.elim
    · simp [Demand.Granted]
  | succ frames ih =>
    unfold readTypedValue valueFormat
    cases GgufType.ofTag tag with
    | string => exact reads_string
    -- The elements are values with one frame less.
    | array =>
      refine Reads.bind (Reads.word 4 _) fun elemType => Reads.bind (Reads.word 8 _) fun count => ?_
      refine Reads.bind (reads_allocate 24 count) fun _ => ?_
      exact ((ih elemType).times count).bind fun elems => Reads.pure _
    | _ => exact (Reads.word _ _).bind fun n => Reads.pure _

/-! ## Sizes -/

theorem product_fits {shape : List ℕ} {start : ℕ}
    (fits : ∀ k ≤ shape.length, start * (shape.take k).prod < 2 ^ 64) :
    shape.foldlM (fun product d => fit 64 (product * d)) start = .ok (start * shape.prod) := by
  induction shape generalizing start with
  | nil => simp [Pure.pure, Except.pure]
  | cons d shape ih =>
    have first : start * d < 2 ^ 64 := by simpa using fits 1 (by simp)
    rw [foldlM_cons_ok_iff]
    refine ⟨start * d, fit_ok_iff.mpr ⟨first, rfl⟩, ?_⟩
    rw [ih fun k inside => ?_, List.prod_cons, Nat.mul_assoc]
    have longer := fits (k + 1) (by simpa using inside)
    rwa [List.take_succ_cons, List.prod_cons, ← Nat.mul_assoc] at longer

theorem product_overflows {shape : List ℕ} {start k : ℕ} (small : start < 2 ^ 64)
    (inside : k ≤ shape.length) (large : 2 ^ 64 ≤ start * (shape.take k).prod) :
    shape.foldlM (fun product d => fit 64 (product * d)) start = (panics : Outcome ℕ) := by
  induction shape generalizing start k with
  | nil =>
    simp at large
    omega
  | cons d shape ih =>
    rw [List.foldlM_cons, bind_panics_iff]
    by_cases first : start * d < 2 ^ 64
    · refine .inr ⟨start * d, fit_ok_iff.mpr ⟨first, rfl⟩, ?_⟩
      cases k with
      | zero =>
        simp at large
        omega
      | succ k =>
        rw [List.take_succ_cons, List.prod_cons, ← Nat.mul_assoc] at large
        exact ih first (by simpa using inside) large
    · exact .inl (fit_panics_iff.mpr (Nat.not_lt.mp first))

theorem ggmlTensorByteSize_of_fits {dtype : ℕ} {shape : List ℕ}
    (fits : ∀ k ≤ shape.length, (shape.take k).prod < 2 ^ 64) :
    ggmlTensorByteSize dtype shape =
      if shape.prod = 0 then .ok 0 else fit 64 (packedSize dtype shape.prod) := by
  have product : shape.foldlM (fun product d => fit 64 (product * d)) 1 = .ok shape.prod := by
    rw [product_fits fun k inside => by simpa using fits k inside, Nat.one_mul]
  rw [ggmlTensorByteSize, product]
  rfl

theorem ggmlTensorByteSize_of_overflow {dtype k : ℕ} {shape : List ℕ} (inside : k ≤ shape.length)
    (large : ¬(shape.take k).prod < 2 ^ 64) : ggmlTensorByteSize dtype shape = panics := by
  rw [ggmlTensorByteSize, product_overflows (k := k) (by decide) inside (by omega)]
  rfl

theorem reads_size (dtype : ℕ) (shape : List ℕ) :
    Reads Demand.Granted (Reader.call (ggmlTensorByteSize dtype shape))
      (sizeFormat dtype shape) := by
  by_cases fits : ∀ k ≤ shape.length, (shape.take k).prod < 2 ^ 64
  · have granted : ∀ d, (∃ k ≤ shape.length, d = Demand.product (shape.take k).prod) →
        d.Granted := by
      rintro _ ⟨k, inside, rfl⟩
      exact fits k inside
    have size := @ggmlTensorByteSize_of_fits dtype shape fits
    -- An empty tensor has no bytes, so that its packed size is never asked for.
    by_cases empty : shape.prod = 0
    · rw [if_pos empty] at size
      rw [size]
      apply Reads.call
      · rintro _ ⟨⟩
        simp [empty]
      · rintro n there
        exact .inl (by simp [there, empty])
      · simp only [panics, reduceCtorEq, false_iff, not_exists, not_and, not_not]
        rintro d (elems | ⟨some_, -⟩)
        · exact granted d elems
        · exact absurd empty some_
    · rw [if_neg empty] at size
      rw [size]
      apply Reads.call
      · rintro n done
        rw [if_neg empty]
        exact (fit_ok_iff.mp done).2.symm
      · rintro n there
        rw [if_neg empty] at there
        by_cases small : packedSize dtype shape.prod < 2 ^ 64
        · exact .inl (fit_ok_iff.mpr ⟨small, there.symm⟩)
        · exact .inr (fit_panics_iff.mpr (Nat.not_lt.mp small))
      · rw [fit_panics_iff]
        constructor
        · intro large
          exact ⟨_, .inr ⟨empty, rfl⟩, Nat.not_lt.mpr large⟩
        · rintro ⟨d, elems | ⟨-, rfl⟩, refused⟩
          · exact absurd (granted d elems) refused
          · exact Nat.not_lt.mp refused
  -- A product of leading dimensions overflows, whatever the type is.
  · obtain ⟨k, exceeded⟩ := Classical.not_forall.mp fits
    obtain ⟨inside, large⟩ := Classical.not_imp.mp exceeded
    have size := @ggmlTensorByteSize_of_overflow dtype k shape inside large
    rw [size]
    apply Reads.call
    · rintro n done
      cases done
    · exact fun _ _ => .inr rfl
    · simp only [true_iff]
      exact ⟨_, .inl ⟨k, inside, rfl⟩, large⟩

/-! ## The header -/

theorem reads_metadata (frames : ℕ) : Reads Demand.Granted (readMetadata render frames)
    (metadataFormat render frames) := by
  refine Reads.bind reads_string fun key => Reads.bind (Reads.word 4 _) fun valueType => ?_
  exact (reads_value frames valueType).bind fun value => Reads.pure _

theorem reads_tensor : Reads Demand.Granted (readTensorInfo render) tensorFormat := by
  refine Reads.bind reads_string fun name => Reads.bind (Reads.word 4 _) fun nDims => ?_
  refine Reads.bind (reads_allocate 4 nDims) fun _ => ?_
  refine Reads.bind (Reads.times (Reads.word 4 _) nDims) fun dims => ?_
  refine Reads.bind (Reads.word 4 _) fun dtype => Reads.bind (Reads.word 8 _) fun byteOffset => ?_
  exact (reads_size dtype dims).bind fun byteSize => Reads.pure _

theorem reads_count (version : ℕ) :
    Reads Demand.Granted (readCount version) (.word (if version ≥ 2 then 8 else 4)) := by
  unfold readCount
  split
  · exact Reads.word 8 _
  · exact Reads.word 4 _

theorem reads_header (frames : ℕ) :
    Reads Demand.Granted (readHeader render frames) (headerFormat render frames) := by
  refine Reads.bind (Reads.exactly 4 _) fun magic => Reads.bind (Reads.require _ _) fun _ => ?_
  refine Reads.bind (Reads.word 4 _) fun version => Reads.bind (Reads.require _ _) fun _ => ?_
  refine Reads.bind (reads_count version) fun tensorCount => ?_
  refine Reads.bind (reads_count version) fun metadataKvCount => ?_
  refine Reads.bind (reads_allocate 48 metadataKvCount) fun _ => ?_
  refine Reads.bind ((reads_metadata frames).times metadataKvCount) fun metadata => ?_
  refine Reads.bind (reads_allocate 88 tensorCount) fun _ => ?_
  exact (reads_tensor.times tensorCount).bind fun tensors => Reads.pure _

theorem parseGgufHeader_panics_iff {frames : ℕ} {file : List UInt8} :
    parseGgufHeader render frames file = panics ↔
      ∃ d, (headerFormat render frames).demands file d ∧ ¬d.Granted := by
  rw [← (reads_header frames).panics file, parseGgufHeader]
  cases readHeader render frames file with
  | error e =>
    constructor
    · intro panicked
      cases panicked
      rfl
    · intro panicked
      cases panicked
      rfl
  | ok header => simp [Except.map, panics]

/-- A header is read without a panic exactly where all that its format demands is there. -/
theorem returns_iff (render : Rendering) (frames : ℕ) (file : List UInt8) :
    parseGgufHeader render frames file ≠ panics ↔
      ∀ d, (headerFormat render frames).demands file d → d.Granted := by
  rw [ne_eq, parseGgufHeader_panics_iff]
  simp only [not_exists, not_and, not_not]

end Readers

/-! ## Headers that demand too much -/

section Demanding

open LittleEndian

variable {render : Rendering} {frames : ℕ} {d : Demand}

def headerFile (tensorCount metadataKvCount : ℕ) (body : List UInt8) : List UInt8 :=
  ggufMagic ++ (encode 4 3 ++ (encode 8 tensorCount ++ (encode 8 metadataKvCount ++ body)))

theorem demands_headerFile {tensorCount metadataKvCount : ℕ} {body : List UInt8}
    (tensors : tensorCount < 256 ^ 8) (metadata : metadataKvCount < 256 ^ 8)
    (demanded : (bodyFormat render frames tensorCount metadataKvCount).demands body d) :
    (headerFormat render frames).demands (headerFile tensorCount metadataKvCount body) d :=
  .inr ⟨ggufMagic, _, ⟨rfl, rfl⟩, .inr ⟨(), _, ⟨rfl, rfl⟩, .inr ⟨3, _, ⟨by decide, rfl⟩,
    .inr ⟨(), _, ⟨by decide, rfl⟩, .inr ⟨tensorCount, _, ⟨tensors, rfl⟩,
      .inr ⟨metadataKvCount, _, ⟨metadata, rfl⟩, demanded⟩⟩⟩⟩⟩⟩

theorem takes_empty (rest : List UInt8) : stringFormat.takes (encode 8 0 ++ rest) "" rest :=
  ⟨0, rest, ⟨by decide, rfl⟩, (), rest, ⟨trivial, rfl⟩, by simp, by simp⟩

def nestedArrays : ℕ → List UInt8
  | 0 => []
  | depth + 1 => encode 4 9 ++ (encode 8 1 ++ nestedArrays depth)

/-- Every level of nesting takes a frame, until there is none. -/
theorem demands_nestedArrays (frames : ℕ) :
    (valueFormat render frames 9).demands (nestedArrays frames) .frame := by
  induction frames with
  | zero => exact rfl
  | succ frames ih =>
    refine .inr ⟨9, _, ⟨by decide, rfl⟩, .inr ⟨1, _, ⟨by decide, rfl⟩, ?_⟩⟩
    exact .inr ⟨(), _, ⟨trivial, rfl⟩, .inl (.inl ih)⟩

theorem nested_panics (frames : ℕ) : parseGgufHeader render frames
    (headerFile 0 1 (encode 8 0 ++ (encode 4 9 ++ nestedArrays frames))) = panics := by
  refine parseGgufHeader_panics_iff.mpr ⟨.frame, ?_, fun never => never⟩
  refine demands_headerFile (by decide) (by decide) (.inr ⟨(), _, ⟨trivial, rfl⟩, .inl (.inl ?_)⟩)
  exact .inr ⟨"", _, takes_empty _,
    .inr ⟨9, _, ⟨by decide, rfl⟩, .inl (demands_nestedArrays frames)⟩⟩

theorem count_panics (frames : ℕ) : parseGgufHeader render frames (headerFile 0 (2 ^ 63) []) =
    panics := by
  refine parseGgufHeader_panics_iff.mpr ⟨.capacity (48 * 2 ^ 63), ?_, by simp [Demand.Granted]⟩
  exact demands_headerFile (by decide) (by decide) (.inl rfl)

def hugeTensor : List UInt8 :=
  encode 8 0 ++ (encode 4 3 ++ (encode 4 (2 ^ 32 - 1) ++ (encode 4 (2 ^ 32 - 1) ++
    (encode 4 (2 ^ 32 - 1) ++ (encode 4 0 ++ (encode 8 0 ++ []))))))

theorem size_panics (frames : ℕ) : parseGgufHeader render frames (headerFile 1 0 hugeTensor) =
    panics := by
  refine parseGgufHeader_panics_iff.mpr
    ⟨.product ([2 ^ 32 - 1, 2 ^ 32 - 1, 2 ^ 32 - 1].take 3).prod, ?_, by simp [Demand.Granted]⟩
  refine demands_headerFile (by decide) (by decide) (.inr ⟨(), _, ⟨trivial, rfl⟩,
    .inr ⟨[], _, ⟨rfl, rfl⟩, .inr ⟨(), _, ⟨trivial, rfl⟩, .inl (.inl ?_)⟩⟩⟩)
  have dim : ∀ rest : List UInt8, (Format.word 4 : Format UInt8 Demand ℕ).takes
      (encode 4 (2 ^ 32 - 1) ++ rest) (2 ^ 32 - 1) rest := fun rest => ⟨by decide, rfl⟩
  refine .inr ⟨"", _, takes_empty _,
    .inr ⟨3, _, ⟨by decide, rfl⟩, .inr ⟨(), _, ⟨trivial, rfl⟩, ?_⟩⟩⟩
  refine .inr ⟨[2 ^ 32 - 1, 2 ^ 32 - 1, 2 ^ 32 - 1], _, ?_, .inr ⟨0, _, ⟨by decide, rfl⟩,
    .inr ⟨0, [], ⟨by decide, rfl⟩, .inl (.inl ⟨3, by decide, rfl⟩)⟩⟩⟩
  exact ⟨_, _, dim _, _, _,
    ⟨_, _, dim _, _, _, ⟨_, _, dim _, _, _, ⟨rfl, rfl⟩, rfl, rfl⟩, rfl, rfl⟩, rfl, rfl⟩

/-- However large the stack, none of these headers is read without a panic. -/
theorem header_panics : ¬∃ (render : Rendering) (frames : ℕ),
    parseGgufHeader render frames (headerFile 0 (2 ^ 63) []) ≠ panics ∨
    parseGgufHeader render frames
      (headerFile 0 1 (encode 8 0 ++ (encode 4 9 ++ nestedArrays frames))) ≠ panics ∨
    parseGgufHeader render frames (headerFile 1 0 hugeTensor) ≠ panics := by
  rintro ⟨render, frames, count | nested | size⟩
  · exact count (count_panics frames)
  · exact nested (nested_panics frames)
  · exact size (size_panics frames)

end Demanding

end TribunusCompute.Gguf
