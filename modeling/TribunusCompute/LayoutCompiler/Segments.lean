import TribunusCompute.LayoutCompiler.Compile

/-!
# What the layout compiler emits

Each segment is a placement of blocks. The reported ranges of a segment are disjoint exactly when
no tensor's padding pushes it into a later one, and a report passes the validator exactly when its
tensor starts on the natural alignment of its dtype.
-/
namespace TribunusCompute.LayoutCompiler

open Outcome Placement

/-- Every alignment is the default or a power of two. -/
def WellAligned (ir : LayoutIr) : Prop :=
  ∀ entry ∈ ir.tensors, entry.2.alignment = 0 ∨ ∃ k, entry.2.alignment.toNat = 2 ^ k

def size (tensor : LayoutTensor) : ℕ :=
  (tensor.logicalShape.map UInt32.toNat).prod * (dtypeInfo tensor.dtype).nbytes

theorem dtypeInfo_alignment (dtype : String) : ∃ k ≤ 3, (dtypeInfo dtype).alignment = 2 ^ k := by
  unfold dtypeInfo
  split_ifs
  · exact ⟨2, by decide, rfl⟩
  · exact ⟨1, by decide, rfl⟩
  · exact ⟨0, by decide, rfl⟩
  · exact ⟨2, by decide, rfl⟩
  · exact ⟨3, by decide, rfl⟩
  · exact ⟨2, by decide, rfl⟩

theorem specAlign_pos (tensor : LayoutTensor) : 0 < specAlign tensor := by
  unfold specAlign
  split
  next asked => exact asked
  next =>
    obtain ⟨k, -, natural⟩ := dtypeInfo_alignment tensor.dtype
    rw [natural]
    exact Nat.two_pow_pos k

theorem specAlign_eq {tensor : LayoutTensor}
    (aligned : tensor.alignment = 0 ∨ ∃ k, tensor.alignment.toNat = 2 ^ k) :
    ∃ k ≤ 32, specAlign tensor = 2 ^ k := by
  unfold specAlign
  split
  next asked =>
    rcases aligned with default | ⟨k, power⟩
    · rw [default] at asked
      exact absurd asked (by decide)
    · have small : 2 ^ k < 2 ^ 32 := power ▸ tensor.alignment.toNat_lt
      exact ⟨k, Nat.le_of_lt ((Nat.pow_lt_pow_iff_right (by decide)).mp small), power⟩
  next =>
    obtain ⟨k, small, natural⟩ := dtypeInfo_alignment tensor.dtype
    exact ⟨k, Nat.le_trans small (by decide), natural⟩

/-- A weight starts where the one before it ended, and is reported on its alignment. -/
def weightBlock (tensor : LayoutTensor) : Block where
  size := size tensor
  lead := 1
  trail := specAlign tensor
  lead_pos := Nat.one_pos
  trail_pos := specAlign_pos tensor

/-- An activation starts on its alignment, and is reported on the page where it is a surface. -/
def activationBlock (tensor : LayoutTensor) : Block where
  size := size tensor
  lead := specAlign tensor
  trail := if tensor.ioSurface then metalPageSize else 1
  lead_pos := specAlign_pos tensor
  trail_pos := by split <;> decide

theorem elements_ok {shape : List UInt32} {start elements : ℕ}
    (ok : shape.foldlM (fun elements dim => fit 64 (elements * dim.toNat)) start = .ok elements) :
    elements = start * (shape.map UInt32.toNat).prod := by
  induction shape generalizing start with
  | nil =>
    obtain rfl := pure_ok_iff.mp ok
    simp
  | cons dim shape ih =>
    obtain ⟨next, first, later⟩ := foldlM_cons_ok_iff.mp ok
    obtain ⟨-, rfl⟩ := fit_ok_iff.mp first
    rw [ih later, List.map_cons, List.prod_cons, Nat.mul_assoc]

theorem computeNbytes_ok {shape : List UInt32} {elementNbytes nbytes : ℕ}
    (ok : computeNbytes shape elementNbytes = .ok nbytes) :
    nbytes = (shape.map UInt32.toNat).prod * elementNbytes := by
  obtain ⟨elements, counted, sized⟩ := bind_ok_iff.mp ok
  obtain ⟨-, rfl⟩ := fit_ok_iff.mp sized
  rw [elements_ok counted, Nat.one_mul]

theorem alignUp_ok {offset align aligned : ℕ} (power : ∃ k ≤ 32, align = 2 ^ k)
    (ok : alignUp offset align = .ok aligned) : aligned = roundUp offset align := by
  obtain ⟨k, small, rfl⟩ := power
  have positive := Nat.two_pow_pos k
  rw [alignUp, if_neg positive.ne'] at ok
  obtain ⟨raised, within, done⟩ := bind_ok_iff.mp ok
  obtain ⟨fits, rfl⟩ := fit_ok_iff.mp within
  obtain rfl := pure_ok_iff.mp done
  -- the complement of the mask
  have ones : 2 ^ 64 - 1 - (2 ^ k - 1) = 2 ^ 64 - 2 ^ k := by omega
  rw [ones, land_clear fits (by omega), roundUp]

theorem length_strides {shape : List UInt32} {elementNbytes : ℕ} {strides : List ℕ}
    (ok : computeContiguousStrides shape elementNbytes = .ok strides) :
    strides.length = shape.length := by
  obtain ⟨stop, looped, done⟩ := bind_ok_iff.mp ok
  obtain rfl := pure_ok_iff.mp done
  have pushed : ∀ (dims : List UInt32) (start : List ℕ × ℕ),
      dims.foldlM (fun state dim => do
        let next ← fit 64 (state.2 * dim.toNat)
        return (state.1 ++ [state.2], next)) start = Except.ok stop →
      stop.1.length = start.1.length + dims.length := by
    intro dims
    induction dims with
    | nil =>
      intro start looped
      obtain rfl := pure_ok_iff.mp looped
      rfl
    | cons dim dims ih =>
      intro start looped
      obtain ⟨middle, first, later⟩ := foldlM_cons_ok_iff.mp looped
      obtain ⟨stride, -, done⟩ := bind_ok_iff.mp first
      obtain rfl := pure_ok_iff.mp done
      have rest := ih _ later
      simp only [List.length_append, List.length_singleton] at rest
      rw [rest, List.length_cons, Nat.add_assoc, Nat.add_comm 1]
  simpa using pushed _ _ looped

theorem isContiguous_ok {shape : List UInt32} {elementNbytes : ℕ} {strides : List ℕ}
    {contiguous : Bool} (ok : computeContiguousStrides shape elementNbytes = .ok strides)
    (checked : isContiguous strides shape elementNbytes = .ok contiguous) : contiguous = true := by
  unfold isContiguous at checked
  rw [if_neg (not_not.mpr (length_strides ok))] at checked
  by_cases empty : shape = []
  · rw [if_pos empty] at checked
    exact (pure_ok_iff.mp checked).symm
  · rw [if_neg empty, ok] at checked
    have equal := pure_ok_iff.mp checked
    simpa using equal.symm

/-- The report of a tensor placed as a block. -/
structure Placed (segment running : ℕ) (block : Block) (tensor : LayoutTensor)
    (report : LayoutReport) : Prop where
  dtype : report.dtype = tensor.dtype
  segment : report.segmentIndex = segment
  starts : report.byteOffset = block.start running
  range : (report.alignedOffset, report.nbytes) = block.range running
  fits : report.byteOffset + report.nbytes < 2 ^ 64
  contiguous : report.contiguous = true
  paged : report.zeroCopyEligible = true → report.alignedOffset % metalPageSize = 0

theorem layoutWeight_ok {offset next : ℕ} {tensor : LayoutTensor} {report : LayoutReport}
    (aligned : ∃ k ≤ 32, specAlign tensor = 2 ^ k)
    (ok : layoutWeight offset tensor = .ok (next, report)) :
    next = (weightBlock tensor).stop offset ∧
      Placed weightSegment offset (weightBlock tensor) tensor report := by
  obtain ⟨nbytes, sized, ok⟩ := bind_ok_iff.mp ok
  obtain rfl : nbytes = size tensor := computeNbytes_ok sized
  obtain ⟨stop, within, ok⟩ := bind_ok_iff.mp ok
  obtain ⟨fits, rfl⟩ := fit_ok_iff.mp within
  obtain ⟨alignedOffset, raised, ok⟩ := bind_ok_iff.mp ok
  obtain rfl := alignUp_ok aligned raised
  obtain ⟨strides, strided, ok⟩ := bind_ok_iff.mp ok
  obtain ⟨contiguous, checked, ok⟩ := bind_ok_iff.mp ok
  obtain ⟨violation, -, ok⟩ := bind_ok_iff.mp ok
  obtain ⟨rfl, rfl⟩ := Prod.mk.inj (pure_ok_iff.mp ok)
  have unmoved : (weightBlock tensor).start offset = offset := roundUp_one offset
  constructor
  · rw [Block.stop, unmoved]
    rfl
  · constructor
    · rfl
    · rfl
    · exact unmoved.symm
    · rw [Block.range, unmoved]
      rfl
    · exact fits
    · exact isContiguous_ok strided checked
    · intro eligible
      obtain ⟨onPage, -⟩ := of_decide_eq_true eligible
      obtain ⟨k, -, power⟩ := aligned
      -- a smaller alignment leaves a page start where it is, a larger one ends on a page
      rcases Nat.le_total k 12 with small | large
      · have divides : specAlign tensor ∣ offset := by
          rw [power]
          exact Nat.dvd_trans (Nat.pow_dvd_pow 2 small) (Nat.dvd_of_mod_eq_zero onPage)
        rw [roundUp_of_dvd divides]
        exact onPage
      · apply Nat.mod_eq_zero_of_dvd
        apply Nat.dvd_trans (Nat.pow_dvd_pow 2 large)
        rw [← power]
        exact dvd_roundUp offset (specAlign tensor)

theorem validateZeroCopyConditions_uncapped {byteOffset nbytes alignment stop ending : ℕ}
    {contiguous : Bool} {tensor : LayoutTensor} {strides : List ℕ} {violation : Option String}
    (ok : validateZeroCopyConditions byteOffset nbytes alignment contiguous tensor strides stop 0 =
      .ok (violation, ending)) : ending = stop := by
  unfold validateZeroCopyConditions at ok
  split at ok
  · exact (Prod.mk.inj (pure_ok_iff.mp ok)).2.symm
  obtain ⟨-, -, ok⟩ := bind_ok_iff.mp ok
  split at ok
  · exact (Prod.mk.inj (pure_ok_iff.mp ok)).2.symm
  split at ok
  · exact (Prod.mk.inj (pure_ok_iff.mp ok)).2.symm
  obtain ⟨tensorEnd, -, ok⟩ := bind_ok_iff.mp ok
  rw [if_neg (by simp), if_neg (by simp)] at ok
  exact (Prod.mk.inj (pure_ok_iff.mp ok)).2.symm

theorem layoutActivation_ok {offset next : ℕ} {tensor : LayoutTensor} {report : LayoutReport}
    (aligned : ∃ k ≤ 32, specAlign tensor = 2 ^ k)
    (ok : layoutActivation offset tensor = .ok (next, report)) :
    next = (activationBlock tensor).stop offset ∧
      Placed defaultActivationSegment offset (activationBlock tensor) tensor report := by
  obtain ⟨nbytes, sized, ok⟩ := bind_ok_iff.mp ok
  obtain rfl : nbytes = size tensor := computeNbytes_ok sized
  obtain ⟨byteOffset, raised, ok⟩ := bind_ok_iff.mp ok
  obtain rfl := alignUp_ok aligned raised
  obtain ⟨stop, within, ok⟩ := bind_ok_iff.mp ok
  obtain ⟨fits, rfl⟩ := fit_ok_iff.mp within
  obtain ⟨alignedOffset, raisedAgain, ok⟩ := bind_ok_iff.mp ok
  obtain ⟨strides, strided, ok⟩ := bind_ok_iff.mp ok
  obtain ⟨contiguous, checked, ok⟩ := bind_ok_iff.mp ok
  obtain ⟨⟨violation, ending⟩, validated, ok⟩ := bind_ok_iff.mp ok
  obtain ⟨rfl, rfl⟩ := Prod.mk.inj (pure_ok_iff.mp ok)
  obtain rfl := validateZeroCopyConditions_uncapped validated
  -- the range is raised to a page where a surface backs the tensor
  have reported : alignedOffset = ((activationBlock tensor).range offset).1 := by
    show alignedOffset = roundUp (roundUp offset (specAlign tensor))
      (if tensor.ioSurface then metalPageSize else 1)
    split at raisedAgain
    next surface =>
      rw [if_pos surface]
      exact alignUp_ok ⟨12, by decide, rfl⟩ raisedAgain
    next plain =>
      rw [if_neg plain, roundUp_one]
      exact (pure_ok_iff.mp raisedAgain).symm
  constructor
  · rfl
  · constructor
    · rfl
    · rfl
    · rfl
    · exact Prod.ext reported rfl
    · exact fits
    · exact isContiguous_ok strided checked
    · intro eligible
      obtain ⟨-, -, surface⟩ := of_decide_eq_true eligible
      rw [if_pos surface] at raisedAgain
      apply Nat.mod_eq_zero_of_dvd
      show metalPageSize ∣ alignedOffset
      rw [alignUp_ok ⟨12, by decide, rfl⟩ raisedAgain]
      exact dvd_roundUp _ metalPageSize

/-- The reports of a segment, each of its tensor placed behind those before it. -/
inductive Laid (segment : ℕ) (block : LayoutTensor → Block) :
    ℕ → List LayoutTensor → List LayoutReport → Prop
  | nil {running : ℕ} : Laid segment block running [] []
  | cons {running : ℕ} {tensor : LayoutTensor} {report : LayoutReport}
      {tensors : List LayoutTensor} {reports : List LayoutReport}
      (first : Placed segment running (block tensor) tensor report)
      (rest : Laid segment block ((block tensor).stop running) tensors reports) :
      Laid segment block running (tensor :: tensors) (report :: reports)

/-- Every tensor of a segment starts on the natural alignment of its dtype. -/
def StartNaturally (block : LayoutTensor → Block) : ℕ → List LayoutTensor → Prop
  | _, [] => True
  | running, tensor :: rest =>
    (dtypeInfo tensor.dtype).alignment ∣ (block tensor).start running ∧
      StartNaturally block ((block tensor).stop running) rest

/-- Two non-empty tensors of one segment share no byte. -/
def RangesDisjoint (reports : List LayoutReport) : Prop :=
  reports.Pairwise fun left right =>
    left.segmentIndex = right.segmentIndex → left.nbytes ≠ 0 → right.nbytes ≠ 0 →
      Apart (left.alignedOffset, left.nbytes) (right.alignedOffset, right.nbytes)

instance decidableStartNaturally (block : LayoutTensor → Block) :
    ∀ running tensors, Decidable (StartNaturally block running tensors)
  | _, [] => inferInstanceAs (Decidable True)
  | running, tensor :: rest =>
    have := decidableStartNaturally block ((block tensor).stop running) rest
    inferInstanceAs (Decidable (_ ∣ _ ∧ StartNaturally block ((block tensor).stop running) rest))

instance (reports : List LayoutReport) : Decidable (RangesDisjoint reports) :=
  inferInstanceAs (Decidable (reports.Pairwise _))

section Laid

variable {segment : ℕ} {block : LayoutTensor → Block} {running : ℕ}
  {layout : ℕ → LayoutTensor → Outcome (ℕ × LayoutReport)}
  {tensors : List LayoutTensor} {reports : List LayoutReport} {report : LayoutReport}

theorem layoutSegment_ok
    (turn : ∀ tensor ∈ tensors, ∀ offset next report,
      layout offset tensor = .ok (next, report) →
      next = (block tensor).stop offset ∧ Placed segment offset (block tensor) tensor report)
    (ok : layoutSegment layout running tensors = .ok reports) :
    Laid segment block running tensors reports := by
  induction tensors generalizing running reports with
  | nil =>
    obtain rfl := pure_ok_iff.mp ok
    exact .nil
  | cons tensor rest ih =>
    obtain ⟨⟨next, report⟩, first, ok⟩ := bind_ok_iff.mp ok
    obtain ⟨later, others, ok⟩ := bind_ok_iff.mp ok
    obtain rfl := pure_ok_iff.mp ok
    obtain ⟨rfl, placed⟩ := turn tensor List.mem_cons_self _ _ _ first
    apply Laid.cons placed
    apply ih _ others
    intro other member
    exact turn other (List.mem_cons_of_mem _ member)

theorem Laid.segmentIndex (laid : Laid segment block running tensors reports) :
    ∀ report ∈ reports, report.segmentIndex = segment := by
  induction laid with
  | nil => simp
  | cons first _ ih => exact List.forall_mem_cons.mpr ⟨first.segment, ih⟩

theorem Laid.ranges (laid : Laid segment block running tensors reports) :
    reports.map (fun report => (report.alignedOffset, report.nbytes)) =
      Placement.ranges running (tensors.map block) := by
  induction laid with
  | nil => rfl
  | cons first _ ih => rw [List.map_cons, List.map_cons, Placement.ranges, ih, first.range]

theorem Laid.disjoint_iff (laid : Laid segment block running tensors reports) :
    RangesDisjoint reports ↔ Clear running (tensors.map block) := by
  rw [clear_iff, ← laid.ranges, List.pairwise_map]
  have same := laid.segmentIndex
  constructor
  · intro apart
    apply apart.imp_of_mem
    intro left right leftIn rightIn here
    exact here ((same left leftIn).trans (same right rightIn).symm)
  · intro apart
    apply apart.imp
    intro left right here _
    exact here

end Laid

theorem flagged_eq_nil {errors : List String} {error : String} {flagged : Prop}
    [Decidable flagged] :
    (if flagged then errors ++ [error] else errors) = [] ↔ errors = [] ∧ ¬flagged := by
  split
  next yes => simp [yes]
  next no => simp [no]

theorem validateLayout_ok_iff {report : LayoutReport} {segmentNbytes : ℕ}
    (fits : report.byteOffset + report.nbytes < 2 ^ 64) :
    validateLayout report segmentNbytes = .ok (.ok ()) ↔
      ¬(report.zeroCopyEligible ∧ report.alignedOffset % metalPageSize ≠ 0) ∧
        report.contiguous = true ∧ (dtypeInfo report.dtype).alignment ∣ report.byteOffset ∧
          report.byteOffset + report.nbytes ≤ segmentNbytes := by
  have stops : fit 64 (report.byteOffset + report.nbytes) =
      .ok (report.byteOffset + report.nbytes) := fit_ok_iff.mpr ⟨fits, rfl⟩
  have passes : ∀ errors : List String,
      (pure (if errors = [] then .ok () else .error errors) :
        Outcome (Except (List String) Unit)) = .ok (.ok ()) ↔ errors = [] := by
    intro errors
    split
    next none => simp [none]
    next some => simp [some]
  unfold validateLayout
  rw [stops]
  apply (passes _).trans
  simp only [flagged_eq_nil, Bool.not_eq_true', Bool.not_eq_false, ne_eq, not_not,
    Nat.dvd_iff_mod_eq_zero, Nat.not_lt, gt_iff_lt, true_and, and_assoc]

theorem Placed.validateLayout_iff {segment running segmentNbytes : ℕ} {block : Block}
    {tensor : LayoutTensor} {report : LayoutReport}
    (placed : Placed segment running block tensor report)
    (holds : report.byteOffset + report.nbytes ≤ segmentNbytes) :
    validateLayout report segmentNbytes = .ok (.ok ()) ↔
      (dtypeInfo tensor.dtype).alignment ∣ block.start running := by
  rw [validateLayout_ok_iff placed.fits, placed.dtype, placed.starts]
  constructor
  · rintro ⟨-, -, natural, -⟩
    exact natural
  · intro natural
    refine ⟨?_, placed.contiguous, natural, placed.starts ▸ holds⟩
    rintro ⟨eligible, off⟩
    exact off (placed.paged eligible)

theorem Laid.fits {segment running : ℕ} {block : LayoutTensor → Block}
    {tensors : List LayoutTensor} {reports : List LayoutReport}
    (laid : Laid segment block running tensors reports) :
    ∀ report ∈ reports, report.byteOffset + report.nbytes < 2 ^ 64 := by
  induction laid with
  | nil => simp
  | cons first _ ih => exact List.forall_mem_cons.mpr ⟨first.fits, ih⟩

theorem Laid.validated_iff {segment running segmentNbytes : ℕ} {block : LayoutTensor → Block}
    {tensors : List LayoutTensor} {reports : List LayoutReport}
    (laid : Laid segment block running tensors reports)
    (holds : ∀ report ∈ reports, report.byteOffset + report.nbytes ≤ segmentNbytes) :
    (∀ report ∈ reports, validateLayout report segmentNbytes = .ok (.ok ())) ↔
      StartNaturally block running tensors := by
  induction laid with
  | nil => simp [StartNaturally]
  | cons first _ ih =>
    obtain ⟨here, later⟩ := List.forall_mem_cons.mp holds
    rw [List.forall_mem_cons, first.validateLayout_iff here, ih later, StartNaturally]

theorem compileLayouts_ok {ir : LayoutIr} {reports : List LayoutReport} (aligned : WellAligned ir)
    (ok : compileLayouts ir = .ok reports) :
    ∃ weights activations, reports = weights ++ activations ∧
      Laid weightSegment weightBlock 0 (sortedWeights ir) weights ∧
      Laid defaultActivationSegment activationBlock 0 (sortedActivations ir) activations := by
  obtain ⟨weights, first, ok⟩ := bind_ok_iff.mp ok
  obtain ⟨activations, second, ok⟩ := bind_ok_iff.mp ok
  obtain rfl := pure_ok_iff.mp ok
  have sorted : ∀ {kept : LayoutTensor → Bool} {before : LayoutTensor → LayoutTensor → Prop}
      [DecidableRel before] {tensor : LayoutTensor},
      tensor ∈ ((ir.tensors.map Prod.snd).filter kept).insertionSort before →
      ∃ k ≤ 32, specAlign tensor = 2 ^ k := by
    intro kept before _ tensor member
    obtain ⟨inside, -⟩ := List.mem_filter.mp ((List.mem_insertionSort before).mp member)
    obtain ⟨entry, there, rfl⟩ := List.mem_map.mp inside
    exact specAlign_eq (aligned entry there)
  refine ⟨weights, activations, rfl, ?_, ?_⟩
  · apply layoutSegment_ok _ first
    intro tensor member offset next report
    exact layoutWeight_ok (sorted member)
  · apply layoutSegment_ok _ second
    intro tensor member offset next report
    exact layoutActivation_ok (sorted member)

/-- The ranges of a segment are disjoint exactly when no padding pushes a tensor into a later
one. -/
theorem compileLayouts_rangesDisjoint_iff (ir : LayoutIr) (reports : List LayoutReport)
    (aligned : WellAligned ir) (ok : compileLayouts ir = .ok reports) :
    RangesDisjoint reports ↔
      Clear 0 ((sortedWeights ir).map weightBlock) ∧
        Clear 0 ((sortedActivations ir).map activationBlock) := by
  obtain ⟨weights, activations, rfl, first, second⟩ := compileLayouts_ok aligned ok
  rw [← first.disjoint_iff, ← second.disjoint_iff]
  unfold RangesDisjoint
  rw [List.pairwise_append]
  -- reports of different segments are not compared
  have across : ∀ left ∈ weights, ∀ right ∈ activations,
      left.segmentIndex = right.segmentIndex → left.nbytes ≠ 0 → right.nbytes ≠ 0 →
        Apart (left.alignedOffset, left.nbytes) (right.alignedOffset, right.nbytes) := by
    intro left leftIn right rightIn same
    rw [first.segmentIndex left leftIn, second.segmentIndex right rightIn] at same
    exact absurd same (by decide)
  constructor
  · rintro ⟨apart, apart', -⟩
    exact ⟨apart, apart'⟩
  · rintro ⟨apart, apart'⟩
    exact ⟨apart, apart', across⟩

/-- A graph of weights with the default alignment, named by its keys. -/
def weightsOf (dtypes : List (String × String)) (distinct : (dtypes.map Prod.fst).Nodup) :
    LayoutIr where
  ops := []
  tensors := dtypes.map fun entry => (entry.1, {
    name := entry.1
    logicalShape := [1]
    dtype := entry.2
    isWeight := true
    ioSurface := false
    alignment := 0 })
  distinct := by simpa [Function.comp_def] using distinct

theorem wellAligned_weightsOf (dtypes : List (String × String))
    (distinct : (dtypes.map Prod.fst).Nodup) : WellAligned (weightsOf dtypes distinct) := by
  intro entry member
  obtain ⟨named, -, rfl⟩ := List.mem_map.mp member
  exact .inl rfl

def byteWordByte : LayoutIr :=
  weightsOf [("a", "int8"), ("b", "float32"), ("c", "int8")] (by decide)

theorem byteWordByte_not_rangesDisjoint :
    ¬ ∀ ir reports, WellAligned ir → compileLayouts ir = .ok reports → RangesDisjoint reports := by
  intro all
  obtain ⟨reports, ok⟩ := exists_ok_of_isSome (x := compileLayouts byteWordByte) (by decide)
  have overlap : ¬RangesDisjoint ((compileLayouts byteWordByte).toOption.getD []) := by decide
  rw [ok] at overlap
  exact overlap (all byteWordByte reports (wellAligned_weightsOf _ _) ok)

def wordThenByte : LayoutIr := weightsOf [("a", "float32"), ("b", "int8")] (by decide)

theorem wordThenByte_rangesDisjoint :
    ∃ reports, compileLayouts wordThenByte = .ok reports ∧ RangesDisjoint reports := by
  obtain ⟨reports, ok⟩ := exists_ok_of_isSome (x := compileLayouts wordThenByte) (by decide)
  refine ⟨reports, ok, ?_⟩
  apply (compileLayouts_rangesDisjoint_iff _ _ (wellAligned_weightsOf _ _) ok).mpr
  decide

/-- Every report passes the validator, in a segment that holds all tensors of its segment. -/
def Accepted (reports : List LayoutReport) : Prop :=
  ∀ report ∈ reports, ∀ segmentNbytes : UInt64,
    (∀ other ∈ reports, other.segmentIndex = report.segmentIndex →
      other.byteOffset + other.nbytes ≤ segmentNbytes.toNat) →
    validateLayout report segmentNbytes.toNat = .ok (.ok ())

/-- The validator accepts the reports exactly when every tensor starts on the natural alignment
of its dtype. -/
theorem compileLayouts_accepted_iff (ir : LayoutIr) (reports : List LayoutReport)
    (aligned : WellAligned ir) (ok : compileLayouts ir = .ok reports) :
    Accepted reports ↔
      StartNaturally weightBlock 0 (sortedWeights ir) ∧
        StartNaturally activationBlock 0 (sortedActivations ir) := by
  obtain ⟨weights, activations, rfl, first, second⟩ := compileLayouts_ok aligned ok
  have largest : (UInt64.ofNat (2 ^ 64 - 1)).toNat = 2 ^ 64 - 1 := rfl
  constructor
  · intro accepted
    -- the largest segment there is holds every report
    have inside : ∀ report ∈ weights ++ activations,
        report.byteOffset + report.nbytes ≤ (UInt64.ofNat (2 ^ 64 - 1)).toNat := by
      intro report member
      have fits := (List.mem_append.mp member).elim (first.fits report) (second.fits report)
      rw [largest]
      omega
    have passed : ∀ report ∈ weights ++ activations,
        validateLayout report (UInt64.ofNat (2 ^ 64 - 1)).toNat = .ok (.ok ()) := by
      intro report member
      apply accepted report member
      intro other there _
      exact inside other there
    constructor
    · apply (first.validated_iff _).mp
      · intro report member
        exact passed report (List.mem_append_left _ member)
      · intro report member
        exact inside report (List.mem_append_left _ member)
    · apply (second.validated_iff _).mp
      · intro report member
        exact passed report (List.mem_append_right _ member)
      · intro report member
        exact inside report (List.mem_append_right _ member)
  · rintro ⟨naturally, naturally'⟩ report member segmentNbytes holds
    rcases List.mem_append.mp member with left | right
    · apply (first.validated_iff _).mpr naturally report left
      intro other there
      apply holds other (List.mem_append_left _ there)
      rw [first.segmentIndex other there, first.segmentIndex report left]
    · apply (second.validated_iff _).mpr naturally' report right
      intro other there
      apply holds other (List.mem_append_right _ there)
      rw [second.segmentIndex other there, second.segmentIndex report right]

def byteThenWord : LayoutIr := weightsOf [("a", "int8"), ("b", "float32")] (by decide)

theorem byteThenWord_not_accepted :
    ¬ ∀ ir reports, WellAligned ir → compileLayouts ir = .ok reports → Accepted reports := by
  intro all
  obtain ⟨reports, ok⟩ := exists_ok_of_isSome (x := compileLayouts byteThenWord) (by decide)
  have accepted := all byteThenWord reports (wellAligned_weightsOf _ _) ok
  have misaligned : ∃ report ∈ (compileLayouts byteThenWord).toOption.getD [],
      ¬(dtypeInfo report.dtype).alignment ∣ report.byteOffset := by decide
  have short : ∀ report ∈ (compileLayouts byteThenWord).toOption.getD [],
      report.byteOffset + report.nbytes ≤ (5 : UInt64).toNat := by decide
  rw [ok] at misaligned short
  obtain ⟨report, member, off⟩ := misaligned
  have passed := accepted report member 5 fun other there _ => short other there
  have fits := Nat.lt_of_le_of_lt (short report member) (UInt64.toNat_lt 5)
  exact off ((validateLayout_ok_iff fits).mp passed).2.2.1

theorem wordThenByte_accepted :
    ∃ reports, compileLayouts wordThenByte = .ok reports ∧ Accepted reports := by
  obtain ⟨reports, ok⟩ := exists_ok_of_isSome (x := compileLayouts wordThenByte) (by decide)
  refine ⟨reports, ok, ?_⟩
  apply (compileLayouts_accepted_iff _ _ (wellAligned_weightsOf _ _) ok).mpr
  decide

end TribunusCompute.LayoutCompiler
