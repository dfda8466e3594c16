import TribunusCompute.ComputeImage.PrepackRanges

/-!
# The turns over one segment

A turn packs a weight, passes a tensor without bytes, or copies a tensor. If every weight comes
before the scales and the biases that it takes, the new payload is made of what its tensors are to
become. If one of these comes first, its bytes are written twice and the new payload is longer.
-/
namespace TribunusCompute.ComputeImage

open Outcome LayoutTransform

/-! ## Weights and what they take -/

/-- The groups of a weight; each has a scale and a bias. -/
def Triplet.groups (triplet : Triplet) : ℕ := triplet.n * (triplet.k / triplet.groupSize)

def Triplet.Takes (triplet : Triplet) (j : ℕ) : Prop := j = triplet.scales ∨ j = triplet.biases

abbrev PrepackPlan := ℕ → Outcome (Option Triplet)

def PrepackPlan.Taken (plan : PrepackPlan) (j : ℕ) : Prop :=
  ∃ i triplet, plan i = .ok (some triplet) ∧ triplet.Takes j

def PrepackPlan.TakenBefore (plan : PrepackPlan) (m j : ℕ) : Prop :=
  ∃ i < m, ∃ triplet, plan i = .ok (some triplet) ∧ triplet.Takes j

/-- The output of the pipeline for the bytes, the scales and the biases in these ranges. -/
def pipelineOn (payload : List UInt8) (weight scales biases : ℕ × ℕ) (triplet : Triplet) :
    Outcome (List UInt8) := do
  let weightBytes ← slicePayload payload weight
  let scaleBytes ← slicePayload payload scales
  let biasBytes ← slicePayload payload biases
  prepackPipeline weightBytes (floatsOf scaleBytes) (floatsOf biasBytes) triplet.k triplet.n
    triplet.groupSize

inductive Becomes (plan : PrepackPlan) (home : Ranges) (payload : List UInt8) :
    ℕ → List UInt8 → Prop
  | packed {i : ℕ} {triplet : Triplet} {bytes : List UInt8}
      (weight : plan i = .ok (some triplet))
      (packs : pipelineOn payload (home i) (home triplet.scales) (home triplet.biases) triplet =
        .ok bytes) : Becomes plan home payload i bytes
  | absorbed {i : ℕ} (plain : plan i = .ok none) (taken : plan.Taken i) :
      Becomes plan home payload i []
  | kept {i : ℕ} {bytes : List UInt8} (plain : plan i = .ok none) (free : ¬plan.Taken i)
      (slices : slicePayload payload (home i) = .ok bytes) : Becomes plan home payload i bytes

/-- What weights take are scales and biases of matching sizes, and no weights. -/
def Matching (plan : PrepackPlan) (home : Ranges) : Prop :=
  ∀ i triplet, plan i = .ok (some triplet) → ∀ j, triplet.Takes j →
    plan j = .ok none ∧ (home j).2 = 4 * triplet.groups

/-- Where there are scales and biases to be taken, each is taken once, by a weight before it. -/
structure Ordered (plan : PrepackPlan) : Prop where
  later : ∀ i triplet, plan i = .ok (some triplet) → ∀ j, triplet.Takes j →
    triplet.groups = 0 ∨ i < j
  once : ∀ i triplet, plan i = .ok (some triplet) → ∀ j, triplet.Takes j →
    plan.TakenBefore i j → triplet.groups = 0

/-- What the weight at a position takes is where it was, and can be read as singles. -/
def Readable (plan : PrepackPlan) (home : Ranges) (payload : List UInt8) (i : ℕ) : Prop :=
  ∀ triplet, plan i = .ok (some triplet) → ∀ j, triplet.Takes j →
    ¬plan.TakenBefore i j ∧ Aligned payload (home j)

/-- Weights without groups take what no other weight has taken. -/
def PrepackPlan.Unshared (plan : PrepackPlan) : Prop :=
  ∀ i triplet, plan i = .ok (some triplet) → triplet.groups = 0 → ∀ j, triplet.Takes j →
    ¬plan.TakenBefore i j

/-! ## Slices and packing -/

section Packing

variable {payload bytes packed : List UInt8} {range weight scales biases : ℕ × ℕ}
  {triplet : Triplet}

theorem slicePayload_ok_iff : slicePayload payload range = .ok bytes ↔
    (range.1 + range.2 < 2 ^ 64 ∧ range.1 + range.2 ≤ payload.length) ∧
      Tiling.slice payload range.1 range.2 = bytes := by
  unfold slicePayload
  simp only [bind_ok_iff, fit_ok_iff, assert_ok_iff, pure_ok_iff]
  constructor
  · rintro ⟨_, ⟨small, rfl⟩, _, inside, same⟩
    exact ⟨⟨small, inside⟩, same⟩
  · rintro ⟨⟨small, inside⟩, same⟩
    exact ⟨_, ⟨small, rfl⟩, (), inside, same⟩

theorem length_slicePayload (slices : slicePayload payload range = .ok bytes) :
    bytes.length = range.2 := by
  obtain ⟨⟨-, inside⟩, rfl⟩ := slicePayload_ok_iff.mp slices
  rw [Tiling.slice, List.length_take, List.length_drop]
  omega

theorem slicePayload_empty (small : payload.length < 2 ^ 63) (inside : range.1 ≤ payload.length)
    (empty : range.2 = 0) : slicePayload payload range = .ok [] := by
  refine slicePayload_ok_iff.mpr ⟨by omega, ?_⟩
  rw [empty, Tiling.slice, List.take_zero]

theorem length_floatsOf : (floatsOf bytes).length = bytes.length / 4 := by
  rw [floatsOf, List.length_map, List.length_range]

/-- Packing is the pipeline, where the scales and the biases can be read. -/
theorem packTriplet_ok_iff : packTriplet payload weight scales biases triplet = .ok packed ↔
    (Aligned payload scales ∧ Aligned payload biases) ∧
      pipelineOn payload weight scales biases triplet = .ok packed := by
  unfold packTriplet pipelineOn sliceFloats
  simp only [bind_ok_iff, assert_ok_iff, pure_ok_iff]
  constructor
  · rintro ⟨w, weighed, s, scaled, b, biased, _, ⟨-, fitS, rfl⟩, _, ⟨-, fitB, rfl⟩, done⟩
    exact ⟨⟨fitS, fitB⟩, w, weighed, s, scaled, b, biased, done⟩
  · rintro ⟨⟨fitS, fitB⟩, w, weighed, s, scaled, b, biased, done⟩
    exact ⟨w, weighed, s, scaled, b, biased, _, ⟨(), fitS, rfl⟩, _, ⟨(), fitB, rfl⟩, done⟩

/-- What packing a weight needs, and the size of what it returns. -/
theorem pipelineOn_ok (ok : pipelineOn payload weight scales biases triplet = .ok packed) :
    weight.2 = triplet.k * triplet.n ∧ scales.2 / 4 = triplet.groups ∧
      biases.2 / 4 = triplet.groups ∧ packed.length = weight.2 + 8 * triplet.groups := by
  unfold pipelineOn at ok
  obtain ⟨weightBytes, weighed, rest⟩ := bind_ok_iff.mp ok
  obtain ⟨scaleBytes, scaled, rest⟩ := bind_ok_iff.mp rest
  obtain ⟨biasBytes, biased, done⟩ := bind_ok_iff.mp rest
  obtain ⟨sized, length⟩ := prepackPipeline_ok done
  have whole := sized.weight
  have scaleCount := sized.scales
  have biasCount := sized.biases
  rw [length_slicePayload weighed] at whole
  rw [length_floatsOf, length_slicePayload scaled] at scaleCount
  rw [length_floatsOf, length_slicePayload biased] at biasCount
  refine ⟨whole, scaleCount, biasCount, ?_⟩
  have columns : triplet.k / triplet.groupSize * triplet.groupSize = triplet.k :=
    Nat.div_mul_cancel (Nat.dvd_of_mod_eq_zero sized.divides)
  rw [length, whole, Nat.mul_add, Nat.mul_assoc, columns, Nat.mul_comm triplet.n,
    Nat.mul_comm _ 8, Triplet.groups]

end Packing

/-! ## One turn -/

def turnAt (payload : List UInt8) (plan : PrepackPlan) (state : Ranges × List UInt8) (i : ℕ) :
    Outcome (Ranges × List UInt8) := do
  let eligible ← plan i
  turnRanges payload i eligible state

inductive Turned (payload : List UInt8) (plan : PrepackPlan) (i : ℕ) (ranges : Ranges)
    (written : List UInt8) : Ranges → List UInt8 → Prop
  | packed {triplet : Triplet} {bytes : List UInt8} (weight : plan i = .ok (some triplet))
      (packs : packTriplet payload (ranges i) (ranges triplet.scales) (ranges triplet.biases)
        triplet = .ok bytes)
      (fits : written.length + bytes.length < 2 ^ 63)
      (shaped : ∃ shape, packedShape triplet = .ok shape) :
      Turned payload plan i ranges written
        (ranges.pack i triplet written.length bytes.length) (written ++ bytes)
  | passed (plain : plan i = .ok none) (empty : (ranges i).2 = 0) :
      Turned payload plan i ranges written ranges written
  | copied {bytes : List UInt8} (plain : plan i = .ok none) (filled : (ranges i).2 ≠ 0)
      (slices : slicePayload payload (ranges i) = .ok bytes)
      (fits : written.length + bytes.length < 2 ^ 63) :
      Turned payload plan i ranges written
        (Function.update ranges i (written.length, (ranges i).2)) (written ++ bytes)

section Turn

variable {payload written written' : List UInt8} {plan : PrepackPlan} {ranges ranges' : Ranges}
  {i j here length : ℕ} {triplet : Triplet}

theorem turnAt_ok_iff : turnAt payload plan (ranges, written) i = .ok (ranges', written') ↔
    Turned payload plan i ranges written ranges' written' := by
  unfold turnAt
  rw [bind_ok_iff]
  constructor
  · rintro ⟨eligible, found, turned⟩
    cases eligible with
    | some triplet =>
      simp only [turnRanges, bind_ok_iff, fit_ok_iff, pure_ok_iff] at turned
      obtain ⟨bytes, packs, _, ⟨fits, -⟩, shape, shaped, same⟩ := turned
      cases same
      exact .packed found packs fits ⟨shape, shaped⟩
    | none =>
      by_cases empty : (ranges i).2 = 0
      · simp only [turnRanges, if_pos empty, pure_ok_iff] at turned
        cases turned
        exact .passed found empty
      · simp only [turnRanges, if_neg empty, bind_ok_iff, fit_ok_iff, pure_ok_iff] at turned
        obtain ⟨bytes, slices, _, ⟨fits, -⟩, same⟩ := turned
        cases same
        exact .copied found empty slices fits
  · intro turned
    cases turned with
    | packed found packs fits shaped =>
      obtain ⟨shape, shaped⟩ := shaped
      refine ⟨_, found, ?_⟩
      simp only [turnRanges, bind_ok_iff, fit_ok_iff, pure_ok_iff]
      exact ⟨_, packs, _, ⟨fits, rfl⟩, shape, shaped, rfl⟩
    | passed found empty => exact ⟨_, found, by simp only [turnRanges, if_pos empty]; rfl⟩
    | copied found filled slices fits =>
      refine ⟨_, found, ?_⟩
      simp only [turnRanges, if_neg filled, bind_ok_iff, fit_ok_iff, pure_ok_iff]
      exact ⟨_, slices, _, ⟨fits, rfl⟩, rfl⟩

theorem Ranges.pack_takes (takes : triplet.Takes j) :
    ranges.pack i triplet here length j = (here, 0) := by
  unfold Ranges.pack
  by_cases biases : j = triplet.biases
  · rw [biases, Function.update_self]
  · rw [Function.update_of_ne biases, takes.resolve_right biases, Function.update_self]

theorem Ranges.pack_free (free : ¬triplet.Takes j) :
    ranges.pack i triplet here length j = Function.update ranges i (here, length) j := by
  obtain ⟨scales, biases⟩ := not_or.mp free
  rw [Ranges.pack, Function.update_of_ne biases, Function.update_of_ne scales]

theorem Turned.length_le (turned : Turned payload plan i ranges written ranges' written') :
    written.length ≤ written'.length := by
  cases turned with
  | packed => rw [List.length_append]; omega
  | passed => rfl
  | copied => rw [List.length_append]; omega

/-- A turn moves nothing but its own tensor and what it takes. -/
theorem Turned.frame (turned : Turned payload plan i ranges written ranges' written')
    (other : j ≠ i) (free : ∀ triplet, plan i = .ok (some triplet) → ¬triplet.Takes j) :
    ranges' j = ranges j := by
  cases turned with
  | packed weight => rw [Ranges.pack_free (free _ weight), Function.update_of_ne other]
  | passed => rfl
  | copied => rw [Function.update_of_ne other]

end Turn

/-! ## Turns in order -/

/-- A segment: its payload holds its tensors, and its weights take what is in it. -/
structure Lot (plan : PrepackPlan) (home : Ranges) (payload : List UInt8) (lot : Set ℕ) :
    Prop where
  small : payload.length < 2 ^ 63
  inside : ∀ j ∈ lot, (home j).1 + (home j).2 ≤ payload.length
  closed : ∀ i ∈ lot, ∀ triplet, plan i = .ok (some triplet) → ∀ j, triplet.Takes j → j ∈ lot

/-- Before the turn at position `m`: what has been taken is empty, and what has not been moved is
where it was. -/
structure Placed (plan : PrepackPlan) (home : Ranges) (lot : Set ℕ) (m : ℕ) (ranges : Ranges)
    (written : List UInt8) : Prop where
  taken : ∀ j ∈ lot, plan.TakenBefore m j → (ranges j).2 = 0 ∧ (ranges j).1 ≤ written.length
  still : ∀ j ∈ lot, ¬plan.TakenBefore m j → m ≤ j ∨ plan j = .ok none ∧ (home j).2 = 0 →
    ranges j = home j

section Placed

variable {payload written written' piece : List UInt8} {plan : PrepackPlan}
  {home ranges ranges' : Ranges} {lot : Set ℕ} {m i j : ℕ} {triplet : Triplet}

theorem PrepackPlan.takenBefore_succ : plan.TakenBefore (m + 1) j ↔
    plan.TakenBefore m j ∨ ∃ triplet, plan m = .ok (some triplet) ∧ triplet.Takes j := by
  constructor
  · rintro ⟨i, earlier, triplet, weight, takes⟩
    rcases Nat.lt_succ_iff_lt_or_eq.mp earlier with before | rfl
    · exact .inl ⟨i, before, triplet, weight, takes⟩
    · exact .inr ⟨triplet, weight, takes⟩
  · rintro (⟨i, before, taken⟩ | ⟨triplet, weight, takes⟩)
    · exact ⟨i, Nat.lt_succ_of_lt before, taken⟩
    · exact ⟨m, Nat.lt_succ_self m, triplet, weight, takes⟩

theorem PrepackPlan.takenBefore_succ_of_plain (plain : plan m = .ok none) :
    plan.TakenBefore (m + 1) j ↔ plan.TakenBefore m j := by
  rw [takenBefore_succ, plain]
  simp

theorem PrepackPlan.TakenBefore.taken (before : plan.TakenBefore m j) : plan.Taken j := by
  obtain ⟨i, -, taken⟩ := before
  exact ⟨i, taken⟩

theorem Matching.not_taken (matching : Matching plan home)
    (weight : plan i = .ok (some triplet)) : ¬plan.Taken i := by
  rintro ⟨i', triplet', weight', takes⟩
  rw [(matching i' triplet' weight' i takes).1] at weight
  cases weight

/-- What a weight will yet take is empty, where its turn is not later. -/
theorem Ordered.empty (ordered : Ordered plan) (matching : Matching plan home)
    (taken : plan.Taken m) (notYet : ¬plan.TakenBefore m m) : (home m).2 = 0 := by
  obtain ⟨i, triplet, weight, takes⟩ := taken
  rw [(matching i triplet weight m takes).2]
  rcases ordered.later i triplet weight m takes with none | before
  · rw [none]
  · exact (notYet ⟨i, before, triplet, weight, takes⟩).elim

/-- Only tensors without bytes are to become nothing, but for those that are taken. -/
theorem Becomes.empty (becomes : Becomes plan home payload i []) (free : ¬plan.Taken i) :
    (home i).2 = 0 := by
  cases becomes with
  | packed weight packs =>
    have length := (pipelineOn_ok packs).2.2.2
    rw [List.length_nil] at length
    omega
  | absorbed plain taken => exact (free taken).elim
  | kept plain free slices => exact (length_slicePayload slices).symm

namespace Placed

theorem free (placed : Placed plan home lot m ranges written) (here : m ∈ lot)
    (notYet : ¬plan.TakenBefore m m) : ranges m = home m :=
  placed.still m here notYet (.inl le_rfl)

theorem empty (placed : Placed plan home lot m ranges written) (ordered : Ordered plan)
    (matching : Matching plan home) (here : m ∈ lot) (taken : plan.Taken m) :
    (ranges m).2 = 0 := by
  by_cases before : plan.TakenBefore m m
  · exact (placed.taken m here before).1
  · rw [placed.free here before, ordered.empty matching taken before]

/-- At its turn what a weight is the first to take is where it was. -/
theorem takes_eq (placed : Placed plan home lot m ranges written) (ordered : Ordered plan)
    (matching : Matching plan home) (segment : Lot plan home payload lot) (here : m ∈ lot)
    (weight : plan m = .ok (some triplet)) (takes : triplet.Takes j)
    (notYet : ¬plan.TakenBefore m j) : ranges j = home j := by
  obtain ⟨plain, size⟩ := matching m triplet weight j takes
  apply placed.still j (segment.closed m here triplet weight j takes) notYet
  rcases ordered.later m triplet weight j takes with none | later
  · exact .inr ⟨plain, by rw [size, none]⟩
  · exact .inl later.le

/-- At its turn a weight and what it takes are read as they were. -/
theorem pipelineOn_eq (placed : Placed plan home lot m ranges written) (ordered : Ordered plan)
    (matching : Matching plan home) (segment : Lot plan home payload lot) (here : m ∈ lot)
    (bounded : written.length ≤ payload.length) (weight : plan m = .ok (some triplet)) :
    pipelineOn payload (ranges m) (ranges triplet.scales) (ranges triplet.biases) triplet =
      pipelineOn payload (home m) (home triplet.scales) (home triplet.biases) triplet := by
  have same : ∀ j, triplet.Takes j →
      slicePayload payload (ranges j) = slicePayload payload (home j) := by
    intro j takes
    have member := segment.closed m here triplet weight j takes
    have inside := segment.inside j member
    by_cases before : plan.TakenBefore m j
    · have size := (matching m triplet weight j takes).2
      obtain ⟨empty, start⟩ := placed.taken j member before
      rw [ordered.once m triplet weight j takes before] at size
      rw [slicePayload_empty segment.small (start.trans bounded) empty,
        slicePayload_empty segment.small (by omega) size]
    · rw [placed.takes_eq ordered matching segment here weight takes before]
  have own := placed.free here fun before => matching.not_taken weight before.taken
  rw [pipelineOn, pipelineOn, own, same _ (.inl rfl), same _ (.inr rfl)]

/-- A weight that is packed was readable, if its companions are its own. -/
theorem readable (placed : Placed plan home lot m ranges written) (ordered : Ordered plan)
    (unshared : plan.Unshared) (matching : Matching plan home)
    (segment : Lot plan home payload lot) (here : m ∈ lot)
    (turned : Turned payload plan m ranges written ranges' written') :
    Readable plan home payload m := by
  intro triplet weight j takes
  have notYet : ¬plan.TakenBefore m j := fun before =>
    unshared m triplet weight (ordered.once m triplet weight j takes before) j takes before
  refine ⟨notYet, ?_⟩
  rw [← placed.takes_eq ordered matching segment here weight takes notYet]
  cases turned with
  | packed weight' packs =>
    rw [weight] at weight'
    cases weight'
    obtain ⟨⟨scales, biases⟩, -⟩ := packTriplet_ok_iff.mp packs
    rcases takes with rfl | rfl
    · exact scales
    · exact biases
  | passed plain | copied plain =>
    rw [weight] at plain
    cases plain

theorem turned (placed : Placed plan home lot m ranges written) (matching : Matching plan home)
    (here : m ∈ lot) (turned : Turned payload plan m ranges written ranges' written') :
    Placed plan home lot (m + 1) ranges' written' := by
  have longer := turned.length_le
  cases turned with
  | @packed triplet _ weight =>
    -- a packed weight takes its companions, and leaves all other tensors
    refine ⟨fun j member before => ?_, fun j member notYet unmoved => ?_⟩
    · by_cases takes : triplet.Takes j
      · rw [Ranges.pack_takes takes]
        exact ⟨rfl, longer⟩
      · rcases PrepackPlan.takenBefore_succ.mp before with before | ⟨triplet', same, takes'⟩
        · have other : j ≠ m := by
            rintro rfl
            exact matching.not_taken weight before.taken
          rw [Ranges.pack_free takes, Function.update_of_ne other]
          obtain ⟨empty, start⟩ := placed.taken j member before
          exact ⟨empty, start.trans longer⟩
        · rw [weight] at same
          cases same
          exact (takes takes').elim
    · rw [PrepackPlan.takenBefore_succ, not_or] at notYet
      have other : j ≠ m := by
        rintro rfl
        rcases unmoved with later | ⟨plain, -⟩
        · omega
        · rw [weight] at plain
          cases plain
      rw [Ranges.pack_free fun takes => notYet.2 ⟨_, weight, takes⟩, Function.update_of_ne other]
      exact placed.still j member notYet.1 (unmoved.imp_left (by omega))
  | passed plain empty =>
    refine ⟨fun j member before => ?_, fun j member notYet unmoved => ?_⟩
    · exact placed.taken j member ((PrepackPlan.takenBefore_succ_of_plain plain).mp before)
    · rw [PrepackPlan.takenBefore_succ_of_plain plain] at notYet
      exact placed.still j member notYet (unmoved.imp_left (by omega))
  | copied plain filled =>
    refine ⟨fun j member before => ?_, fun j member notYet unmoved => ?_⟩
    · rw [PrepackPlan.takenBefore_succ_of_plain plain] at before
      obtain ⟨empty, start⟩ := placed.taken j member before
      have other : j ≠ m := by
        rintro rfl
        exact filled empty
      rw [Function.update_of_ne other]
      exact ⟨empty, start.trans longer⟩
    · rw [PrepackPlan.takenBefore_succ_of_plain plain] at notYet
      have other : j ≠ m := by
        rintro rfl
        rw [placed.free here notYet] at filled
        rcases unmoved with later | ⟨-, empty⟩
        · omega
        · exact filled empty
      rw [Function.update_of_ne other]
      exact placed.still j member notYet (unmoved.imp_left (by omega))

theorem becomes (placed : Placed plan home lot m ranges written) (ordered : Ordered plan)
    (matching : Matching plan home) (segment : Lot plan home payload lot) (here : m ∈ lot)
    (bounded : written.length ≤ payload.length)
    (turned : Turned payload plan m ranges written ranges' written') :
    ∃ piece, Becomes plan home payload m piece ∧ written' = written ++ piece ∧
      (¬plan.Taken m → ranges' m = (written.length, piece.length) ∨
        ranges' m = home m ∧ piece = []) := by
  cases turned with
  | packed weight packs =>
    obtain ⟨-, packs⟩ := packTriplet_ok_iff.mp packs
    rw [placed.pipelineOn_eq ordered matching segment here bounded weight] at packs
    refine ⟨_, .packed weight packs, rfl, fun free => .inl ?_⟩
    rw [Ranges.pack_free fun takes => free ⟨_, _, weight, takes⟩, Function.update_self]
  | passed plain empty =>
    by_cases taken : plan.Taken m
    · exact ⟨[], .absorbed plain taken, by simp, fun free => (free taken).elim⟩
    · have own := placed.free here fun before => taken before.taken
      have inside := segment.inside m here
      rw [own] at empty ⊢
      refine ⟨[], .kept plain taken ?_, by simp, fun _ => .inr ⟨rfl, rfl⟩⟩
      exact slicePayload_empty segment.small (by omega) empty
  | copied plain filled slices =>
    have free : ¬plan.Taken m := fun taken => filled (placed.empty ordered matching here taken)
    have own := placed.free here fun before => free before.taken
    refine ⟨_, .kept plain free (own ▸ slices), rfl, fun _ => .inl ?_⟩
    rw [Function.update_self, length_slicePayload slices]

/-- What a tensor is to become is written at its turn. -/
theorem exists_turned (placed : Placed plan home lot m ranges written) (ordered : Ordered plan)
    (matching : Matching plan home) (segment : Lot plan home payload lot) (here : m ∈ lot)
    (shaped : ∀ triplet, plan m = .ok (some triplet) → ∃ shape, packedShape triplet = .ok shape)
    (readable : Readable plan home payload m) (becomes : Becomes plan home payload m piece)
    (bounded : written.length + piece.length ≤ payload.length) :
    ∃ ranges', Turned payload plan m ranges written ranges' (written ++ piece) := by
  have small := segment.small
  cases becomes with
  | packed weight packs =>
    rw [← placed.pipelineOn_eq ordered matching segment here (by omega) weight] at packs
    have aligned : ∀ j, _ → Aligned payload (ranges j) := fun j takes => by
      obtain ⟨notYet, aligned⟩ := readable _ weight j takes
      rwa [placed.takes_eq ordered matching segment here weight takes notYet]
    have packs := packTriplet_ok_iff.mpr ⟨⟨aligned _ (.inl rfl), aligned _ (.inr rfl)⟩, packs⟩
    exact ⟨_, .packed weight packs (by omega) (shaped _ weight)⟩
  | absorbed plain taken =>
    rw [List.append_nil]
    exact ⟨_, .passed plain (placed.empty ordered matching here taken)⟩
  | kept plain free slices =>
    rw [← placed.free here fun before => free before.taken] at slices
    by_cases empty : (ranges m).2 = 0
    · have nothing : piece = [] := by
        rw [← List.length_eq_zero_iff, length_slicePayload slices, empty]
      rw [nothing, List.append_nil]
      exact ⟨_, .passed plain empty⟩
    · exact ⟨_, .copied plain empty slices (by omega)⟩

end Placed

end Placed

/-! ## Whole segments -/

def turns (payload : List UInt8) (plan : PrepackPlan) (positions : List ℕ)
    (state : Ranges × List UInt8) : Outcome (Ranges × List UInt8) :=
  positions.foldlM (turnAt payload plan) state

section Runs

variable {payload written written' : List UInt8} {plan : PrepackPlan}
  {home ranges ranges' : Ranges} {lot : Set ℕ} {m count i : ℕ} {pieces : List (List UInt8)}

theorem turns_succ_iff : turns payload plan (List.range' m (count + 1)) (ranges, written) =
      .ok (ranges', written') ↔
    ∃ ranges₁ written₁, Turned payload plan m ranges written ranges₁ written₁ ∧
      turns payload plan (List.range' (m + 1) count) (ranges₁, written₁) =
        .ok (ranges', written') := by
  unfold turns
  rw [List.range'_succ, List.foldlM_cons, bind_ok_iff]
  constructor
  · rintro ⟨⟨ranges₁, written₁⟩, first, rest⟩
    exact ⟨ranges₁, written₁, turnAt_ok_iff.mp first, rest⟩
  · rintro ⟨ranges₁, written₁, first, rest⟩
    exact ⟨(ranges₁, written₁), turnAt_ok_iff.mpr first, rest⟩

theorem turns_zero_iff : turns payload plan (List.range' m 0) (ranges, written) =
    .ok (ranges', written') ↔ ranges = ranges' ∧ written = written' := by
  rw [turns, List.range'_zero, List.foldlM_nil, pure_ok_iff, Prod.mk.injEq]

theorem turns_length_le (ran : turns payload plan (List.range' m count) (ranges, written) =
    .ok (ranges', written')) : written.length ≤ written'.length := by
  induction count generalizing m ranges written with
  | zero =>
    obtain ⟨-, rfl⟩ := turns_zero_iff.mp ran
    rfl
  | succ count ih =>
    obtain ⟨ranges₁, written₁, first, rest⟩ := turns_succ_iff.mp ran
    exact first.length_le.trans (ih rest)

theorem turns_frame (ran : turns payload plan (List.range' m count) (ranges, written) =
      .ok (ranges', written')) (outside : i ∉ List.range' m count)
    (free : ∀ j ∈ List.range' m count, ∀ triplet, plan j = .ok (some triplet) →
      ¬triplet.Takes i) : ranges' i = ranges i := by
  induction count generalizing m ranges written with
  | zero =>
    obtain ⟨rfl, -⟩ := turns_zero_iff.mp ran
    rfl
  | succ count ih =>
    obtain ⟨ranges₁, written₁, first, rest⟩ := turns_succ_iff.mp ran
    rw [List.range'_succ] at outside free
    obtain ⟨other, outside⟩ := not_or.mp (List.mem_cons.not.mp outside)
    rw [ih rest outside fun j member => free j (List.mem_cons_of_mem _ member)]
    exact first.frame other (free m List.mem_cons_self)

theorem turns_tested (ran : turns payload plan (List.range' m count) (ranges, written) =
      .ok (ranges', written')) : ∀ i ∈ List.range' m count, (∃ eligible, plan i = .ok eligible) ∧
    ∀ triplet, plan i = .ok (some triplet) → ∃ shape, packedShape triplet = .ok shape := by
  induction count generalizing m ranges written with
  | zero => exact nofun
  | succ count ih =>
    obtain ⟨ranges₁, written₁, first, rest⟩ := turns_succ_iff.mp ran
    rw [List.range'_succ, List.forall_mem_cons]
    refine ⟨?_, ih rest⟩
    cases first with
    | packed weight packs fits shaped =>
      refine ⟨⟨_, weight⟩, fun triplet same => ?_⟩
      rw [weight] at same
      cases same
      exact shaped
    | passed plain => exact ⟨⟨_, plain⟩, by simp [plain]⟩
    | copied plain => exact ⟨⟨_, plain⟩, by simp [plain]⟩

/-- The new payload is made of what the tensors are to become, and each is found in it. -/
theorem turns_becomes (ordered : Ordered plan) (matching : Matching plan home)
    (segment : Lot plan home payload lot) (members : ∀ i ∈ List.range' m count, i ∈ lot)
    (placed : Placed plan home lot m ranges written)
    (ran : turns payload plan (List.range' m count) (ranges, written) = .ok (ranges', written'))
    (complete : written'.length = payload.length) :
    ∃ pieces, List.Forall₂ (Becomes plan home payload) (List.range' m count) pieces ∧
      written' = written ++ pieces.flatten ∧
      ∀ i ∈ List.range' m count, ¬plan.Taken i → ∃ piece, Becomes plan home payload i piece ∧
        slicePayload written' (ranges' i) = .ok piece := by
  induction count generalizing m ranges written with
  | zero =>
    obtain ⟨-, rfl⟩ := turns_zero_iff.mp ran
    exact ⟨[], .nil, by simp, nofun⟩
  | succ count ih =>
    obtain ⟨ranges₁, written₁, first, rest⟩ := turns_succ_iff.mp ran
    rw [List.range'_succ] at members ⊢
    have here := members m List.mem_cons_self
    have bounded := first.length_le.trans (turns_length_le rest)
    obtain ⟨piece, becomes, rfl, range⟩ :=
      placed.becomes ordered matching segment here (by omega) first
    obtain ⟨pieces, others, rfl, found⟩ :=
      ih (fun i member => members i (List.mem_cons_of_mem _ member))
        (placed.turned matching here first) rest
    refine ⟨piece :: pieces, .cons becomes others, by simp, fun i member free => ?_⟩
    rcases List.mem_cons.mp member with rfl | later
    · refine ⟨piece, becomes, ?_⟩
      have outside : i ∉ List.range' (i + 1) count := by
        rw [List.mem_range'_1]
        omega
      have small := segment.small
      rw [turns_frame rest outside fun j _ triplet weight takes => free ⟨j, triplet, weight, takes⟩]
      rcases range free with moved | ⟨unmoved, rfl⟩
      · rw [moved, slicePayload_ok_iff, List.append_assoc, Tiling.slice_append_append]
        simp only [List.length_append] at complete ⊢
        exact ⟨⟨by omega, by omega⟩, trivial⟩
      · have inside := segment.inside i here
        rw [unmoved]
        exact slicePayload_empty (complete ▸ small) (by omega) (becomes.empty free)
    · exact found i later free

/-- Every weight that the turns have packed was readable, if no companions are shared. -/
theorem turns_readable (ordered : Ordered plan) (unshared : plan.Unshared)
    (matching : Matching plan home) (segment : Lot plan home payload lot)
    (members : ∀ i ∈ List.range' m count, i ∈ lot)
    (placed : Placed plan home lot m ranges written)
    (ran : turns payload plan (List.range' m count) (ranges, written) = .ok (ranges', written')) :
    ∀ i ∈ List.range' m count, Readable plan home payload i := by
  induction count generalizing m ranges written with
  | zero => exact nofun
  | succ count ih =>
    obtain ⟨ranges₁, written₁, first, rest⟩ := turns_succ_iff.mp ran
    rw [List.range'_succ] at members ⊢
    have here := members m List.mem_cons_self
    rw [List.forall_mem_cons]
    exact ⟨placed.readable ordered unshared matching segment here first,
      ih (fun i member => members i (List.mem_cons_of_mem _ member))
        (placed.turned matching here first) rest⟩

/-- The turns go through where the pieces fill the payload at most. -/
theorem exists_turns (ordered : Ordered plan) (matching : Matching plan home)
    (segment : Lot plan home payload lot) (members : ∀ i ∈ List.range' m count, i ∈ lot)
    (shaped : ∀ i triplet, plan i = .ok (some triplet) → ∃ shape, packedShape triplet = .ok shape)
    (readable : ∀ i ∈ List.range' m count, Readable plan home payload i)
    (placed : Placed plan home lot m ranges written)
    (becomes : List.Forall₂ (Becomes plan home payload) (List.range' m count) pieces)
    (bounded : written.length + pieces.flatten.length ≤ payload.length) :
    ∃ ranges', turns payload plan (List.range' m count) (ranges, written) =
      .ok (ranges', written ++ pieces.flatten) := by
  induction count generalizing m ranges written pieces with
  | zero =>
    cases becomes
    exact ⟨ranges, turns_zero_iff.mpr ⟨rfl, by simp⟩⟩
  | succ count ih =>
    rw [List.range'_succ] at members readable becomes
    cases becomes with
    | @cons _ piece _ pieces first rest =>
    have here := members m List.mem_cons_self
    rw [List.flatten_cons, List.length_append] at bounded
    obtain ⟨ranges₁, turned⟩ := placed.exists_turned ordered matching segment here (shaped m)
      (readable m List.mem_cons_self) first (by omega)
    obtain ⟨ranges', ran⟩ := ih (fun i member => members i (List.mem_cons_of_mem _ member))
      (fun i member => readable i (List.mem_cons_of_mem _ member))
      (placed.turned matching here turned) rest (by rw [List.length_append]; omega)
    rw [List.append_assoc] at ran
    exact ⟨ranges', turns_succ_iff.mpr ⟨ranges₁, _, turned, ran⟩⟩

end Runs

/-! ## Lengths alone -/

/-- The bytes that tensors at these positions have. -/
def remaining (ranges : Ranges) (positions : List ℕ) : ℕ :=
  (positions.map fun j => (ranges j).2).sum

/-- Before the turn at position `m`, wherever tensors are: what has been taken is empty, and what
is no packed weight has as many bytes as it had. -/
structure Counted (plan : PrepackPlan) (home : Ranges) (lot : Set ℕ) (m : ℕ) (ranges : Ranges) :
    Prop where
  taken : ∀ j ∈ lot, plan.TakenBefore m j → (ranges j).2 = 0
  still : ∀ j ∈ lot, ¬plan.TakenBefore m j → m ≤ j ∨ plan j = .ok none →
    (ranges j).2 = (home j).2

section Counted

variable {payload written written' : List UInt8} {plan : PrepackPlan}
  {home ranges ranges' : Ranges} {lot : Set ℕ} {positions : List ℕ} {m count i j : ℕ}
  {range : ℕ × ℕ} {triplet : Triplet}

theorem remaining_update_of_not_mem (outside : j ∉ positions) :
    remaining (Function.update ranges j range) positions = remaining ranges positions := by
  unfold remaining
  congr 1
  apply List.map_congr_left
  intro j' member
  have other : j' ≠ j := fun same => outside (same ▸ member)
  rw [Function.update_of_ne other]

theorem remaining_update_of_mem (distinct : positions.Nodup) (member : j ∈ positions)
    (empty : range.2 = 0) :
    remaining (Function.update ranges j range) positions + (ranges j).2 =
      remaining ranges positions := by
  induction positions with
  | nil => cases member
  | cons first positions ih =>
    obtain ⟨apart, distinct⟩ := List.nodup_cons.mp distinct
    have split : ∀ ranges : Ranges, remaining ranges (first :: positions) =
        (ranges first).2 + remaining ranges positions := fun _ => List.sum_cons
    rw [split, split]
    rcases List.mem_cons.mp member with rfl | later
    · rw [remaining_update_of_not_mem apart, Function.update_self, empty]
      omega
    · have other : first ≠ j := fun same => apart (same ▸ later)
      rw [Function.update_of_ne other, ← ih distinct later]
      omega

theorem remaining_le_update (distinct : positions.Nodup) (empty : range.2 = 0) :
    remaining ranges positions ≤
      remaining (Function.update ranges j range) positions + (ranges j).2 := by
  by_cases member : j ∈ positions
  · rw [remaining_update_of_mem distinct member empty]
  · rw [remaining_update_of_not_mem member]
    omega

/-- A weight takes from what remains no more than its scales and biases, and less where these do
not remain. -/
theorem remaining_pack (distinct : positions.Nodup) (outside : i ∉ positions)
    (other : ¬triplet.Takes i) (here length : ℕ)
    (sizes : ∀ j, triplet.Takes j → (ranges j).2 = 4 * triplet.groups) :
    remaining ranges positions ≤
        remaining (ranges.pack i triplet here length) positions + 8 * triplet.groups ∧
      ∀ j, triplet.Takes j → j ∉ positions → remaining ranges positions ≤
        remaining (ranges.pack i triplet here length) positions + 4 * triplet.groups := by
  -- Bytes are lost in two steps, first those of the scales and then those of the biases.
  let packed := Function.update ranges i (here, length)
  let absorbed := Function.update packed triplet.scales (here, 0)
  have moved : remaining packed positions = remaining ranges positions :=
    remaining_update_of_not_mem outside
  have held : ∀ j, triplet.Takes j → (packed j).2 = 4 * triplet.groups := by
    intro j takes
    have apart : j ≠ i := fun same => other (same ▸ takes)
    simp only [packed, Function.update_of_ne apart, sizes j takes]
  have heldLater : (absorbed triplet.biases).2 ≤ 4 * triplet.groups := by
    by_cases same : triplet.biases = triplet.scales
    · simp only [absorbed, same, Function.update_self]
      omega
    · simp only [absorbed, Function.update_of_ne same, held _ (.inr rfl), le_refl]
  have first : remaining packed positions ≤ remaining absorbed positions + 4 * triplet.groups := by
    rw [← held triplet.scales (.inl rfl)]
    exact remaining_le_update distinct rfl
  have second : remaining absorbed positions ≤
      remaining (ranges.pack i triplet here length) positions + 4 * triplet.groups :=
    (remaining_le_update distinct rfl).trans (Nat.add_le_add_left heldLater _)
  refine ⟨by omega, fun j takes absent => ?_⟩
  rcases takes with rfl | rfl
  · have none : remaining absorbed positions = remaining packed positions :=
      remaining_update_of_not_mem absent
    omega
  · have none : remaining (ranges.pack i triplet here length) positions =
        remaining absorbed positions := remaining_update_of_not_mem absent
    omega

namespace Counted

/-- A weight is packed with all of what it takes; what has been taken before was empty. -/
theorem sizes (counted : Counted plan home lot m ranges) (matching : Matching plan home)
    (weight : plan m = .ok (some triplet)) (takes : triplet.Takes j) (member : j ∈ lot)
    (groups : (ranges j).2 / 4 = triplet.groups) :
    (ranges j).2 = 4 * triplet.groups ∧ (plan.TakenBefore m j → triplet.groups = 0) := by
  obtain ⟨plain, size⟩ := matching m triplet weight j takes
  by_cases before : plan.TakenBefore m j
  · rw [counted.taken j member before] at groups ⊢
    exact ⟨by omega, fun _ => by omega⟩
  · rw [counted.still j member before (.inr plain)]
    exact ⟨size, fun before' => (before before').elim⟩

theorem turned (counted : Counted plan home lot m ranges) (matching : Matching plan home)
    (turned : Turned payload plan m ranges written ranges' written') :
    Counted plan home lot (m + 1) ranges' := by
  cases turned with
  | @packed triplet _ weight =>
    refine ⟨fun j member before => ?_, fun j member notYet unmoved => ?_⟩
    · by_cases takes : triplet.Takes j
      · rw [Ranges.pack_takes takes]
      · rcases PrepackPlan.takenBefore_succ.mp before with before | ⟨triplet', same, takes'⟩
        · have other : j ≠ m := by
            rintro rfl
            exact matching.not_taken weight before.taken
          rw [Ranges.pack_free takes, Function.update_of_ne other]
          exact counted.taken j member before
        · rw [weight] at same
          cases same
          exact (takes takes').elim
    · rw [PrepackPlan.takenBefore_succ, not_or] at notYet
      have other : j ≠ m := by
        rintro rfl
        rcases unmoved with later | plain
        · omega
        · rw [weight] at plain
          cases plain
      rw [Ranges.pack_free fun takes => notYet.2 ⟨_, weight, takes⟩, Function.update_of_ne other]
      exact counted.still j member notYet.1 (unmoved.imp_left (by omega))
  | passed plain empty =>
    refine ⟨fun j member before => ?_, fun j member notYet unmoved => ?_⟩
    · exact counted.taken j member ((PrepackPlan.takenBefore_succ_of_plain plain).mp before)
    · rw [PrepackPlan.takenBefore_succ_of_plain plain] at notYet
      exact counted.still j member notYet (unmoved.imp_left (by omega))
  | copied plain filled =>
    have lengths : ∀ j, (Function.update ranges m (written.length, (ranges m).2) j).2 =
        (ranges j).2 := by
      intro j
      by_cases own : j = m
      · rw [own, Function.update_self]
      · rw [Function.update_of_ne own]
    refine ⟨fun j member before => ?_, fun j member notYet unmoved => ?_⟩
    · rw [lengths]
      exact counted.taken j member ((PrepackPlan.takenBefore_succ_of_plain plain).mp before)
    · rw [PrepackPlan.takenBefore_succ_of_plain plain] at notYet
      rw [lengths]
      by_cases own : j = m
      · exact counted.still j member notYet (.inl own.ge)
      · exact counted.still j member notYet (unmoved.imp_left (by omega))

end Counted

/-- What a weight of the segment needs for no bytes to be written twice. -/
def Timely (plan : PrepackPlan) (i : ℕ) : Prop :=
  ∀ triplet, plan i = .ok (some triplet) → ∀ j, triplet.Takes j →
    (triplet.groups = 0 ∨ i < j) ∧ (plan.TakenBefore i j → triplet.groups = 0)

/-- What is written and what remains never get less together; where they stay the same, weights
come first. -/
theorem turns_grow (matching : Matching plan home) (segment : Lot plan home payload lot)
    (members : ∀ i ∈ List.range' m count, i ∈ lot) (last : ∀ j ∈ lot, j < m + count)
    (counted : Counted plan home lot m ranges)
    (ran : turns payload plan (List.range' m count) (ranges, written) = .ok (ranges', written')) :
    written.length + remaining ranges (List.range' m count) ≤ written'.length ∧
      (written'.length ≤ written.length + remaining ranges (List.range' m count) →
        ∀ i ∈ List.range' m count, Timely plan i) := by
  induction count generalizing m ranges written with
  | zero =>
    obtain ⟨-, rfl⟩ := turns_zero_iff.mp ran
    exact ⟨le_rfl, fun _ => nofun⟩
  | succ count ih =>
    obtain ⟨ranges₁, written₁, first, rest⟩ := turns_succ_iff.mp ran
    rw [List.range'_succ] at members ⊢
    have here := members m List.mem_cons_self
    obtain ⟨grows, timely⟩ := ih (fun i member => members i (List.mem_cons_of_mem _ member))
      (fun j member => by have := last j member; omega) (counted.turned matching first) rest
    have split : remaining ranges (m :: List.range' (m + 1) count) =
        (ranges m).2 + remaining ranges (List.range' (m + 1) count) := List.sum_cons
    have outside : m ∉ List.range' (m + 1) count := by
      rw [List.mem_range'_1]
      omega
    rw [split]
    cases first with
    | @packed triplet bytes weight packs =>
      -- A packed weight takes its scales and biases along, whose turns then have nothing to copy.
      obtain ⟨-, scales, biases, length⟩ := pipelineOn_ok (packTriplet_ok_iff.mp packs).2
      have sized : ∀ j, triplet.Takes j → (ranges j).2 = 4 * triplet.groups ∧
          (plan.TakenBefore m j → triplet.groups = 0) := by
        intro j takes
        have member := segment.closed m here triplet weight j takes
        apply counted.sizes matching weight takes member
        rcases takes with rfl | rfl
        · exact scales
        · exact biases
      have other : ¬triplet.Takes m := fun takes =>
        matching.not_taken weight ⟨m, triplet, weight, takes⟩
      obtain ⟨most, less⟩ := remaining_pack (List.nodup_range' 1) outside other written.length
        bytes.length fun j takes => (sized j takes).1
      rw [List.length_append] at grows timely
      refine ⟨by omega, fun same i member => ?_⟩
      rcases List.mem_cons.mp member with rfl | later
      · intro triplet' weight' j takes
        rw [weight] at weight'
        cases weight'
        refine ⟨?_, (sized j takes).2⟩
        by_cases remains : j ∈ List.range' (i + 1) count
        · rw [List.mem_range'_1] at remains
          exact .inr (by omega)
        · have fewer := less j takes remains
          exact .inl (by omega)
      · exact timely (by omega) i later
    | passed plain empty =>
      refine ⟨by omega, fun same i member => ?_⟩
      rcases List.mem_cons.mp member with rfl | later
      · intro triplet weight
        rw [plain] at weight
        cases weight
      · exact timely (by omega) i later
    | copied plain filled slices =>
      have length := length_slicePayload slices
      rw [List.length_append, remaining_update_of_not_mem outside] at grows timely
      refine ⟨by omega, fun same i member => ?_⟩
      rcases List.mem_cons.mp member with rfl | later
      · intro triplet weight
        rw [plain] at weight
        cases weight
      · exact timely (by omega) i later

end Counted

end TribunusCompute.ComputeImage
