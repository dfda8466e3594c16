import TribunusCompute.ComputeImage.PrepackBlocks

/-!
# When prepacking keeps what an image says of itself

Prepacking rewrites the payload of a segment and its size, but not its checksum. The checksum is
still right only where the segment is rewritten to the bytes it has.
-/
namespace TribunusCompute.ComputeImage

open Outcome LayoutTransform

/-! ## What prepacking promises -/

def Segment.positionsIn (segment : Segment) (tensors : List TensorEntry) : List ℕ :=
  segment.tensorIds.filterMap fun id => tensors.findIdx? (·.id == id)

namespace ImageBuilder

/-- The weights that are packed, by position: none at all where the first pass finds none. -/
def prepackPlan (b : ImageBuilder) : PrepackPlan :=
  if ∃ t ∈ b.tensors, isTriplet b.tensors t = .ok true then planOf b.tensors
  else fun _ => .ok none

def positions (b : ImageBuilder) (segment : Segment) : List ℕ := segment.positionsIn b.tensors

/-- No tensor waits in an open segment. -/
def Flushed (b : ImageBuilder) : Prop := ∀ segment ∈ b.currentSegment, segment.tensorIds = []

/-- Quantized weights come with scales and biases of matching sizes. -/
def Companioned (b : ImageBuilder) : Prop :=
  ∀ segment ∈ b.segments, ∀ i ∈ b.positions segment, ∀ triplet,
    b.prepackPlan i = .ok (some triplet) → ∀ j, triplet.Takes j →
      j ∈ b.positions segment ∧ (rangeAt b.tensors j).2 = 4 * triplet.groups

/-- What prepacking is to deliver: segments that describe their payloads, and in them every tensor
as it was, or packed if it is a weight. -/
structure Prepacked (hashing : Hashing) (b b' : ImageBuilder) : Prop where
  segments : List.Forall₂ (fun (segment : Segment) payload => segment.byteSize = payload.length ∧
    segment.sha256 = hashing.sha256Bytes payload) b'.segments b'.segmentPayloads
  tensors : List.Forall₂ (fun (old : Segment × List UInt8) payload =>
    ∀ i ∈ b.positions old.1, ¬b.prepackPlan.Taken i → ∃ piece,
      Becomes b.prepackPlan (rangeAt b.tensors) old.2 i piece ∧
        slicePayload payload (rangeAt b'.tensors i) = .ok piece)
    (b.segments.zip b.segmentPayloads) b'.segmentPayloads

def PrepackLaw (hashing : Hashing) (b : ImageBuilder) : Prop :=
  ∃ b', b.prepackQuantizedWeights = .ok b' ∧ Prepacked hashing b b'

/-- Every segment is already what it is to be rewritten to. -/
structure InPlace (b : ImageBuilder) : Prop where
  tested : ∀ i, ∃ eligible, b.prepackPlan i = .ok eligible
  shaped : ∀ i triplet, b.prepackPlan i = .ok (some triplet) →
    ∃ shape, packedShape triplet = .ok shape
  ordered : Ordered b.prepackPlan
  readable : ∀ old ∈ b.segments.zip b.segmentPayloads, ∀ i ∈ b.positions old.1,
    Readable b.prepackPlan (rangeAt b.tensors) old.2 i
  pieces : ∀ old ∈ b.segments.zip b.segmentPayloads, ∃ pieces, List.Forall₂
    (Becomes b.prepackPlan (rangeAt b.tensors) old.2) (b.positions old.1) pieces ∧
      pieces.flatten = old.2

end ImageBuilder

/-! ## Tests and tables -/

section Tests

variable {tensors : List TensorEntry} {t : TensorEntry} {i j : ℕ} {triplet : Triplet}

/-- Where the second pass's test does not panic, the first one's does not. -/
theorem isTriplet_ok {eligible : Option Triplet} (ok : tripletOf tensors t = .ok eligible) :
    ∃ marked, isTriplet tensors t = .ok marked := by
  unfold tripletOf at ok
  unfold isTriplet
  split at ok
  next none =>
    rw [none]
    exact ⟨_, rfl⟩
  next scales biases found =>
    rw [found]
    split
    next k n _ _ shape =>
      rw [shape] at ok
      simp only at ok
      split at ok
      next => cases ok
      next positive =>
        rw [if_neg positive]
        exact ⟨_, rfl⟩
    next => exact ⟨_, rfl⟩

theorem tripletOf_of_suffix {stem suffix : String} (name : t.name = stem ++ suffix)
    (length : suffix.toList.length = 7) (other : suffix ≠ ".weight") :
    tripletOf tensors t = .ok none := by
  have strip : Suffix.strip ".weight" t.name = none := by
    rw [Option.eq_none_iff_forall_ne_some]
    intro stem' found
    rw [Suffix.strip_eq_some_iff, name] at found
    exact Suffix.append_ne (length.trans rfl) other found
  have companions : companionsOf tensors t = none := by
    rw [companionsOf, strip]
    rfl
  rw [tripletOf, companions]

theorem planOf_takes (weight : planOf tensors i = .ok (some triplet)) (takes : triplet.Takes j) :
    planOf tensors j = .ok none := by
  cases there : tensors[i]? with
  | none =>
    rw [planOf, there] at weight
    cases weight
  | some t =>
    rw [planOf_of there] at weight
    have found := (tripletOf_ok weight).1
    unfold companionsOf at found
    obtain ⟨base, -, rest⟩ := Option.bind_eq_some_iff.mp found
    split at rest
    next =>
      obtain ⟨s, scaled, rest⟩ := Option.bind_eq_some_iff.mp rest
      obtain ⟨b, biased, rest⟩ := Option.bind_eq_some_iff.mp rest
      obtain ⟨scales, biases⟩ := Prod.mk.inj (Option.some.inj rest)
      obtain ⟨insideS, nameS, -⟩ := List.findIdx?_eq_some_iff_getElem.mp scaled
      obtain ⟨insideB, nameB, -⟩ := List.findIdx?_eq_some_iff_getElem.mp biased
      simp only [Bool.and_eq_true, beq_iff_eq] at nameS nameB
      rcases takes with rfl | rfl
      · rw [← scales, planOf_of (List.getElem?_eq_getElem insideS)]
        exact tripletOf_of_suffix nameS.1 rfl (by decide)
      · rw [← biases, planOf_of (List.getElem?_eq_getElem insideB)]
        exact tripletOf_of_suffix nameB.1 rfl (by decide)
    next => cases rest

end Tests

section Tables

variable {hashing : Hashing} {blocks : List Block} {orig front : List TensorEntry}
  {m start index count : ℕ}

theorem length_tableFrom : (tableFrom start blocks).length = countTensors blocks := by
  have lengths := congrArg List.length (@names_tableFrom start blocks)
  rw [List.length_map, List.length_map, List.length_flatMap] at lengths
  exact lengths

theorem countsFrom_tableFrom : CountsFrom start (tableFrom start blocks) := by
  rw [CountsFrom, length_tableFrom]
  induction blocks generalizing start with
  | nil => rfl
  | cons block blocks ih =>
    have length : countTensors (block :: blocks) = block.tensors.length + countTensors blocks :=
      List.sum_cons
    rw [tableFrom, List.map_append, ids_entriesFrom, ih, length, List.range'_append_1]

theorem positionsIn_range (counts : CountsFrom start orig) (inside : m + count ≤ orig.length) :
    (List.range' (start + m) count).filterMap (fun id => orig.findIdx? (·.id == id)) =
      List.range' m count := by
  induction count generalizing m with
  | zero => rfl
  | succ count ih =>
    have there : orig[m]? = some orig[m] := List.getElem?_eq_getElem (by omega)
    have found := (find_of_distinct counts.distinct there).1
    rw [counts.id there] at found
    have others : m + 1 + count ≤ orig.length := by omega
    rw [List.range'_succ, List.filterMap_cons, found, List.range'_succ, Nat.add_assoc, ih others]

theorem positionsIn_segment (counts : CountsFrom start orig) {block : Block}
    (inside : m + block.tensors.length ≤ orig.length) :
    (block.segment hashing index (start + m)).positionsIn orig = block.positions m :=
  positionsIn_range counts inside

theorem forall_segmentsFrom {holds : List ℕ → List UInt8 → Prop} (counts : CountsFrom start orig)
    (inside : m + countTensors blocks ≤ orig.length) :
    (∀ old ∈ (segmentsFrom hashing index (start + m) blocks).zip (blocks.map Block.payload),
        holds (old.1.positionsIn orig) old.2) ↔
      EachBlock (fun m block => holds (block.positions m) block.payload) m blocks := by
  induction blocks generalizing m index with
  | nil => exact ⟨fun _ => trivial, fun _ => nofun⟩
  | cons block blocks ih =>
    have length : countTensors (block :: blocks) = block.tensors.length + countTensors blocks :=
      List.sum_cons
    have here : m + block.tensors.length ≤ orig.length := by omega
    have others : m + block.tensors.length + countTensors blocks ≤ orig.length := by omega
    rw [segmentsFrom, List.map_cons, List.zip_cons_cons, List.forall_mem_cons, Nat.add_assoc,
      ih others, positionsIn_segment counts here]
    rfl

theorem forall₂_segmentsFrom {holds : List ℕ → List UInt8 → List UInt8 → Prop}
    (counts : CountsFrom start orig) (inside : m + countTensors blocks ≤ orig.length)
    (each : EachBlock (fun m block => holds (block.positions m) block.payload block.payload) m
      blocks) :
    List.Forall₂ (fun (old : Segment × List UInt8) payload =>
        holds (old.1.positionsIn orig) old.2 payload)
      ((segmentsFrom hashing index (start + m) blocks).zip (blocks.map Block.payload))
      (blocks.map Block.payload) := by
  induction blocks generalizing m index with
  | nil => exact .nil
  | cons block blocks ih =>
    have length : countTensors (block :: blocks) = block.tensors.length + countTensors blocks :=
      List.sum_cons
    have here : m + block.tensors.length ≤ orig.length := by omega
    have others : m + block.tensors.length + countTensors blocks ≤ orig.length := by omega
    rw [segmentsFrom, List.map_cons, List.zip_cons_cons, Nat.add_assoc]
    refine .cons ?_ (ih others each.2)
    rw [positionsIn_segment counts here]
    exact each.1

theorem map_rangeAt (front entries back : List TensorEntry) :
    (List.range' front.length entries.length).map (rangeAt (front ++ entries ++ back)) =
      entries.map TensorEntry.range := by
  apply List.ext_getElem
  · rw [List.length_map, List.length_map, List.length_range']
  · intro x inside inside'
    rw [List.length_map] at inside'
    have there : (front ++ entries ++ back)[front.length + x]? = some entries[x] := by
      rw [List.append_assoc, List.getElem?_append_right (by omega), Nat.add_sub_cancel_left,
        List.getElem?_append_left inside', List.getElem?_eq_getElem inside']
    rw [List.getElem_map, List.getElem_map, List.getElem_range', Nat.one_mul, rangeAt_of there]

theorem tiles_positions {table : List TensorEntry} (placed : table = front ++ tableFrom start blocks)
    (first : front.length = m) : EachBlock (fun m block => Tiling.Tiles 0
      ((block.positions m).map (rangeAt table)) block.payload.length) m blocks := by
  induction blocks generalizing m start front with
  | nil => trivial
  | cons block blocks ih =>
    have count : (entriesFrom block.id start 0 block.tensors).length = block.tensors.length := by
      rw [← List.length_map TensorEntry.name, names_entriesFrom, List.length_map]
    rw [tableFrom, ← List.append_assoc] at placed
    refine ⟨?_, ih placed (by rw [List.length_append, count, first])⟩
    have ranges := map_rangeAt front (entriesFrom block.id start 0 block.tensors)
      (tableFrom (start + block.tensors.length) blocks)
    rw [← placed, first, count] at ranges
    change Tiling.Tiles 0 ((List.range' m block.tensors.length).map (rangeAt table)) _
    rw [ranges]
    have tiled := tiles_entriesFrom block.id start 0 block.tensors
    rwa [Nat.zero_add] at tiled

end Tables

/-! ## Images of layouts -/

section Law

variable {hashing : Hashing} {b b' : ImageBuilder} {l : Layout}

def ImageBuilder.repacked (b : ImageBuilder) (tensors : List TensorEntry)
    (segments : List Segment) (segmentPayloads : List (List UInt8)) : ImageBuilder :=
  { b with
    tensors
    segments
    segmentPayloads
    manifest := { b.manifest with prepackedLayout := "prepacked-int8-v1" } }

theorem prepack_ok_iff : b.prepackQuantizedWeights = .ok b' ↔
    (∀ t ∈ b.tensors, ∃ marked, isTriplet b.tensors t = .ok marked) ∧
      if ∃ t ∈ b.tensors, isTriplet b.tensors t = .ok true then
        ∃ tensors segments segmentPayloads, rewriteSegments b.tensors b.segments
          b.segmentPayloads = .ok (tensors, segments, segmentPayloads) ∧
        b' = b.repacked tensors segments segmentPayloads
      else b' = b := by
  -- the pass counts its marks, and does nothing where there is none
  have marks : ∀ marked, b.tensors.mapM (isTriplet b.tensors) = .ok marked →
      (marked.count true = 0 ↔ ¬∃ t ∈ b.tensors, isTriplet b.tensors t = .ok true) := by
    intro marked done
    rw [List.count_eq_zero, not_iff_not]
    constructor
    · intro member
      exact exists_of_mapM_ok done member
    · rintro ⟨t, member, marks⟩
      obtain ⟨mark, there, same⟩ := mem_of_mapM_ok done member
      rw [marks] at same
      cases same
      exact there
  unfold ImageBuilder.prepackQuantizedWeights
  rw [bind_ok_iff]
  constructor
  · rintro ⟨marked, done, rest⟩
    refine ⟨fun t member => ?_, ?_⟩
    · obtain ⟨mark, -, ok⟩ := mem_of_mapM_ok done member
      exact ⟨mark, ok⟩
    · by_cases none : marked.count true = 0
      · rw [if_neg ((marks marked done).mp none)]
        rw [if_pos none] at rest
        exact (pure_ok_iff.mp rest).symm
      · rw [if_pos (not_not.mp ((marks marked done).not.mp none))]
        rw [if_neg none, bind_ok_iff] at rest
        obtain ⟨⟨tensors, segments, segmentPayloads⟩, rewritten, last⟩ := rest
        exact ⟨tensors, segments, segmentPayloads, rewritten, (pure_ok_iff.mp last).symm⟩
  · rintro ⟨tested, rest⟩
    obtain ⟨marked, done⟩ := exists_mapM_ok tested
    refine ⟨marked, done, ?_⟩
    by_cases found : ∃ t ∈ b.tensors, isTriplet b.tensors t = .ok true
    · rw [if_pos found] at rest
      obtain ⟨tensors, segments, segmentPayloads, rewritten, rfl⟩ := rest
      rw [if_neg ((marks marked done).not.mpr (not_not.mpr found)), bind_ok_iff]
      exact ⟨_, rewritten, rfl⟩
    · rw [if_neg found] at rest
      rw [if_pos ((marks marked done).mpr found), rest]
      rfl

theorem prepackPlan_marked (found : ∃ t ∈ b.tensors, isTriplet b.tensors t = .ok true) :
    b.prepackPlan = planOf b.tensors := if_pos found

theorem prepackPlan_unmarked (absent : ¬∃ t ∈ b.tensors, isTriplet b.tensors t = .ok true) :
    b.prepackPlan = fun _ => .ok none := if_neg absent

theorem prepackPlan_outside {i : ℕ} (outside : b.tensors.length ≤ i) :
    b.prepackPlan i = .ok none := by
  by_cases found : ∃ t ∈ b.tensors, isTriplet b.tensors t = .ok true
  · rw [prepackPlan_marked found, planOf, List.getElem?_eq_none outside]
  · rw [prepackPlan_unmarked found]

structure Layout.Closed (l : Layout) : Prop where
  fits : l.Fits
  flushed : ∀ block ∈ l.current, block.tensors = []

namespace Layout.Closed

theorem tensors (closed : l.Closed) :
    (l.render hashing).tensors = tableFrom l.start l.done := by
  change tableFrom l.start (l.done ++ l.current.toList) = _
  cases opened : l.current with
  | none => rw [Option.toList_none, List.append_nil]
  | some block =>
    have empty := closed.flushed block (by rw [opened]; rfl)
    rw [Option.toList_some, tableFrom_append, tableFrom, empty]
    simp [entriesFrom, tableFrom]

theorem counts (closed : l.Closed) : CountsFrom l.start (l.render hashing).tensors := by
  rw [closed.tensors]
  exact countsFrom_tableFrom

theorem length (closed : l.Closed) :
    (l.render hashing).tensors.length = 0 + countTensors l.done := by
  rw [closed.tensors, length_tableFrom, Nat.zero_add]

theorem forall_segments (closed : l.Closed) (holds : List ℕ → List UInt8 → Prop) :
    (∀ old ∈ (l.render hashing).segments.zip (l.render hashing).segmentPayloads,
        holds ((l.render hashing).positions old.1) old.2) ↔
      EachBlock (fun m block => holds (block.positions m) block.payload) 0 l.done :=
  forall_segmentsFrom closed.counts closed.length.ge

theorem forall₂_segments (closed : l.Closed) (holds : List ℕ → List UInt8 → List UInt8 → Prop)
    (each : EachBlock (fun m block => holds (block.positions m) block.payload block.payload) 0
      l.done) :
    List.Forall₂ (fun (old : Segment × List UInt8) payload =>
        holds ((l.render hashing).positions old.1) old.2 payload)
      ((l.render hashing).segments.zip (l.render hashing).segmentPayloads)
      (l.done.map Block.payload) :=
  forall₂_segmentsFrom closed.counts closed.length.ge each

theorem companioned (closed : l.Closed) (companioned : (l.render hashing).Companioned) :
    EachBlock (fun m block => ∀ i ∈ block.positions m, ∀ triplet,
      (l.render hashing).prepackPlan i = .ok (some triplet) → ∀ j, triplet.Takes j →
        j ∈ block.positions m ∧
          (rangeAt (l.render hashing).tensors j).2 = 4 * triplet.groups) 0 l.done := by
  apply (closed.forall_segments fun positions _ => ∀ i ∈ positions, ∀ triplet,
    (l.render hashing).prepackPlan i = .ok (some triplet) → ∀ j, triplet.Takes j →
      j ∈ positions ∧ (rangeAt (l.render hashing).tensors j).2 = 4 * triplet.groups).mp
  intro old member
  exact companioned old.1 (List.of_mem_zip member).1

theorem holds (closed : l.Closed) (companioned : (l.render hashing).Companioned) :
    EachBlock (HoldsTensors (l.render hashing).prepackPlan (rangeAt (l.render hashing).tensors)) 0
      l.done := by
  have placed : (l.render hashing).tensors = [] ++ tableFrom l.start l.done := closed.tensors
  have tiled := tiles_positions placed List.length_nil
  have small : EachBlock (fun _ block => block.payload.length < 2 ^ 63) 0 l.done :=
    EachBlock.of_mem fun block member => closed.fits block (List.mem_append_left _ member)
  apply ((tiled.and small).and (closed.companioned companioned)).imp
  rintro m block ⟨⟨tiled, small⟩, companions⟩
  refine ⟨⟨small, fun j member => ?_, fun i member triplet weight j takes => ?_⟩, ?_⟩
  · exact tiled.inside (List.mem_map.mpr ⟨j, mem_positions.mpr member, rfl⟩)
  · exact mem_positions.mp (companions i (mem_positions.mpr member) triplet weight j takes).1
  · have total := tiled.total
    rw [Nat.zero_add, List.map_map] at total
    exact total

theorem matching (closed : l.Closed) (companioned : (l.render hashing).Companioned) :
    Matching (l.render hashing).prepackPlan (rangeAt (l.render hashing).tensors) := by
  intro i triplet weight j takes
  have inside : i < 0 + countTensors l.done := by
    rw [← closed.length]
    by_contra outside
    rw [prepackPlan_outside (Nat.le_of_not_lt outside)] at weight
    cases weight
  have sizes := EachBlock.position ((closed.companioned companioned).imp
    fun m block companions i member triplet weight j takes =>
      (companions i member triplet weight j takes).2) (Nat.zero_le i) inside
  refine ⟨?_, sizes triplet weight j takes⟩
  by_cases found : ∃ t ∈ (l.render hashing).tensors,
      isTriplet (l.render hashing).tensors t = .ok true
  · rw [prepackPlan_marked found] at weight ⊢
    exact planOf_takes weight takes
  · rw [prepackPlan_unmarked found]

theorem entering (plan : PrepackPlan) (home : Ranges) : Entering plan home 0 home :=
  ⟨fun _ before => (Nat.not_lt_zero _ before).elim, fun _ _ => rfl⟩

end Layout.Closed

/-- Segments that keep their checksums and describe their payloads have the payloads they had. -/
theorem unchanged_of_describes (collisionFree : hashing.sha256Bytes.Injective)
    {plan : PrepackPlan} {ranges ranges' : Ranges} {blocks : List Block} {m index id : ℕ}
    {payloads : List (List UInt8)} (turned : TurnedBlocks plan m ranges blocks ranges' payloads)
    (described : List.Forall₂ (fun (segment : Segment) payload =>
      segment.byteSize = payload.length ∧ segment.sha256 = hashing.sha256Bytes payload)
      (resized (segmentsFrom hashing index id blocks) payloads) payloads) :
    payloads = blocks.map Block.payload := by
  induction turned generalizing index id with
  | nil => rfl
  | cons first rest ih =>
    rw [segmentsFrom, resized, List.zipWith_cons_cons] at described
    cases described with
    | cons here others => rw [List.map_cons, collisionFree here.2, ih others]

theorem describes_resized {blocks : List Block} {index id : ℕ} :
    List.Forall₂ (fun (segment : Segment) payload =>
      segment.byteSize = payload.length ∧ segment.sha256 = hashing.sha256Bytes payload)
      (resized (segmentsFrom hashing index id blocks) (blocks.map Block.payload))
      (blocks.map Block.payload) := by
  induction blocks generalizing index id with
  | nil => exact .nil
  | cons block blocks ih => exact .cons ⟨rfl, rfl⟩ ih

theorem Layout.Closed.prepackLaw_unmarked (closed : l.Closed)
    (companioned : (l.render hashing).Companioned)
    (absent : ∀ t ∈ (l.render hashing).tensors,
      isTriplet (l.render hashing).tensors t = .ok false) : (l.render hashing).PrepackLaw hashing := by
  have unmarked : ¬∃ t ∈ (l.render hashing).tensors,
      isTriplet (l.render hashing).tensors t = .ok true := by
    rintro ⟨t, member, marks⟩
    rw [absent t member] at marks
    cases marks
  refine ⟨l.render hashing, prepack_ok_iff.mpr ⟨fun t member => ⟨_, absent t member⟩, ?_⟩, ?_, ?_⟩
  · rw [if_neg unmarked]
  · exact describes_segmentsFrom
  · apply closed.forall₂_segments fun positions old payload => ∀ i ∈ positions,
      ¬(l.render hashing).prepackPlan.Taken i → ∃ piece, Becomes (l.render hashing).prepackPlan
        (rangeAt (l.render hashing).tensors) old i piece ∧
          slicePayload payload (rangeAt (l.render hashing).tensors i) = .ok piece
    apply (closed.holds companioned).imp
    intro m block holds i member free
    have inside := holds.lot.inside i (mem_positions.mp member)
    have small := holds.lot.small
    have slices := slicePayload_ok_iff.mpr
      ⟨⟨show _ < 2 ^ 64 by omega, inside⟩, rfl⟩
    exact ⟨_, .kept (by rw [prepackPlan_unmarked unmarked]) free slices, slices⟩

theorem Layout.Closed.prepackLaw_of_inPlace (closed : l.Closed)
    (companioned : (l.render hashing).Companioned)
    (found : ∃ t ∈ (l.render hashing).tensors,
      isTriplet (l.render hashing).tensors t = .ok true)
    (inPlace : (l.render hashing).InPlace) : (l.render hashing).PrepackLaw hashing := by
  have matching := closed.matching companioned
  have holds := closed.holds companioned
  have entering := entering (l.render hashing).prepackPlan (rangeAt (l.render hashing).tensors)
  have pieces := (closed.forall_segments fun positions old => ∃ pieces, List.Forall₂
    (Becomes (l.render hashing).prepackPlan (rangeAt (l.render hashing).tensors) old) positions
      pieces ∧ pieces.flatten = old).mp inPlace.pieces
  have marked := prepackPlan_marked found
  have readable := (closed.forall_segments fun positions old => ∀ i ∈ positions,
    Readable (l.render hashing).prepackPlan (rangeAt (l.render hashing).tensors) old i).mp
      inPlace.readable
  obtain ⟨ranges', turned⟩ := exists_turnedBlocks inPlace.ordered matching inPlace.shaped readable
    holds entering pieces
  rw [marked] at turned
  obtain ⟨tensors', segments', rewritten⟩ :=
    exists_rewriteSegments rfl closed.counts closed.length.ge turned
  obtain ⟨ran, rfl⟩ := rewriteSegments_ok rfl closed.counts closed.length.ge rewritten
  rw [← marked] at ran
  have become := ran.becomes inPlace.ordered matching rfl holds entering
  refine ⟨(l.render hashing).repacked tensors'
      (resized (l.render hashing).segments (l.done.map Block.payload)) (l.done.map Block.payload),
    prepack_ok_iff.mpr ⟨fun t member => ?_, ?_⟩, describes_resized, ?_⟩
  · obtain ⟨i, there⟩ := List.mem_iff_getElem?.mp member
    obtain ⟨eligible, tested⟩ := inPlace.tested i
    rw [marked, planOf_of there] at tested
    exact isTriplet_ok tested
  · rw [if_pos found]
    exact ⟨_, _, _, rewritten, rfl⟩
  · apply closed.forall₂_segments fun positions old payload => ∀ i ∈ positions,
      ¬(l.render hashing).prepackPlan.Taken i → ∃ piece, Becomes (l.render hashing).prepackPlan
        (rangeAt (l.render hashing).tensors) old i piece ∧
          slicePayload payload (rangeAt tensors' i) = .ok piece
    exact become.imp fun m block become => become.2

theorem Layout.Closed.inPlace_of_prepackLaw (collisionFree : hashing.sha256Bytes.Injective)
    (closed : l.Closed) (companioned : (l.render hashing).Companioned)
    (unshared : (l.render hashing).prepackPlan.Unshared)
    (found : ∃ t ∈ (l.render hashing).tensors,
      isTriplet (l.render hashing).tensors t = .ok true)
    (law : (l.render hashing).PrepackLaw hashing) : (l.render hashing).InPlace := by
  have matching := closed.matching companioned
  have holds := closed.holds companioned
  have entering := entering (l.render hashing).prepackPlan (rangeAt (l.render hashing).tensors)
  obtain ⟨b', done, prepacked⟩ := law
  have second := (prepack_ok_iff.mp done).2
  rw [if_pos found] at second
  obtain ⟨tensors', segments', payloads', rewritten, rfl⟩ := second
  obtain ⟨turned, rfl⟩ := rewriteSegments_ok rfl closed.counts closed.length.ge rewritten
  rw [← prepackPlan_marked found] at turned
  have unchanged := unchanged_of_describes collisionFree turned prepacked.segments
  have everywhere : ∀ {holds : ℕ → Prop},
      EachBlock (fun m block => ∀ i ∈ block.positions m, holds i) 0 l.done →
        ∀ i < (l.render hashing).tensors.length, holds i := by
    intro holds each i inside
    rw [closed.length] at inside
    exact each.position (Nat.zero_le i) inside
  have tested := everywhere turned.tested
  have timely := everywhere (turned.timely matching unchanged holds entering)
  have weights : ∀ i triplet, (l.render hashing).prepackPlan i = .ok (some triplet) →
      i < (l.render hashing).tensors.length := by
    intro i triplet weight
    by_contra outside
    rw [prepackPlan_outside (Nat.le_of_not_lt outside)] at weight
    cases weight
  have ordered : Ordered (l.render hashing).prepackPlan :=
    ⟨fun i triplet weight j takes => (timely i (weights i triplet weight) triplet weight j takes).1,
      fun i triplet weight j takes => (timely i (weights i triplet weight) triplet weight j takes).2⟩
  refine ⟨fun i => ?_, fun i triplet weight => ?_, ordered, ?_, ?_⟩
  · by_cases inside : i < (l.render hashing).tensors.length
    · exact (tested i inside).1
    · exact ⟨_, prepackPlan_outside (Nat.le_of_not_lt inside)⟩
  · exact (tested i (weights i triplet weight)).2 triplet weight
  · exact (closed.forall_segments fun positions old => ∀ i ∈ positions,
      Readable (l.render hashing).prepackPlan (rangeAt (l.render hashing).tensors) old i).mpr
      (turned.readable ordered unshared matching holds entering)
  · apply (closed.forall_segments fun positions old => ∃ pieces, List.Forall₂
      (Becomes (l.render hashing).prepackPlan (rangeAt (l.render hashing).tensors) old) positions
        pieces ∧ pieces.flatten = old).mpr
    exact (turned.becomes ordered matching unchanged holds entering).imp fun m block become =>
      become.1

/-- The first pass finds nothing, or all that is to be packed is in place. -/
def ImageBuilder.NothingToDo (b : ImageBuilder) : Prop :=
  (∀ t ∈ b.tensors, isTriplet b.tensors t = .ok false) ∨
    (∃ t ∈ b.tensors, isTriplet b.tensors t = .ok true) ∧ b.InPlace

/-- Prepacking keeps its promise where it has nothing to do, and only there. -/
theorem Layout.Closed.prepackLaw_render (collisionFree : hashing.sha256Bytes.Injective)
    (closed : l.Closed) (companioned : (l.render hashing).Companioned) :
    ((l.render hashing).NothingToDo → (l.render hashing).PrepackLaw hashing) ∧
      ((l.render hashing).prepackPlan.Unshared → (l.render hashing).PrepackLaw hashing →
        (l.render hashing).NothingToDo) := by
  constructor
  · rintro (absent | ⟨found, inPlace⟩)
    · exact closed.prepackLaw_unmarked companioned absent
    · exact closed.prepackLaw_of_inPlace companioned found inPlace
  · intro unshared law
    by_cases found : ∃ t ∈ (l.render hashing).tensors,
        isTriplet (l.render hashing).tensors t = .ok true
    · exact .inr ⟨found,
        closed.inPlace_of_prepackLaw collisionFree companioned unshared found law⟩
    · obtain ⟨b', done, -⟩ := law
      refine .inl fun t member => ?_
      obtain ⟨marked, tested⟩ := (prepack_ok_iff.mp done).1 t member
      cases marked with
      | true => exact (found ⟨t, member, tested⟩).elim
      | false => exact tested

end Law

/-! ## Every run of calls -/

/-- Prepacking what calls made keeps its promise where nothing is to be packed, or where all that
is to be packed is in place. Nowhere else does it, but for weights without groups that share their
companions. -/
theorem ImageBuilder.prepackLaw_iff_nothingToDo (hashing : Hashing)
    (collisionFree : hashing.sha256Bytes.Injective) (arch : TextArchitecture)
    (source : SourceIdentity) (startId : ℕ) {calls : List Call} {b₀ b : ImageBuilder}
    (ran : calls.foldlM (call hashing) ((new arch source).setStartTensorId startId) = .ok b₀)
    (reached : b = b₀ ∨ b = b₀.flushSegment hashing) (flushed : b.Flushed)
    (companioned : b.Companioned) :
    (b.NothingToDo → b.PrepackLaw hashing) ∧
      (b.prepackPlan.Unshared → b.PrepackLaw hashing → b.NothingToDo) := by
  let empty : Layout := ⟨Manifest.new arch source, startId, [], none, []⟩
  have fresh : (new arch source).setStartTensorId startId = empty.render hashing := rfl
  rw [fresh] at ran
  obtain ⟨rfl, fits, -⟩ := Layout.run_render (fun _ member => by cases member) ran
  rcases reached with rfl | rfl
  · refine Layout.Closed.prepackLaw_render collisionFree ⟨fits, fun block opened => ?_⟩
      companioned
    have none := flushed _ (Option.mem_map_of_mem _ opened)
    exact List.length_eq_zero_iff.mp (List.range'_eq_nil_iff.mp none)
  · rw [Layout.flushSegment_render] at companioned ⊢
    refine Layout.Closed.prepackLaw_render collisionFree ⟨?_, fun block opened => ?_⟩
      companioned
    · unfold Layout.Fits
      rw [Layout.blocks_close]
      exact fits
    · cases opened

/-! ### Weights of one column and of two -/

def quantizedTensor (name : String) (data : List UInt8) (shape : List ℕ) : TensorSpec :=
  { smallTensor name data with
    logicalShape := shape
    quantization := some ⟨8, 4, 0, 0, 0⟩ }

/-- A weight matrix of one group a column, then the scales and the biases of its groups. -/
def companionedBlock (weight scales biases : List UInt8) (n : ℕ) : Block where
  id := "layer_0"
  kind := .layer 0
  tensors := [quantizedTensor "up.weight" weight [4, n], quantizedTensor "up.scales" scales [n],
    quantizedTensor "up.biases" biases [n]]

def Block.calls (block : Block) : List ImageBuilder.Call :=
  .beginSegment block.id block.kind :: block.tensors.map .addTensor

noncomputable def imageOf (block : Block) : ImageBuilder :=
  (⟨Manifest.new (smallArchitecture []) smallSource, 0, [block], none, []⟩ : Layout).render
    losslessHashing

def oneColumn : Block := companionedBlock [1, 2, 5, 6] [3, 0, 0, 0] [4, 0, 0, 0] 1

def twoColumns : Block :=
  companionedBlock [1, 2, 5, 6, 7, 8, 9, 10] [3, 0, 0, 0, 3, 0, 0, 0] [4, 0, 0, 0, 4, 0, 0, 0] 2

theorem oneColumn_marked : ∃ t ∈ (imageOf oneColumn).tensors,
    isTriplet (imageOf oneColumn).tensors t = .ok true := ⟨_, List.mem_cons_self, rfl⟩

theorem twoColumns_marked : ∃ t ∈ (imageOf twoColumns).tensors,
    isTriplet (imageOf twoColumns).tensors t = .ok true := ⟨_, List.mem_cons_self, rfl⟩

theorem oneColumn_plan {i : ℕ} {triplet : Triplet}
    (found : (imageOf oneColumn).prepackPlan i = .ok (some triplet)) :
    i = 0 ∧ triplet = ⟨1, 2, 4, 1, 4⟩ := by
  rw [prepackPlan_marked oneColumn_marked] at found
  match i with
  | 0 => exact ⟨rfl, (Option.some.inj (Except.ok.inj found)).symm⟩
  | 1 => cases found
  | 2 => cases found
  | _ + 3 => cases found

theorem twoColumns_plan {i : ℕ} {triplet : Triplet}
    (found : (imageOf twoColumns).prepackPlan i = .ok (some triplet)) :
    i = 0 ∧ triplet = ⟨1, 2, 4, 2, 4⟩ := by
  rw [prepackPlan_marked twoColumns_marked] at found
  match i with
  | 0 => exact ⟨rfl, (Option.some.inj (Except.ok.inj found)).symm⟩
  | 1 => cases found
  | 2 => cases found
  | _ + 3 => cases found

theorem oneColumn_companioned : (imageOf oneColumn).Companioned := by
  intro segment member i here triplet found j takes
  obtain rfl := List.mem_singleton.mp member
  obtain ⟨rfl, rfl⟩ := oneColumn_plan found
  change j ∈ [0, 1, 2] ∧ _
  rcases takes with rfl | rfl
  · exact ⟨by simp, rfl⟩
  · exact ⟨by simp, rfl⟩

theorem twoColumns_companioned : (imageOf twoColumns).Companioned := by
  intro segment member i here triplet found j takes
  obtain rfl := List.mem_singleton.mp member
  obtain ⟨rfl, rfl⟩ := twoColumns_plan found
  change j ∈ [0, 1, 2] ∧ _
  rcases takes with rfl | rfl
  · exact ⟨by simp, rfl⟩
  · exact ⟨by simp, rfl⟩

theorem oneColumn_inPlace : (imageOf oneColumn).InPlace := by
  refine ⟨fun i => ?_, fun i triplet found => ?_, ⟨?_, ?_⟩, fun old member => ?_,
    fun old member => ?_⟩
  · rw [prepackPlan_marked oneColumn_marked]
    match i with
    | 0 => exact ⟨_, rfl⟩
    | 1 => exact ⟨_, rfl⟩
    | 2 => exact ⟨_, rfl⟩
    | _ + 3 => exact ⟨_, rfl⟩
  · obtain ⟨-, rfl⟩ := oneColumn_plan found
    exact ⟨_, rfl⟩
  · intro i triplet found j takes
    obtain ⟨rfl, rfl⟩ := oneColumn_plan found
    rcases takes with rfl | rfl
    · exact .inr (by decide)
    · exact .inr (by decide)
  · rintro i triplet found j - ⟨i', before, -⟩
    obtain ⟨rfl, -⟩ := oneColumn_plan found
    exact (Nat.not_lt_zero i' before).elim
  · obtain rfl := List.mem_singleton.mp member
    rintro i - triplet found j takes
    obtain ⟨rfl, rfl⟩ := oneColumn_plan found
    refine ⟨fun before => ?_, ?_⟩
    · obtain ⟨i', earlier, -⟩ := before
      exact (Nat.not_lt_zero i' earlier).elim
    · rcases takes with rfl | rfl
      · exact ⟨by decide, rfl⟩
      · exact ⟨by decide, rfl⟩
  · obtain rfl := List.mem_singleton.mp member
    have scales : (imageOf oneColumn).prepackPlan.Taken 1 := ⟨0, _, rfl, .inl rfl⟩
    have biases : (imageOf oneColumn).prepackPlan.Taken 2 := ⟨0, _, rfl, .inr rfl⟩
    refine ⟨[[1, 2, 5, 6, 3, 0, 0, 0, 4, 0, 0, 0], [], []], ?_, rfl⟩
    change List.Forall₂ _ [0, 1, 2] _
    exact .cons (.packed rfl rfl) (.cons (.absorbed rfl scales) (.cons (.absorbed rfl biases) .nil))

theorem oneColumn_prepackLaw : (imageOf oneColumn).PrepackLaw losslessHashing := by
  have ran : oneColumn.calls.foldlM (ImageBuilder.call losslessHashing)
      ((ImageBuilder.new (smallArchitecture []) smallSource).setStartTensorId 0) = .ok _ := rfl
  exact (ImageBuilder.prepackLaw_iff_nothingToDo losslessHashing textOf_injective
    (smallArchitecture []) smallSource 0 ran (.inr rfl) (fun _ opened => by cases opened)
    oneColumn_companioned).1 (.inr ⟨oneColumn_marked, oneColumn_inPlace⟩)

/-- The payload is rewritten, its checksum is not. -/
theorem twoColumns_not_prepackLaw : ∃ b₀ b : ImageBuilder,
    twoColumns.calls.foldlM (ImageBuilder.call losslessHashing)
      ((ImageBuilder.new (smallArchitecture []) smallSource).setStartTensorId 0) = .ok b₀ ∧
    b = b₀.flushSegment losslessHashing ∧ b.Flushed ∧ b.Companioned ∧
      ¬b.PrepackLaw losslessHashing := by
  have flushed : (imageOf twoColumns).Flushed := fun _ opened => by cases opened
  refine ⟨_, imageOf twoColumns, rfl, rfl, flushed, twoColumns_companioned, ?_⟩
  rintro ⟨b', done, prepacked⟩
  have computed : (imageOf twoColumns).prepackQuantizedWeights = .ok _ := rfl
  rw [computed] at done
  cases done
  cases prepacked.segments with
  | cons described => exact absurd (textOf_injective described.2) (by decide)

end TribunusCompute.ComputeImage
