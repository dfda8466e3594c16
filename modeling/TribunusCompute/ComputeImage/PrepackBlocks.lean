import TribunusCompute.ComputeImage.PrepackTurns

/-!
# The turns over all segments

The second pass over an image is the turns over its blocks, one after another. A block takes only
what is its own, so that no block's turns change what another one finds.
-/
namespace TribunusCompute.ComputeImage

open Outcome LayoutTransform

/-! ## The pass and its turns -/

/-- What the second pass finds at each position of a table. -/
def planOf (tensors : List TensorEntry) : PrepackPlan := fun i =>
  match tensors[i]? with
  | some t => tripletOf tensors t
  | none => .ok none

section Pass

variable {tensors tensors' orig : List TensorEntry} {t : TensorEntry} {i m count start : ℕ}
  {payload written written' : List UInt8}

theorem planOf_of (there : tensors[i]? = some t) : planOf tensors i = tripletOf tensors t := by
  rw [planOf, there]

/-- The ids of a table count its positions, from the first id on. -/
def CountsFrom (start : ℕ) (tensors : List TensorEntry) : Prop :=
  tensors.map TensorEntry.id = List.range' start tensors.length

theorem CountsFrom.id (counts : CountsFrom start tensors) (there : tensors[i]? = some t) :
    t.id = start + i := by
  have ids := congrArg (fun ids => ids[i]?) counts
  obtain ⟨inside, -⟩ := List.getElem?_eq_some_iff.mp there
  simp only [List.getElem?_map, there, Option.map_some, List.getElem?_range' inside,
    Option.some.injEq, Nat.one_mul] at ids
  exact ids

theorem CountsFrom.distinct (counts : CountsFrom start tensors) :
    (tensors.map TensorEntry.id).Nodup := by
  rw [counts]
  exact List.nodup_range' 1

theorem rewriteTensor_spec (payload written : List UInt8) (same : SameStill tensors orig)
    (counts : CountsFrom start orig) (inside : i < orig.length) :
    turnAt payload (planOf orig) (rangeAt tensors, written) i =
        (rewriteTensor payload (tensors, written) (start + i)).map
          (fun state => (rangeAt state.1, state.2)) ∧
      ∀ state, rewriteTensor payload (tensors, written) (start + i) = .ok state →
        SameStill state.1 orig := by
  have there : orig[i]? = some orig[i] := List.getElem?_eq_getElem inside
  obtain ⟨t, found, tested, index, entry⟩ := find_of_same same counts.distinct there
  rw [counts.id there] at index entry
  simp only [turnAt, planOf_of there, rewriteTensor, index, entry, tested]
  cases eligible : tripletOf orig orig[i] with
  | error e =>
    refine ⟨rfl, fun state done => ?_⟩
    cases done
  | ok triplet =>
    obtain ⟨ranges, still⟩ := rewriteEntry_spec found (tested.trans eligible)
    exact ⟨ranges, fun state done => (still state done).trans same⟩

theorem foldlM_rewriteTensor_spec (payload written : List UInt8) (same : SameStill tensors orig)
    (counts : CountsFrom start orig) (inside : m + count ≤ orig.length) :
    turns payload (planOf orig) (List.range' m count) (rangeAt tensors, written) =
        ((List.range' (start + m) count).foldlM (rewriteTensor payload) (tensors, written)).map
          (fun state => (rangeAt state.1, state.2)) ∧
      ∀ state, (List.range' (start + m) count).foldlM (rewriteTensor payload) (tensors, written) =
        .ok state → SameStill state.1 orig := by
  induction count generalizing m tensors written with
  | zero =>
    refine ⟨rfl, fun state done => ?_⟩
    obtain rfl := pure_ok_iff.mp done
    exact same
  | succ count ih =>
    have here : m < orig.length := by omega
    obtain ⟨turn, still⟩ := rewriteTensor_spec payload written same counts here
    rw [turns, List.range'_succ, List.range'_succ, List.foldlM_cons, List.foldlM_cons, turn]
    cases first : rewriteTensor payload (tensors, written) (start + m) with
    | error e =>
      refine ⟨rfl, fun state done => ?_⟩
      cases done
    | ok state =>
      have later : m + 1 + count ≤ orig.length := by omega
      exact ih state.2 (still state first) later

end Pass

/-! ## Blocks -/

/-- Every block, with the position of its first tensor. -/
def EachBlock (holds : ℕ → Block → Prop) : ℕ → List Block → Prop
  | _, [] => True
  | m, block :: blocks => holds m block ∧ EachBlock holds (m + block.tensors.length) blocks

def Block.positions (block : Block) (m : ℕ) : List ℕ := List.range' m block.tensors.length

inductive TurnedBlocks (plan : PrepackPlan) :
    ℕ → Ranges → List Block → Ranges → List (List UInt8) → Prop
  | nil {m : ℕ} {ranges : Ranges} : TurnedBlocks plan m ranges [] ranges []
  | cons {m : ℕ} {block : Block} {blocks : List Block} {ranges ranges₁ ranges' : Ranges}
      {written : List UInt8} {payloads : List (List UInt8)}
      (first : turns block.payload plan (block.positions m) (ranges, []) = .ok (ranges₁, written))
      (rest : TurnedBlocks plan (m + block.tensors.length) ranges₁ blocks ranges' payloads) :
      TurnedBlocks plan m ranges (block :: blocks) ranges' (written :: payloads)

def resized (segments : List Segment) (payloads : List (List UInt8)) : List Segment :=
  List.zipWith (fun segment payload => { segment with byteSize := payload.length }) segments
    payloads

section Blocks

variable {hashing : Hashing} {plan : PrepackPlan} {home ranges ranges' : Ranges}
  {blocks : List Block} {payloads : List (List UInt8)} {tensors tensors' orig : List TensorEntry}
  {segments : List Segment} {m start index : ℕ}

theorem EachBlock.imp {holds holds' : ℕ → Block → Prop}
    (implies : ∀ m block, holds m block → holds' m block) (each : EachBlock holds m blocks) :
    EachBlock holds' m blocks := by
  induction blocks generalizing m with
  | nil => trivial
  | cons block blocks ih => exact ⟨implies m block each.1, ih each.2⟩

theorem EachBlock.of_mem {holds : Block → Prop} (all : ∀ block ∈ blocks, holds block) :
    EachBlock (fun _ => holds) m blocks := by
  induction blocks generalizing m with
  | nil => trivial
  | cons block blocks ih => exact ⟨all block List.mem_cons_self,
      ih fun block member => all block (List.mem_cons_of_mem _ member)⟩

theorem EachBlock.and {holds holds' : ℕ → Block → Prop} (each : EachBlock holds m blocks)
    (each' : EachBlock holds' m blocks) :
    EachBlock (fun m block => holds m block ∧ holds' m block) m blocks := by
  induction blocks generalizing m with
  | nil => trivial
  | cons block blocks ih => exact ⟨⟨each.1, each'.1⟩, ih each.2 each'.2⟩

theorem EachBlock.position {holds : ℕ → Prop}
    (each : EachBlock (fun m block => ∀ i ∈ block.positions m, holds i) m blocks) {i : ℕ}
    (least : m ≤ i) (inside : i < m + countTensors blocks) : holds i := by
  induction blocks generalizing m with
  | nil =>
    change i < m + 0 at inside
    omega
  | cons block blocks ih =>
    have counts : countTensors (block :: blocks) = block.tensors.length + countTensors blocks :=
      List.sum_cons
    by_cases here : i < m + block.tensors.length
    · apply each.1
      rw [Block.positions, List.mem_range'_1]
      exact ⟨least, here⟩
    · exact ih each.2 (by omega) (by omega)

theorem rewriteSegments_ok (same : SameStill tensors orig) (counts : CountsFrom start orig)
    (inside : m + countTensors blocks ≤ orig.length)
    (done : rewriteSegments tensors (segmentsFrom hashing index (start + m) blocks)
      (blocks.map Block.payload) = .ok (tensors', segments, payloads)) :
    TurnedBlocks (planOf orig) m (rangeAt tensors) blocks (rangeAt tensors') payloads ∧
      segments = resized (segmentsFrom hashing index (start + m) blocks) payloads := by
  induction blocks generalizing m tensors index segments payloads with
  | nil =>
    cases done
    exact ⟨.nil, rfl⟩
  | cons block blocks ih =>
    have length : countTensors (block :: blocks) = block.tensors.length + countTensors blocks :=
      List.sum_cons
    obtain ⟨⟨tensors₁, written⟩, first, rest⟩ := bind_ok_iff.mp done
    obtain ⟨⟨tensors₂, segments₂, payloads₂⟩, later, last⟩ := bind_ok_iff.mp rest
    obtain ⟨ran, still⟩ := foldlM_rewriteTensor_spec block.payload [] same counts
      (show m + block.tensors.length ≤ orig.length by omega)
    change (List.range' (start + m) block.tensors.length).foldlM _ _ = _ at first
    rw [first] at ran
    rw [Nat.add_assoc] at later
    cases last
    have others : m + block.tensors.length + countTensors blocks ≤ orig.length := by omega
    obtain ⟨turned, sizes⟩ := ih (still _ first) others later
    refine ⟨.cons ran turned, ?_⟩
    rw [sizes, segmentsFrom, resized, resized, List.zipWith_cons_cons, Nat.add_assoc]

theorem exists_rewriteSegments (same : SameStill tensors orig) (counts : CountsFrom start orig)
    (inside : m + countTensors blocks ≤ orig.length)
    (turned : TurnedBlocks (planOf orig) m (rangeAt tensors) blocks ranges' payloads) :
    ∃ tensors' segments, rewriteSegments tensors (segmentsFrom hashing index (start + m) blocks)
      (blocks.map Block.payload) = .ok (tensors', segments, payloads) := by
  induction blocks generalizing m tensors index payloads with
  | nil =>
    cases turned
    exact ⟨_, _, rfl⟩
  | cons block blocks ih =>
    have length : countTensors (block :: blocks) = block.tensors.length + countTensors blocks :=
      List.sum_cons
    cases turned with
    | @cons _ _ _ _ ranges₁ _ written payloads ran rest =>
    obtain ⟨same₁, still⟩ := foldlM_rewriteTensor_spec block.payload [] same counts
      (show m + block.tensors.length ≤ orig.length by omega)
    rw [Block.positions, same₁] at ran
    cases first : (List.range' (start + m) block.tensors.length).foldlM
        (rewriteTensor block.payload) (tensors, []) with
    | error e =>
      rw [first] at ran
      cases ran
    | ok state =>
      rw [first] at ran
      cases ran
      obtain ⟨tensors', segments, later⟩ := ih (still state first) (by omega) rest
      rw [← Nat.add_assoc] at later
      exact ⟨tensors', _, bind_ok_iff.mpr ⟨state, first, bind_ok_iff.mpr ⟨_, later, rfl⟩⟩⟩

end Blocks

/-! ## All blocks -/

/-- A block that starts at a position holds its tensors, which fill its payload. -/
structure HoldsTensors (plan : PrepackPlan) (home : Ranges) (m : ℕ) (block : Block) : Prop where
  lot : Lot plan home block.payload (Set.Ico m (m + block.tensors.length))
  total : remaining home (block.positions m) = block.payload.length

/-- Before the turns of the block at position `m`: nothing from there on has been taken or moved. -/
structure Entering (plan : PrepackPlan) (home : Ranges) (m : ℕ) (ranges : Ranges) : Prop where
  closed : ∀ i < m, ∀ triplet, plan i = .ok (some triplet) → ∀ j, triplet.Takes j → j < m
  still : ∀ j, m ≤ j → ranges j = home j

section AllBlocks

variable {plan : PrepackPlan} {home ranges ranges' : Ranges} {block : Block} {blocks : List Block}
  {payload written : List UInt8} {payloads : List (List UInt8)} {m i j : ℕ}

theorem mem_positions : i ∈ block.positions m ↔ i ∈ Set.Ico m (m + block.tensors.length) := by
  rw [Block.positions, List.mem_range'_1, Set.mem_Ico]

namespace Entering

theorem not_takenBefore (entering : Entering plan home m ranges) (later : m ≤ j) :
    ¬plan.TakenBefore m j := by
  rintro ⟨i, before, triplet, weight, takes⟩
  have earlier := entering.closed i before triplet weight j takes
  omega

theorem placed (entering : Entering plan home m ranges) :
    Placed plan home (Set.Ico m (m + block.tensors.length)) m ranges [] :=
  ⟨fun _ member before => (entering.not_takenBefore member.1 before).elim,
    fun j member _ _ => entering.still j member.1⟩

theorem counted (entering : Entering plan home m ranges) :
    Counted plan home (Set.Ico m (m + block.tensors.length)) m ranges :=
  ⟨fun _ member before => (entering.not_takenBefore member.1 before).elim,
    fun j member _ _ => congrArg Prod.snd (entering.still j member.1)⟩

/-- The turns of a block leave the others as they are. -/
theorem frame (holds : HoldsTensors plan home m block)
    (ran : turns payload plan (block.positions m) (ranges, []) = .ok (ranges', written))
    (outside : i ∉ block.positions m) : ranges' i = ranges i := by
  apply turns_frame ran outside
  intro j member triplet weight takes
  exact outside (mem_positions.mpr
    (holds.lot.closed j (mem_positions.mp member) triplet weight i takes))

theorem next (entering : Entering plan home m ranges) (holds : HoldsTensors plan home m block)
    (ran : turns payload plan (block.positions m) (ranges, []) = .ok (ranges', written)) :
    Entering plan home (m + block.tensors.length) ranges' := by
  refine ⟨fun i before triplet weight j takes => ?_, fun j later => ?_⟩
  · by_cases earlier : i < m
    · have there := entering.closed i earlier triplet weight j takes
      omega
    · exact (holds.lot.closed i ⟨by omega, before⟩ triplet weight j takes).2
  · have outside : j ∉ block.positions m := by
      rw [mem_positions, Set.mem_Ico]
      omega
    rw [frame holds ran outside]
    exact entering.still j (by omega)

end Entering

theorem TurnedBlocks.frame (turned : TurnedBlocks plan m ranges blocks ranges' payloads)
    (each : EachBlock (HoldsTensors plan home) m blocks) (before : i < m) :
    ranges' i = ranges i := by
  induction turned with
  | nil => rfl
  | @cons m block _ _ _ _ _ _ first rest ih =>
    have outside : i ∉ block.positions m := by
      rw [mem_positions, Set.mem_Ico]
      omega
    rw [ih each.2 (by omega), Entering.frame each.1 first outside]

theorem TurnedBlocks.tested (turned : TurnedBlocks plan m ranges blocks ranges' payloads) :
    EachBlock (fun m block => ∀ i ∈ block.positions m, (∃ eligible, plan i = .ok eligible) ∧
      ∀ triplet, plan i = .ok (some triplet) → ∃ shape, packedShape triplet = .ok shape) m
      blocks := by
  induction turned with
  | nil => trivial
  | cons first rest ih => exact ⟨turns_tested first, ih⟩

/-- Blocks that keep their payloads have their weights first. -/
theorem TurnedBlocks.timely (matching : Matching plan home)
    (turned : TurnedBlocks plan m ranges blocks ranges' payloads)
    (unchanged : payloads = blocks.map Block.payload)
    (each : EachBlock (HoldsTensors plan home) m blocks) (entering : Entering plan home m ranges) :
    EachBlock (fun m block => ∀ i ∈ block.positions m, Timely plan i) m blocks := by
  induction turned with
  | nil => trivial
  | @cons m block _ ranges _ _ _ _ first rest ih =>
    obtain ⟨rfl, others⟩ := List.cons.inj unchanged
    refine ⟨?_, ih others each.2 (entering.next each.1 first)⟩
    have start : remaining ranges (block.positions m) = block.payload.length := by
      rw [← each.1.total, remaining, remaining]
      congr 1
      apply List.map_congr_left
      intro j member
      rw [entering.still j (mem_positions.mp member).1]
    apply (turns_grow matching each.1.lot (fun i => mem_positions.mp) (fun j member => member.2)
      entering.counted first).2
    change _ ≤ 0 + remaining ranges (block.positions m)
    rw [start, Nat.zero_add]

/-- Blocks that keep their payloads are made of what their tensors are to become. -/
theorem TurnedBlocks.becomes (ordered : Ordered plan) (matching : Matching plan home)
    (turned : TurnedBlocks plan m ranges blocks ranges' payloads)
    (unchanged : payloads = blocks.map Block.payload)
    (each : EachBlock (HoldsTensors plan home) m blocks) (entering : Entering plan home m ranges) :
    EachBlock (fun m block =>
      (∃ pieces, List.Forall₂ (Becomes plan home block.payload) (block.positions m) pieces ∧
        pieces.flatten = block.payload) ∧
      ∀ i ∈ block.positions m, ¬plan.Taken i → ∃ piece, Becomes plan home block.payload i piece ∧
        slicePayload block.payload (ranges' i) = .ok piece) m blocks := by
  induction turned with
  | nil => trivial
  | @cons m block _ ranges ranges₁ _ _ _ first rest ih =>
    obtain ⟨rfl, others⟩ := List.cons.inj unchanged
    refine ⟨?_, ih others each.2 (entering.next each.1 first)⟩
    obtain ⟨pieces, become, whole, found⟩ := turns_becomes ordered matching each.1.lot
      (fun i => mem_positions.mp) entering.placed first rfl
    refine ⟨⟨pieces, become, whole.symm⟩, fun i member free => ?_⟩
    rw [rest.frame each.2 (mem_positions.mp member).2]
    exact found i member free

/-- The weights of all blocks were readable, if no companions are shared. -/
theorem TurnedBlocks.readable (ordered : Ordered plan) (unshared : plan.Unshared)
    (matching : Matching plan home)
    (turned : TurnedBlocks plan m ranges blocks ranges' payloads)
    (each : EachBlock (HoldsTensors plan home) m blocks) (entering : Entering plan home m ranges) :
    EachBlock (fun m block => ∀ i ∈ block.positions m, Readable plan home block.payload i) m
      blocks := by
  induction turned with
  | nil => trivial
  | cons first rest ih =>
    exact ⟨turns_readable ordered unshared matching each.1.lot (fun i => mem_positions.mp)
      entering.placed first, ih each.2 (entering.next each.1 first)⟩

/-- The turns go through where every payload is made of what its tensors are to become. -/
theorem exists_turnedBlocks (ordered : Ordered plan) (matching : Matching plan home)
    (shaped : ∀ i triplet, plan i = .ok (some triplet) → ∃ shape, packedShape triplet = .ok shape)
    (readable : EachBlock (fun m block => ∀ i ∈ block.positions m,
      Readable plan home block.payload i) m blocks)
    (each : EachBlock (HoldsTensors plan home) m blocks) (entering : Entering plan home m ranges)
    (become : EachBlock (fun m block => ∃ pieces, List.Forall₂
      (Becomes plan home block.payload) (block.positions m) pieces ∧
        pieces.flatten = block.payload) m blocks) :
    ∃ ranges', TurnedBlocks plan m ranges blocks ranges' (blocks.map Block.payload) := by
  induction blocks generalizing m ranges with
  | nil => exact ⟨ranges, .nil⟩
  | cons block blocks ih =>
    obtain ⟨pieces, pieced, whole⟩ := become.1
    have bounded : ([] : List UInt8).length + pieces.flatten.length ≤ block.payload.length := by
      rw [whole, List.length_nil, Nat.zero_add]
    obtain ⟨ranges₁, first⟩ := exists_turns ordered matching each.1.lot
      (fun i => mem_positions.mp) shaped readable.1 entering.placed pieced bounded
    rw [List.nil_append, whole] at first
    obtain ⟨ranges', rest⟩ := ih readable.2 each.2 (entering.next each.1 first) become.2
    exact ⟨ranges', .cons first rest⟩

end AllBlocks

end TribunusCompute.ComputeImage
