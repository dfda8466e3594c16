import Mathlib.Data.String.Basic
import TribunusCompute.Library.TieOrder
import TribunusCompute.LayoutCompiler.Segments

/-!
# The order of the tensor map

The map of the tensors comes in any order, and two sorts are to remove it. They do not break ties:
of two activations with one first use, the one that the map yields first is placed first. The
offsets are the same for all orders exactly when tied tensors are empty and start at one place.
-/
namespace TribunusCompute.LayoutCompiler

open Outcome Placement

/-! ## Where a tensor starts -/

/-- `align_up` where it does not overflow. -/
def raised (offset align : ℕ) : ℕ := (offset + (align - 1)) &&& (2 ^ 64 - 1 - (align - 1))

theorem specAlign_lt (tensor : LayoutTensor) : specAlign tensor - 1 < 2 ^ 64 := by
  unfold specAlign
  split
  · have small := tensor.alignment.toNat_lt
    omega
  · obtain ⟨k, small, natural⟩ := dtypeInfo_alignment tensor.dtype
    have bound : 2 ^ k ≤ 2 ^ 3 := Nat.pow_le_pow_right (by decide) small
    omega

theorem alignUp_ok_iff {offset align aligned : ℕ} (positive : 0 < align) :
    alignUp offset align = .ok aligned ↔
      offset + (align - 1) < 2 ^ 64 ∧ aligned = raised offset align := by
  rw [alignUp, if_neg positive.ne', bind_ok_iff]
  constructor
  · rintro ⟨sum, within, done⟩
    obtain ⟨fits, rfl⟩ := fit_ok_iff.mp within
    exact ⟨fits, (pure_ok_iff.mp done).symm⟩
  · rintro ⟨fits, rfl⟩
    exact ⟨_, fit_ok_iff.mpr ⟨fits, rfl⟩, rfl⟩

theorem alignUp_raised {offset aligned : ℕ} {tensor : LayoutTensor}
    (ok : alignUp offset (specAlign tensor) = .ok aligned) :
    alignUp aligned (specAlign tensor) = .ok aligned := by
  obtain ⟨fits, rfl⟩ := (alignUp_ok_iff (specAlign_pos tensor)).mp ok
  obtain ⟨fits', same⟩ := clear_add_clear fits (specAlign_lt tensor)
  exact (alignUp_ok_iff (specAlign_pos tensor)).mpr ⟨fits', same.symm⟩

theorem le_raised {offset aligned : ℕ} {tensor : LayoutTensor}
    (ok : alignUp offset (specAlign tensor) = .ok aligned) : offset ≤ aligned := by
  obtain ⟨fits, rfl⟩ := (alignUp_ok_iff (specAlign_pos tensor)).mp ok
  have near := le_clear_add fits (specAlign_lt tensor)
  unfold raised
  omega

theorem layoutWeight_moves {running next : ℕ} {tensor : LayoutTensor} {report : LayoutReport}
    (ok : layoutWeight running tensor = .ok (next, report)) :
    next = running + size tensor ∧ report.byteOffset = running ∧ report.name = tensor.name := by
  obtain ⟨nbytes, sized, ok⟩ := bind_ok_iff.mp ok
  obtain rfl : nbytes = size tensor := computeNbytes_ok sized
  obtain ⟨stop, within, ok⟩ := bind_ok_iff.mp ok
  obtain ⟨-, rfl⟩ := fit_ok_iff.mp within
  obtain ⟨_, -, ok⟩ := bind_ok_iff.mp ok
  obtain ⟨_, -, ok⟩ := bind_ok_iff.mp ok
  obtain ⟨_, -, ok⟩ := bind_ok_iff.mp ok
  obtain ⟨_, -, ok⟩ := bind_ok_iff.mp ok
  -- the checks in between change neither the offset nor the report
  obtain ⟨rfl, rfl⟩ := Prod.mk.inj (pure_ok_iff.mp ok)
  exact ⟨rfl, rfl, rfl⟩

theorem layoutActivation_moves {running next : ℕ} {tensor : LayoutTensor} {report : LayoutReport}
    (ok : layoutActivation running tensor = .ok (next, report)) :
    alignUp running (specAlign tensor) = .ok report.byteOffset ∧
      next = report.byteOffset + size tensor ∧ report.name = tensor.name := by
  obtain ⟨nbytes, sized, ok⟩ := bind_ok_iff.mp ok
  obtain rfl : nbytes = size tensor := computeNbytes_ok sized
  obtain ⟨byteOffset, aligned, ok⟩ := bind_ok_iff.mp ok
  obtain ⟨stop, within, ok⟩ := bind_ok_iff.mp ok
  obtain ⟨-, rfl⟩ := fit_ok_iff.mp within
  obtain ⟨_, -, ok⟩ := bind_ok_iff.mp ok
  obtain ⟨_, -, ok⟩ := bind_ok_iff.mp ok
  obtain ⟨_, -, ok⟩ := bind_ok_iff.mp ok
  -- the next activation starts where the validated span ends, which is not capped
  obtain ⟨⟨_, ending⟩, validated, ok⟩ := bind_ok_iff.mp ok
  obtain ⟨rfl, rfl⟩ := Prod.mk.inj (pure_ok_iff.mp ok)
  exact ⟨aligned, validateZeroCopyConditions_uncapped validated, rfl⟩

theorem layoutActivation_congr {running running' aligned : ℕ} {tensor : LayoutTensor}
    (here : alignUp running (specAlign tensor) = .ok aligned)
    (there : alignUp running' (specAlign tensor) = .ok aligned) :
    layoutActivation running tensor = layoutActivation running' tensor := by
  unfold layoutActivation
  simp only [here, there]

/-! ## The segments as placements -/

def weightPlacer : TieOrder.Placer (String × LayoutTensor) LayoutReport where
  turn := fun running entry next report => layoutWeight running entry.2 = .ok (next, report)
  start := fun running _ => running
  size := fun entry => size entry.2
  offset := LayoutReport.byteOffset
  deterministic := fun first second => Prod.mk.inj (Except.ok.inj (first.symm.trans second))
  moves := by
    intro running item next report ok
    obtain ⟨stop, place, -⟩ := layoutWeight_moves ok
    exact ⟨stop, place⟩
  forward := fun _ => Nat.le_refl _
  swap := by
    intro running item other next last report report' first second empty empty' _
    obtain ⟨stop, -⟩ := layoutWeight_moves first
    obtain ⟨stop', -⟩ := layoutWeight_moves second
    -- nothing is added to the running offset, so that either turn can come first
    rw [empty, Nat.add_zero] at stop
    rw [empty', Nat.add_zero] at stop'
    subst stop stop'
    exact ⟨second, first⟩

def activationPlacer : TieOrder.Placer (String × LayoutTensor) LayoutReport where
  turn := fun running entry next report => layoutActivation running entry.2 = .ok (next, report)
  start := fun running entry => raised running (specAlign entry.2)
  size := fun entry => size entry.2
  offset := LayoutReport.byteOffset
  deterministic := fun first second => Prod.mk.inj (Except.ok.inj (first.symm.trans second))
  moves := by
    intro running item next report ok
    obtain ⟨aligned, stop, -⟩ := layoutActivation_moves ok
    obtain ⟨-, place⟩ := (alignUp_ok_iff (specAlign_pos _)).mp aligned
    exact ⟨place ▸ stop, place⟩
  forward := by
    intro running item next report ok
    obtain ⟨aligned, -⟩ := layoutActivation_moves ok
    obtain ⟨-, place⟩ := (alignUp_ok_iff (specAlign_pos _)).mp aligned
    exact place ▸ le_raised aligned
  swap := by
    intro running item other next last report report' first second empty empty' same
    obtain ⟨aligned, stop, -⟩ := layoutActivation_moves first
    obtain ⟨aligned', stop', -⟩ := layoutActivation_moves second
    rw [empty, Nat.add_zero] at stop
    rw [empty', Nat.add_zero] at stop'
    rw [← stop] at aligned
    rw [← stop'] at aligned'
    obtain ⟨-, place⟩ := (alignUp_ok_iff (specAlign_pos _)).mp aligned
    -- what fits behind the first item fits in its place
    have fits : running + (specAlign other.2 - 1) < 2 ^ 64 := by
      have ahead := le_raised aligned
      have behind := ((alignUp_ok_iff (specAlign_pos _)).mp aligned').1
      omega
    -- the other item starts in front where the first item has started
    have there : alignUp running (specAlign other.2) = .ok next :=
      (alignUp_ok_iff (specAlign_pos _)).mpr ⟨fits, place.trans same⟩
    have kept := alignUp_raised there
    obtain rfl : next = last := Except.ok.inj (kept.symm.trans aligned')
    constructor
    · rw [layoutActivation_congr there kept]
      exact second
    · rw [layoutActivation_congr (alignUp_raised aligned) aligned]
      exact first

theorem layoutSegment_ok_iff {layout : ℕ → LayoutTensor → Outcome (ℕ × LayoutReport)}
    {placer : TieOrder.Placer (String × LayoutTensor) LayoutReport}
    (turns : ∀ running entry next report, placer.turn running entry next report ↔
      layout running entry.2 = .ok (next, report))
    {running : ℕ} {entries : List (String × LayoutTensor)} {reports : List LayoutReport} :
    layoutSegment layout running (entries.map Prod.snd) = .ok reports ↔
      ∃ placed, TieOrder.Places placer running entries placed ∧ placed.map Prod.snd = reports := by
  induction entries generalizing running reports with
  | nil =>
    constructor
    · intro ok
      obtain rfl := pure_ok_iff.mp ok
      exact ⟨[], .nil, rfl⟩
    · rintro ⟨placed, places, rfl⟩
      cases places
      rfl
  | cons entry entries ih =>
    rw [List.map_cons, layoutSegment, bind_ok_iff]
    constructor
    · rintro ⟨⟨next, report⟩, first, ok⟩
      obtain ⟨later, others, ok⟩ := bind_ok_iff.mp ok
      obtain rfl := pure_ok_iff.mp ok
      obtain ⟨placed, places, rfl⟩ := ih.mp others
      exact ⟨_, .cons ((turns _ _ _ _).mpr first) places, rfl⟩
    · rintro ⟨placed, places, rfl⟩
      cases places with
      | cons first others =>
        refine ⟨_, (turns _ _ _ _).mp first, ?_⟩
        exact bind_ok_iff.mpr ⟨_, ih.mpr ⟨_, others, rfl⟩, rfl⟩

/-! ## Two orders -/

/-- The entries of the map that a segment takes, sorted by the rank of their tensors. -/
def ranked {κ : Type} [LinearOrder κ] (ir : LayoutIr) (kept : LayoutTensor → Bool)
    (rank : LayoutTensor → κ) : List (String × LayoutTensor) :=
  (ir.tensors.filter fun entry => kept entry.2).insertionSort fun a b => rank a.2 ≤ rank b.2

def weightEntries (ir : LayoutIr) : List (String × LayoutTensor) :=
  ranked ir (fun tensor => tensor.isWeight) fun tensor => tensor.name

def activationEntries (ir : LayoutIr) : List (String × LayoutTensor) :=
  ranked ir (fun tensor => !tensor.isWeight) fun tensor => firstUse ir.ops tensor.name

section

variable {κ : Type} [LinearOrder κ] (ir : LayoutIr) (kept : LayoutTensor → Bool)
  (rank : LayoutTensor → κ)

theorem ranked_perm : (ranked ir kept rank).Perm (ir.tensors.filter fun entry => kept entry.2) :=
  List.perm_insertionSort _ _

theorem ranked_sorted :
    (ranked ir kept rank).Pairwise fun a b => rank a.2 ≤ rank b.2 := by
  -- the order of the ranks is total, though entries may tie
  have total : Std.Total fun a b : String × LayoutTensor => rank a.2 ≤ rank b.2 :=
    ⟨fun a b => le_total (rank a.2) (rank b.2)⟩
  have trans_ : IsTrans (String × LayoutTensor) fun a b => rank a.2 ≤ rank b.2 :=
    ⟨fun _ _ _ => le_trans⟩
  exact List.pairwise_insertionSort _ _

theorem map_ranked : (ranked ir kept rank).map Prod.snd =
    ((ir.tensors.map Prod.snd).filter kept).insertionSort fun a b => rank a ≤ rank b := by
  unfold ranked
  rw [List.map_insertionSort _ (fun a b => rank a ≤ rank b) _ _ fun _ _ _ _ => .rfl,
    List.filter_map]
  rfl

/-- What is sorted already is left as it is, among entries of the other segment. -/
theorem ranked_eq (before after : List (String × LayoutTensor))
    {entries : List (String × LayoutTensor)}
    (tensors : ir.tensors = before ++ entries ++ after)
    (apart : ∀ entry ∈ before ++ after, kept entry.2 = false)
    (own : ∀ entry ∈ entries, kept entry.2 = true)
    (sorted : entries.Pairwise fun a b => rank a.2 ≤ rank b.2) : ranked ir kept rank = entries := by
  have first : before.filter (fun entry => kept entry.2) = [] := by
    rw [List.filter_eq_nil_iff]
    intro entry member
    simp [apart entry (List.mem_append_left _ member)]
  have last : after.filter (fun entry => kept entry.2) = [] := by
    rw [List.filter_eq_nil_iff]
    intro entry member
    simp [apart entry (List.mem_append_right _ member)]
  unfold ranked
  rw [tensors, List.filter_append, List.filter_append, first, last, List.nil_append,
    List.append_nil, List.filter_eq_self.mpr own, sorted.insertionSort_eq]

end

theorem weightEntries_perm (ir : LayoutIr) :
    (weightEntries ir).Perm (ir.tensors.filter fun entry => entry.2.isWeight) :=
  ranked_perm ir (fun tensor => tensor.isWeight) fun tensor => tensor.name

theorem activationEntries_perm (ir : LayoutIr) :
    (activationEntries ir).Perm (ir.tensors.filter fun entry => !entry.2.isWeight) :=
  ranked_perm ir (fun tensor => !tensor.isWeight) fun tensor => firstUse ir.ops tensor.name

def ReportOf (ir : LayoutIr) (reports : List LayoutReport) (key : String)
    (report : LayoutReport) : Prop :=
  ∃ tensor, ((key, tensor), report) ∈ (weightEntries ir ++ activationEntries ir).zip reports

/-- However the map orders the tensors, the graph compiles and every tensor has the offsets that
it has in this order. -/
def OrderFree (ir : LayoutIr) (reports : List LayoutReport) : Prop :=
  ∀ ir' : LayoutIr, ir'.ops = ir.ops → ir'.tensors.Perm ir.tensors →
    ∃ reports', compileLayouts ir' = .ok reports' ∧ ∀ key report report',
      ReportOf ir reports key report → ReportOf ir' reports' key report' →
        report'.byteOffset = report.byteOffset ∧ report'.alignedOffset = report.alignedOffset

theorem compileLayouts_ok_iff {ir : LayoutIr} {reports : List LayoutReport} :
    compileLayouts ir = .ok reports ↔ ∃ weights activations,
      TieOrder.Places weightPlacer 0 (weightEntries ir) weights ∧
      TieOrder.Places activationPlacer 0 (activationEntries ir) activations ∧
        (weights ++ activations).map Prod.snd = reports := by
  have first := map_ranked ir (fun tensor => tensor.isWeight) fun tensor => tensor.name
  have second := map_ranked ir (fun tensor => !tensor.isWeight) fun tensor =>
    firstUse ir.ops tensor.name
  -- the segments are placed apart, each from offset zero
  have weightSegment_iff {reports : List LayoutReport} :
      layoutSegment layoutWeight 0 (sortedWeights ir) = .ok reports ↔ ∃ placed,
        TieOrder.Places weightPlacer 0 (weightEntries ir) placed ∧
          placed.map Prod.snd = reports := by
    rw [show sortedWeights ir = (weightEntries ir).map Prod.snd from first.symm]
    exact layoutSegment_ok_iff fun _ _ _ _ => .rfl
  have activationSegment_iff {reports : List LayoutReport} :
      layoutSegment layoutActivation 0 (sortedActivations ir) = .ok reports ↔ ∃ placed,
        TieOrder.Places activationPlacer 0 (activationEntries ir) placed ∧
          placed.map Prod.snd = reports := by
    rw [show sortedActivations ir = (activationEntries ir).map Prod.snd from second.symm]
    exact layoutSegment_ok_iff fun _ _ _ _ => .rfl
  constructor
  · intro ok
    obtain ⟨weights, weights_, ok⟩ := bind_ok_iff.mp ok
    obtain ⟨activations, activations_, ok⟩ := bind_ok_iff.mp ok
    obtain rfl := pure_ok_iff.mp ok
    obtain ⟨placed, places, rfl⟩ := weightSegment_iff.mp weights_
    obtain ⟨placed', places', rfl⟩ := activationSegment_iff.mp activations_
    exact ⟨placed, placed', places, places', List.map_append⟩
  · rintro ⟨placed, placed', places, places', rfl⟩
    apply bind_ok_iff.mpr ⟨_, weightSegment_iff.mpr ⟨placed, places, rfl⟩, _⟩
    apply bind_ok_iff.mpr ⟨_, activationSegment_iff.mpr ⟨placed', places', rfl⟩, _⟩
    rw [List.map_append]
    rfl

theorem reportOf_iff {ir : LayoutIr}
    {weights activations : List ((String × LayoutTensor) × LayoutReport)}
    (places : TieOrder.Places weightPlacer 0 (weightEntries ir) weights)
    (places' : TieOrder.Places activationPlacer 0 (activationEntries ir) activations)
    {key : String} {report : LayoutReport} :
    ReportOf ir ((weights ++ activations).map Prod.snd) key report ↔
      ∃ tensor, ((key, tensor), report) ∈ weights ++ activations := by
  unfold ReportOf
  rw [← List.zip_of_prod (by rw [List.map_append, places.items_eq, places'.items_eq]) rfl]

theorem placed_inj {ir : LayoutIr}
    {weights activations : List ((String × LayoutTensor) × LayoutReport)}
    (places : TieOrder.Places weightPlacer 0 (weightEntries ir) weights)
    (places' : TieOrder.Places activationPlacer 0 (activationEntries ir) activations)
    {key : String} {tensor tensor' : LayoutTensor} {report report' : LayoutReport}
    (here : ((key, tensor), report) ∈ weights ++ activations)
    (there : ((key, tensor'), report') ∈ weights ++ activations) : report = report' := by
  -- what is placed are the entries of the map, under their keys
  have perm : ((weights ++ activations).map Prod.fst).Perm ir.tensors := by
    rw [List.map_append, places.items_eq, places'.items_eq]
    exact ((weightEntries_perm ir).append (activationEntries_perm ir)).trans
      (List.filter_append_perm _ _)
  have distinct : ((weights ++ activations).map fun entry => entry.1.1).Nodup := by
    have keys := (perm.map Prod.fst).nodup_iff.mpr ir.distinct
    rwa [List.map_map] at keys
  exact congrArg Prod.snd (List.inj_on_of_nodup_map distinct here there rfl)

/-- The map with the weights first and then the activations, each in an order of their own. -/
def reordered (ir : LayoutIr) (weights activations : List (String × LayoutTensor))
    (perm : (weights ++ activations).Perm ir.tensors) : LayoutIr where
  ops := ir.ops
  tensors := weights ++ activations
  distinct := (perm.map Prod.fst).nodup_iff.mpr ir.distinct

section

variable {ir : LayoutIr} {weights activations : List (String × LayoutTensor)}
  (weights_ : weights.Perm (weightEntries ir))
  (activations_ : activations.Perm (activationEntries ir))
  (sorted : weights.Pairwise fun a b => a.2.name ≤ b.2.name)
  (sorted' : activations.Pairwise fun a b => firstUse ir.ops a.2.name ≤ firstUse ir.ops b.2.name)
include weights_ activations_

theorem reordered_perm : (weights ++ activations).Perm ir.tensors :=
  ((weights_.trans (weightEntries_perm ir)).append
    (activations_.trans (activationEntries_perm ir))).trans (List.filter_append_perm _ _)

omit activations_ in
theorem weights_own : ∀ entry ∈ weights, entry.2.isWeight = true := by
  intro entry member
  have inside := (weights_.trans (weightEntries_perm ir)).mem_iff.mp member
  exact (List.mem_filter.mp inside).2

omit weights_ in
theorem activations_own : ∀ entry ∈ activations, (!entry.2.isWeight) = true := by
  intro entry member
  have inside := (activations_.trans (activationEntries_perm ir)).mem_iff.mp member
  exact (List.mem_filter.mp inside).2

include sorted in
theorem weightEntries_reordered :
    weightEntries (reordered ir weights activations (reordered_perm weights_ activations_)) =
      weights := by
  refine ranked_eq _ _ _ [] activations rfl ?_ (weights_own weights_) sorted
  intro entry member
  simpa using activations_own activations_ entry member

include sorted' in
theorem activationEntries_reordered :
    activationEntries (reordered ir weights activations (reordered_perm weights_ activations_)) =
      activations := by
  refine ranked_eq _ _ _ weights [] (List.append_nil _).symm ?_
    (activations_own activations_) sorted'
  intro entry member
  rw [List.append_nil] at member
  simp [weights_own weights_ entry member]

end

/-- The offsets do not depend on the order of the map exactly when tied tensors are empty and
start at one place. -/
theorem orderFree_iff (ir : LayoutIr) (reports : List LayoutReport)
    (ok : compileLayouts ir = .ok reports) :
    OrderFree ir reports ↔
      TieOrder.Agree weightPlacer (fun entry => entry.2.name) 0 (weightEntries ir) ∧
        TieOrder.Agree activationPlacer (fun entry => firstUse ir.ops entry.2.name) 0
          (activationEntries ir) := by
  obtain ⟨weights, activations, places, places', rfl⟩ := compileLayouts_ok_iff.mp ok
  have sorted := ranked_sorted ir (fun tensor => tensor.isWeight) fun tensor => tensor.name
  have sorted' := ranked_sorted ir (fun tensor => !tensor.isWeight) fun tensor =>
    firstUse ir.ops tensor.name
  constructor
  · intro free
    constructor
    · apply places.agree sorted
      intro items perm ordered
      -- the map with the weights in this order
      have whole := reordered_perm perm (.refl (activationEntries ir))
      obtain ⟨reports', ok', same⟩ :=
        free (reordered ir items (activationEntries ir) whole) rfl whole
      obtain ⟨weights', activations', placed, placed', rfl⟩ := compileLayouts_ok_iff.mp ok'
      have entries := weightEntries_reordered perm (.refl (activationEntries ir)) ordered
      refine ⟨weights', entries ▸ placed, fun item report report' here there => ?_⟩
      exact (same item.1 report report'
        ((reportOf_iff places places').mpr ⟨item.2, List.mem_append_left _ here⟩)
        ((reportOf_iff placed placed').mpr ⟨item.2, List.mem_append_left _ there⟩)).1
    · apply places'.agree sorted'
      intro items perm ordered
      -- the map with the activations in this order
      have whole := reordered_perm (.refl (weightEntries ir)) perm
      obtain ⟨reports', ok', same⟩ :=
        free (reordered ir (weightEntries ir) items whole) rfl whole
      obtain ⟨weights', activations', placed, placed', rfl⟩ := compileLayouts_ok_iff.mp ok'
      have entries := activationEntries_reordered (.refl (weightEntries ir)) perm ordered
      refine ⟨activations', entries ▸ placed', fun item report report' here there => ?_⟩
      exact (same item.1 report report'
        ((reportOf_iff places places').mpr ⟨item.2, List.mem_append_right _ here⟩)
        ((reportOf_iff placed placed').mpr ⟨item.2, List.mem_append_right _ there⟩)).1
  · rintro ⟨agree, agree'⟩ ir' ops perm
    -- another order of the map permutes what each sort is given
    have perm_ : (weightEntries ir').Perm (weightEntries ir) :=
      (weightEntries_perm ir').trans ((perm.filter _).trans (weightEntries_perm ir).symm)
    have perm_' : (activationEntries ir').Perm (activationEntries ir) :=
      (activationEntries_perm ir').trans ((perm.filter _).trans (activationEntries_perm ir).symm)
    have ordered : (activationEntries ir').Pairwise fun a b =>
        firstUse ir'.ops a.2.name ≤ firstUse ir'.ops b.2.name :=
      ranked_sorted ir' _ fun tensor => firstUse ir'.ops tensor.name
    rw [ops] at ordered
    obtain ⟨weights', placed, same⟩ := places.reorder perm_ sorted (ranked_sorted ir' _ _) agree
    obtain ⟨activations', placed', same'⟩ := places'.reorder perm_' sorted' ordered agree'
    refine ⟨_, compileLayouts_ok_iff.mpr ⟨_, _, placed, placed', rfl⟩, ?_⟩
    intro key report report' here there
    obtain ⟨tensor, here⟩ := (reportOf_iff places places').mp here
    obtain ⟨tensor', there⟩ := (reportOf_iff placed placed').mp there
    -- a report of the other order is one of this order, and a key has only one
    obtain rfl := placed_inj places places' here ((same.append same').mem_iff.mp there)
    exact ⟨rfl, rfl⟩

/-- A graph of two activations of one byte, whose map yields one of them first. -/
def twoActivations (ops : List LayoutOp) (first second : String) (apart : first ≠ second) :
    LayoutIr where
  ops
  tensors := [first, second].map fun name => (name, {
    name
    logicalShape := [1]
    dtype := "int8"
    isWeight := false
    ioSurface := false
    alignment := 0 })
  distinct := by simpa using apart

/-- One operation takes both inputs: each can come first. -/
theorem two_inputs_not_orderFree :
    ¬ ∀ ir reports, compileLayouts ir = .ok reports → OrderFree ir reports := by
  intro all
  let ops : List LayoutOp := [⟨["x", "y"], ["z"]⟩]
  let here := twoActivations ops "x" "y" (by decide)
  let there := twoActivations ops "y" "x" (by decide)
  obtain ⟨reports, ok⟩ := exists_ok_of_isSome (x := compileLayouts here) (by decide)
  obtain ⟨reports', ok', same⟩ := all here reports ok there rfl (List.Perm.swap _ _ _)
  -- x in front of y, and behind it
  have before : ∃ entry ∈ (weightEntries here ++ activationEntries here).zip
      ((compileLayouts here).toOption.getD []), entry.1.1 = "x" ∧ entry.2.byteOffset = 0 := by
    decide
  have behind : ∃ entry ∈ (weightEntries there ++ activationEntries there).zip
      ((compileLayouts there).toOption.getD []), entry.1.1 = "x" ∧ entry.2.byteOffset = 1 := by
    decide
  rw [ok] at before
  rw [ok'] at behind
  obtain ⟨⟨⟨_, tensor⟩, report⟩, member, rfl, zero⟩ := before
  obtain ⟨⟨⟨key, tensor'⟩, report'⟩, member', named, one⟩ := behind
  obtain rfl : key = _ := named
  have equal := (same _ report report' ⟨tensor, member⟩ ⟨tensor', member'⟩).1
  rw [show report'.byteOffset = 1 from one, show report.byteOffset = 0 from zero] at equal
  cases equal

/-- The second operation produces what the first does not touch. -/
theorem used_in_turn_orderFree : ∃ reports,
    compileLayouts (twoActivations [⟨["x"], []⟩, ⟨[], ["y"]⟩] "x" "y" (by decide)) = .ok reports ∧
      OrderFree (twoActivations [⟨["x"], []⟩, ⟨[], ["y"]⟩] "x" "y" (by decide)) reports := by
  obtain ⟨reports, ok⟩ := exists_ok_of_isSome
    (x := compileLayouts (twoActivations [⟨["x"], []⟩, ⟨[], ["y"]⟩] "x" "y" (by decide))) (by decide)
  refine ⟨reports, ok, (orderFree_iff _ reports ok).mpr ?_⟩
  decide

end TribunusCompute.LayoutCompiler
