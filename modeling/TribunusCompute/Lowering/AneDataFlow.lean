import TribunusCompute.Lowering.AneFusionLaw

/-!
# The data flow through fused regions

A fused region takes its inputs and dependencies from its first part and its outputs from its last
one, and is never a fence. So the flow of a schedule survives exactly where the first part already
reads and waits for what the other parts do, the last one gives what they give, and nothing that
stays names a part.
-/
namespace TribunusCompute.Lowering

/-- A schedule: distinct ids, dependencies on earlier regions, and inputs that no region or an
earlier one produces. -/
structure Schedule (regions : List FusableRegion) : Prop where
  distinct : (regions.map fun region => region.regionId).Nodup
  dependencies : ∀ earlier region later, regions = earlier ++ region :: later →
    ∀ dep ∈ region.dependencies, ∃ other ∈ earlier, other.regionId = dep.predecessor
  inputs : ∀ earlier region later, regions = earlier ++ region :: later →
    ∀ tensor ∈ region.inputs, (∀ other ∈ regions, tensor ∉ other.outputs) ∨
      ∃ other ∈ earlier, tensor ∈ other.outputs

/-- A region that stays, or a run that is fused. -/
inductive FusionBlock
  | kept (region : FusableRegion)
  | fused (first : FusableRegion) (rest : List FusableRegion)

namespace FusionBlock

def parts : FusionBlock → List FusableRegion
  | kept region => [region]
  | fused first rest => first :: rest

def first : FusionBlock → FusableRegion
  | kept region => region
  | fused first _ => first

def last : FusionBlock → FusableRegion
  | kept region => region
  | fused first rest => rest.getLastD first

/-- The id that stands for the block in the result. -/
def regionId : FusionBlock → RegionId
  | kept region => region.regionId
  | fused first rest => fusedRegionId first.regionId (rest.getLastD first).regionId

def region? : FusionBlock → Option FusableRegion
  | kept region => some region
  | fused first rest => fusedRegion (first :: rest)

end FusionBlock

def Stretch.blocks (config : AneFusionConfig) (stretch : Stretch) : List FusionBlock :=
  stretch.gap.map .kept ++
    if config.minOpsToFuse ≤ stretch.body.length then
      match stretch.body with
      | [] => []
      | first :: rest => [.fused first rest]
    else stretch.body.map .kept

/-- A schedule cut into its runs of at least the minimum and single regions. -/
def fusionBlocks (config : AneFusionConfig) (regions : List FusableRegion) : List FusionBlock :=
  (stretchesFrom [] [] regions).1.flatMap (Stretch.blocks config) ++ (tailOf regions).map .kept

section Interface

variable (regions : List FusableRegion) (blocks : List FusionBlock)

/-- A region of the schedule that is none of the parts. -/
def Outside (parts : List FusableRegion) (other : FusableRegion) : Prop :=
  other ∈ regions ∧ other.regionId ∉ parts.map fun part => part.regionId

/-- The dependency has the kind and the tensors of the other one, and names what stands for its
predecessor in the result. -/
def Covers (dep dep' : RegionDependency) : Prop :=
  (∃ block ∈ blocks, dep.predecessor ∈ block.parts.map (fun part => part.regionId) ∧
    dep'.predecessor = block.regionId) ∧ dep'.kind = dep.kind ∧ dep.tensors ⊆ dep'.tensors

/-- An interface that keeps the flow between some parts and the rest of the schedule. -/
structure Interface (parts : List FusableRegion) (inputs outputs : List TensorId)
    (dependencies : List RegionDependency) (isFence : Bool) : Prop where
  reads : ∀ earlier part later, parts = earlier ++ part :: later → ∀ tensor ∈ part.inputs,
    (∀ other ∈ earlier, tensor ∉ other.outputs) → tensor ∈ inputs
  gives : ∀ part ∈ parts, ∀ tensor ∈ part.outputs,
    (∃ other, Outside regions parts other ∧ tensor ∈ other.inputs) → tensor ∈ outputs
  depends : ∀ part ∈ parts, ∀ dep ∈ part.dependencies,
    (∃ other, Outside regions parts other ∧ other.regionId = dep.predecessor) →
      ∃ dep' ∈ dependencies, Covers blocks dep dep'
  fences : ∀ part ∈ parts, part.isFence → isFence

end Interface

structure KeepsFlow (config : AneFusionConfig) (regions result : List FusableRegion) : Prop where
  interfaces : List.Forall₂ (fun block out => ∀ first rest, block = .fused first rest →
    Interface regions (fusionBlocks config regions) (first :: rest) out.inputs out.outputs
      out.dependencies out.isFence) (fusionBlocks config regions) result
  known : ∀ region ∈ result, ∀ dep ∈ region.dependencies,
    dep.predecessor ∈ result.map fun other => other.regionId
  distinct : (result.map fun region => region.regionId).Nodup

/-- The first and the last part of each run to be fused already have an interface of the whole
run, no part is a fence, and the new ids are new and the only ones that are named. -/
structure Summarised (config : AneFusionConfig) (regions : List FusableRegion) : Prop where
  interfaces : ∀ first rest, FusionBlock.fused first rest ∈ fusionBlocks config regions →
    Interface regions (fusionBlocks config regions) (first :: rest) first.inputs
      (rest.getLastD first).outputs first.dependencies false
  known : ∀ block ∈ fusionBlocks config regions, ∀ dep ∈ block.first.dependencies,
    dep.predecessor ∈ (fusionBlocks config regions).map FusionBlock.regionId
  distinct : ((fusionBlocks config regions).map FusionBlock.regionId).Nodup

/-! ## The blocks of the result -/

section Blocks

variable {config : AneFusionConfig} {regions : List FusableRegion}

theorem blocks_of_emit {stretch : Stretch} {out : List FusableRegion} (plain : stretch.Plain)
    (emitted : emit config stretch = some out) :
    List.Forall₂ (fun block region => block.region? = some region) (stretch.blocks config) out := by
  have kept (regions : List FusableRegion) : List.Forall₂
      (fun block region => FusionBlock.region? block = some region) (regions.map .kept)
        regions := by
    rw [List.forall₂_map_left_iff, List.forall₂_same]
    exact fun region _ => rfl
  unfold emit at emitted
  rw [plain.counted] at emitted
  unfold Stretch.blocks
  split at emitted
  case isTrue enough =>
    obtain ⟨region, fused, rfl⟩ := Option.map_eq_some_iff.mp emitted
    obtain ⟨first, rest, body⟩ := List.exists_cons_of_ne_nil plain.nonempty
    rw [if_pos enough, body]
    rw [body] at fused
    exact List.rel_append (kept stretch.gap) (.cons fused .nil)
  case isFalse short =>
    cases emitted
    rw [if_neg short]
    exact List.rel_append (kept stretch.gap) (kept stretch.body)

theorem blocks_of_emits {found : List Stretch} {outs : List (List FusableRegion)}
    (plains : ∀ stretch ∈ found, stretch.Plain)
    (each : List.Forall₂ (fun stretch out => emit config stretch = some out) found outs) :
    List.Forall₂ (fun block region => block.region? = some region)
      (found.flatMap (Stretch.blocks config)) outs.flatten := by
  induction each with
  | nil => exact .nil
  | @cons stretch out found outs emitted later ih =>
    rw [List.flatMap_cons, List.flatten_cons]
    exact List.rel_append (blocks_of_emit (plains stretch (by simp)) emitted)
      (ih fun other member => plains other (List.mem_cons_of_mem _ member))

/-- Two stretches that are joined and too short are emitted as they are. -/
theorem emits_of_join {prev curr : Stretch} {later : List Stretch}
    {outs : List (List FusableRegion)} (short : (prev.join curr).len < config.minOpsToFuse)
    (single : curr.len = 1) (pos : 0 < prev.len)
    (each : List.Forall₂ (fun stretch out => emit config stretch = some out)
      (prev.join curr :: later) outs) :
    ∃ outs', List.Forall₂ (fun stretch out => emit config stretch = some out)
      (prev :: curr :: later) outs' ∧ outs'.flatten = outs.flatten := by
  simp only [Stretch.join] at short
  cases each with
  | @cons _ out _ outs emitted rest =>
    have whole : out = prev.all ++ curr.all := by
      rw [emit, if_neg (by simp only [Stretch.join]; omega), Stretch.join_all] at emitted
      exact (Option.some.inj emitted).symm
    have first : emit config prev = some prev.all := if_neg (by omega)
    have second : emit config curr = some curr.all := if_neg (by omega)
    exact ⟨prev.all :: curr.all :: outs, .cons first (.cons second rest), by simp [whole]⟩

theorem emits_of_absorb {prev last : Stretch} {rest : List Stretch}
    {outs : List (List FusableRegion)} (gapped : Gapped (rest ++ [last])) (pos : 0 < prev.len)
    (solids : ∀ stretch ∈ rest, 0 < stretch.len)
    (shorts : ∀ stretch ∈ absorb prev (rest ++ [last]), stretch.Swallows →
      stretch.len < config.minOpsToFuse)
    (each : List.Forall₂ (fun stretch out => emit config stretch = some out)
      (absorb prev (rest ++ [last])) outs) :
    ∃ outs', List.Forall₂ (fun stretch out => emit config stretch = some out) (prev :: rest) outs' ∧
      outs'.flatten = outs.flatten := by
  induction rest generalizing prev outs with
  | nil => exact ⟨outs, each, rfl⟩
  | cons curr rest ih =>
    obtain ⟨next, later, same⟩ : ∃ next later, rest ++ [last] = next :: later :=
      List.exists_cons_of_ne_nil (by simp)
    have gapped' : Gapped (rest ++ [last]) := (List.forall_mem_cons.mp gapped).2
    have solids' : ∀ stretch ∈ rest, 0 < stretch.len := (List.forall_mem_cons.mp solids).2
    rw [List.cons_append, same, absorb, ← same] at shorts each
    split at each
    case isTrue single =>
      rw [if_pos single] at shorts
      obtain ⟨outs', each', flat⟩ := ih gapped' (Nat.succ_pos _) solids' shorts each
      -- What absorbed the two swallows the gap between them, so that it is too short.
      obtain ⟨larger, member, longer, bodies⟩ := absorb_grows (prev.join curr) (rest ++ [last])
      obtain ⟨region, inside, off⟩ := join_swallows prev gapped
      have small := shorts larger member ⟨region, bodies region inside, off⟩
      obtain ⟨outs'', each'', flat'⟩ :=
        emits_of_join (Nat.lt_of_le_of_lt longer small) single pos each'
      exact ⟨outs'', each'', flat'.trans flat⟩
    case isFalse apart =>
      rw [if_neg apart] at shorts
      cases each with
      | @cons _ out _ outs emitted others =>
        obtain ⟨outs', each', flat⟩ := ih gapped' (solids curr (by simp)) solids'
          (fun stretch member => shorts stretch (List.mem_cons_of_mem _ member)) others
        exact ⟨out :: outs', .cons emitted each', by simp [flat]⟩

theorem forall₂_append_left {α β : Type*} {r : α → β → Prop} {as as' : List α} {bs : List β}
    (each : List.Forall₂ r (as ++ as') bs) :
    ∃ front back, bs = front ++ back ∧ List.Forall₂ r as front ∧ List.Forall₂ r as' back := by
  induction as generalizing bs with
  | nil => exact ⟨[], bs, rfl, .nil, each⟩
  | cons a as ih =>
    cases each with
    | @cons _ b _ bs first rest =>
      obtain ⟨front, back, rfl, early, late⟩ := ih rest
      exact ⟨b :: front, back, rfl, .cons first early, late⟩

/-- Without a long bridge, the pass emits the stretches as they were found. -/
theorem emits_of_fuse (bridgeless : ¬Bridges config regions) {result : List FusableRegion}
    {descriptions : List String} (fused : fuse config regions = some (result, descriptions)) :
    ∃ outs, List.Forall₂ (fun stretch out => emit config stretch = some out)
      (stretchesFrom [] [] regions).1 outs ∧ result = outs.flatten ++ tailOf regions := by
  obtain ⟨outs, each, rfl⟩ := fuse_eq_some.mp ⟨descriptions, fused⟩
  have shorts : ∀ stretch ∈ stretches config regions, stretch.Swallows →
      stretch.len < config.minOpsToFuse := by
    intro stretch member swallows
    by_contra enough
    exact plain_of_enough bridgeless member (Nat.le_of_not_lt enough) swallows
  have plains := found_plain regions
  have gapped := @found_gapped regions
  unfold stretches at each shorts
  split at each
  case isFalse => exact ⟨outs, each, rfl⟩
  case isTrue bridging =>
    rw [if_pos bridging] at shorts
    cases found : (stretchesFrom [] [] regions).1 with
    | nil =>
      rw [found] at each
      exact ⟨outs, each, rfl⟩
    | cons prev rest =>
      rw [found] at each shorts plains gapped
      -- The last stretch is never looked at for a bridge, but emitted after the others.
      obtain rfl | ⟨front, last, rfl⟩ := List.eq_nil_or_concat rest
      case inl => exact ⟨outs, each, rfl⟩
      case inr =>
        rw [List.concat_eq_append] at *
        rw [bridge] at each shorts
        obtain ⟨early, late, rfl, absorbed, ending⟩ := forall₂_append_left each
        obtain ⟨outs', each', flat⟩ := emits_of_absorb gapped (plains prev (by simp)).solid.2
          (fun stretch member => (plains stretch (by simp [member])).solid.2)
          (fun stretch member => shorts stretch (List.mem_append_left _ member)) absorbed
        rw [List.getLast?_concat] at ending
        refine ⟨outs' ++ late, ?_, by simp [flat]⟩
        rw [← List.cons_append]
        exact List.rel_append each' ending

theorem blocks_of_fuse (bridgeless : ¬Bridges config regions) {result : List FusableRegion}
    {descriptions : List String} (fused : fuse config regions = some (result, descriptions)) :
    List.Forall₂ (fun block region => block.region? = some region)
      (fusionBlocks config regions) result := by
  obtain ⟨outs, each, rfl⟩ := emits_of_fuse bridgeless fused
  refine List.rel_append (blocks_of_emits (found_plain regions) each) ?_
  rw [List.forall₂_map_left_iff, List.forall₂_same]
  exact fun region _ => rfl

theorem FusionBlock.region_spec {block : FusionBlock} {out : FusableRegion}
    (stands : block.region? = some out) :
    out.regionId = block.regionId ∧ out.dependencies = block.first.dependencies ∧
      ∀ first rest, block = .fused first rest → out.inputs = first.inputs ∧
        out.outputs = (rest.getLastD first).outputs ∧ out.isFence = false := by
  cases block with
  | kept region =>
    cases stands
    exact ⟨rfl, rfl, fun first rest same => by cases same⟩
  | fused first rest =>
    have last : (first :: rest).getLast (by simp) = rest.getLastD first := by
      rw [List.getLast_eq_getLastD]
    simp only [FusionBlock.region?] at stands
    rw [fusedRegion_eq (by simp)] at stands
    split at stands
    case isFalse => cases stands
    case isTrue =>
      cases stands
      refine ⟨by simp [merged, FusionBlock.regionId, last], by simp [merged, FusionBlock.first], ?_⟩
      rintro first' rest' ⟨⟩
      exact ⟨by simp [merged], by simp [merged, last], rfl⟩

end Blocks

theorem map_result {β : Type*} {blocks : List FusionBlock} {result : List FusableRegion}
    {f : FusableRegion → β} {g : FusionBlock → β}
    (same : ∀ block region, FusionBlock.region? block = some region → f region = g block)
    (stand : List.Forall₂ (fun block region => block.region? = some region) blocks result) :
    result.map f = blocks.map g := by
  induction stand with
  | nil => rfl
  | cons stands rest ih => rw [List.map_cons, List.map_cons, same _ _ stands, ih]

theorem forall₂_blocks_iff {blocks : List FusionBlock} {result : List FusableRegion}
    {P : FusionBlock → FusableRegion → Prop} {Q : FusionBlock → Prop}
    (same : ∀ block region, FusionBlock.region? block = some region → (P block region ↔ Q block))
    (stand : List.Forall₂ (fun block region => block.region? = some region) blocks result) :
    List.Forall₂ P blocks result ↔ ∀ block ∈ blocks, Q block := by
  induction stand with
  | nil => simp
  | cons stands rest ih => rw [List.forall₂_cons, ih, same _ _ stands, List.forall_mem_cons]

/-- Where only adjacent regions are fused, the result keeps the flow of a schedule exactly where
the ends of each run summarise it. -/
theorem fuse_keepsFlow_iff {config : AneFusionConfig} {regions result : List FusableRegion}
    {descriptions : List String} (bridgeless : ¬Bridges config regions)
    (fused : fuse config regions = some (result, descriptions)) :
    KeepsFlow config regions result ↔ Summarised config regions := by
  have stand := blocks_of_fuse bridgeless fused
  have ids : result.map (fun region => region.regionId) =
      (fusionBlocks config regions).map FusionBlock.regionId :=
    map_result (fun block region stands => (FusionBlock.region_spec stands).1) stand
  have dependencies : result.map (fun region => region.dependencies) =
      (fusionBlocks config regions).map fun block => block.first.dependencies :=
    map_result (fun block region stands => (FusionBlock.region_spec stands).2.1) stand
  have known : (∀ region ∈ result, ∀ dep ∈ region.dependencies,
      dep.predecessor ∈ result.map fun other => other.regionId) ↔
      ∀ block ∈ fusionBlocks config regions, ∀ dep ∈ block.first.dependencies,
        dep.predecessor ∈ (fusionBlocks config regions).map FusionBlock.regionId := by
    -- Dependencies are compared as lists, one for each region of the result.
    have lists (named : List RegionDependency → Prop) : (∀ region ∈ result,
        named region.dependencies) ↔ ∀ block ∈ fusionBlocks config regions,
          named block.first.dependencies := by
      rw [← List.forall_mem_map (f := fun region : FusableRegion => region.dependencies),
        dependencies, List.forall_mem_map]
    rw [ids]
    exact lists fun deps => ∀ dep ∈ deps,
      dep.predecessor ∈ (fusionBlocks config regions).map FusionBlock.regionId
  have interfaces := forall₂_blocks_iff (P := fun block out => ∀ first rest,
      block = .fused first rest → Interface regions (fusionBlocks config regions) (first :: rest)
        out.inputs out.outputs out.dependencies out.isFence)
    (Q := fun block => ∀ first rest, block = .fused first rest →
      Interface regions (fusionBlocks config regions) (first :: rest) first.inputs
        (rest.getLastD first).outputs first.dependencies false)
    (fun block out stands => by
      obtain ⟨-, deps, ends⟩ := FusionBlock.region_spec stands
      refine forall₂_congr fun first rest => forall_congr' fun same => ?_
      obtain ⟨inputs, outputs, fence⟩ := ends first rest same
      rw [inputs, outputs, fence, deps, same]
      rfl) stand
  constructor
  case mp =>
    intro keeps
    refine ⟨fun first rest member => ?_, known.mp keeps.known, ids ▸ keeps.distinct⟩
    exact interfaces.mp keeps.interfaces _ member first rest rfl
  case mpr =>
    intro summarised
    refine ⟨interfaces.mpr fun block member first rest same => ?_, known.mpr summarised.known,
      ids ▸ summarised.distinct⟩
    exact summarised.interfaces first rest (same ▸ member)

def flowRegion (id backend : ℕ) (inputs outputs : List TensorId) (predecessors : List ℕ)
    (isFence : Bool) : FusableRegion :=
  { smallRegion id backend with
    inputs
    outputs
    dependencies := predecessors.map fun predecessor => ⟨⟨predecessor⟩, [], .data⟩
    isFence }

/-- A pair of ANE regions between two of MLX, each of which reads the one before it. -/
def chain : List FusableRegion :=
  [flowRegion 1 0 [] [⟨10⟩] [] false, flowRegion 2 3 [⟨10⟩] [⟨20⟩] [1] false,
    flowRegion 3 3 [⟨20⟩] [⟨30⟩] [2] false, flowRegion 4 0 [⟨30⟩] [] [] false]

theorem bridgeless_of_few {config : AneFusionConfig} {regions : List FusableRegion}
    (few : (aneRuns regions).length < 3) : ¬Bridges config regions := by
  rintro ⟨-, earlier, length, singletons, next, later, lengths, -⟩
  have counted := congrArg List.length lengths
  simp only [List.length_map, List.length_append, List.length_cons, List.length_replicate]
    at counted
  omega

def anePair : List FusableRegion :=
  [flowRegion 2 3 [⟨10⟩] [⟨20⟩] [1] false, flowRegion 3 3 [⟨20⟩] [⟨30⟩] [2] false]

theorem chain_interface : Interface chain (fusionBlocks .default chain) anePair [⟨10⟩] [⟨30⟩]
    [⟨⟨1⟩, [], .data⟩] false where
  reads earlier part later parted tensor read fresh := by
    rcases earlier with _ | ⟨first, _ | ⟨second, earlier⟩⟩
    · obtain ⟨rfl, -⟩ := List.cons.inj parted
      exact read
    -- the second part reads what the first one gives
    · obtain ⟨rfl, second⟩ := List.cons.inj parted
      obtain ⟨rfl, -⟩ := List.cons.inj second
      exact absurd read (fresh _ List.mem_cons_self)
    · simp [anePair] at parted
  gives part member tensor given := by
    rintro ⟨other, ⟨listed, outside⟩, read⟩
    have all : ∀ part ∈ anePair, ∀ tensor ∈ part.outputs, ∀ other ∈ chain,
        other.regionId ∉ anePair.map (fun part => part.regionId) → tensor ∈ other.inputs →
          tensor = ⟨30⟩ := by
      decide
    exact List.mem_singleton.mpr (all part member tensor given other listed outside read)
  depends part member dep named := by
    rintro ⟨other, ⟨listed, outside⟩, same⟩
    have all : ∀ part ∈ anePair, ∀ dep ∈ part.dependencies, ∀ other ∈ chain,
        other.regionId ∉ anePair.map (fun part => part.regionId) →
          other.regionId = dep.predecessor → dep = ⟨⟨1⟩, [], .data⟩ := by
      decide
    obtain rfl := all part member dep named other listed outside same
    exact ⟨_, List.mem_cons_self, ⟨_, List.mem_cons_self, List.mem_cons_self, rfl⟩, rfl,
      List.Subset.refl _⟩
  fences := by decide

theorem chain_keepsFlow : ¬Bridges .default chain ∧ ∃ result descriptions,
    fuse .default chain = some (result, descriptions) ∧ result.length = 3 ∧
      KeepsFlow .default chain result := by
  have bridgeless : ¬Bridges .default chain := bridgeless_of_few (by decide)
  have blocks : fusionBlocks .default chain = [.kept (flowRegion 1 0 [] [⟨10⟩] [] false),
      .fused (flowRegion 2 3 [⟨10⟩] [⟨20⟩] [1] false)
        [flowRegion 3 3 [⟨20⟩] [⟨30⟩] [2] false],
      .kept (flowRegion 4 0 [⟨30⟩] [] [] false)] := rfl
  refine ⟨bridgeless, _, _, rfl, rfl, (fuse_keepsFlow_iff bridgeless rfl).mpr ?_⟩
  refine ⟨fun first rest member => ?_, by decide, by decide⟩
  simp only [blocks, List.mem_cons, reduceCtorEq, List.not_mem_nil, or_false, false_or,
    FusionBlock.fused.injEq] at member
  obtain ⟨rfl, rfl⟩ := member
  exact chain_interface

/-- The second ANE region is a fence that reads a tensor of the first region, and the last region
reads a tensor of the first ANE region and depends on it. -/
def branching : List FusableRegion :=
  [flowRegion 1 0 [] [⟨10⟩] [] false, flowRegion 2 3 [] [⟨20⟩] [] false,
    flowRegion 3 3 [⟨10⟩] [⟨30⟩] [1] true, flowRegion 4 0 [⟨20⟩] [] [2] false]

theorem branching_schedule : Schedule branching where
  distinct := by decide
  dependencies earlier region later parted := by
    match earlier, parted with
    | [], parted | [_], parted | [_, _], parted | [_, _, _], parted =>
      simp only [branching, List.nil_append, List.cons_append, List.cons.injEq] at parted
      simp [← parted, flowRegion, smallRegion]
    | _ :: _ :: _ :: _ :: _, parted => simp [branching] at parted
  inputs earlier region later parted := by
    match earlier, parted with
    | [], parted | [_], parted | [_, _], parted | [_, _, _], parted =>
      simp only [branching, List.nil_append, List.cons_append, List.cons.injEq] at parted
      simp [← parted, branching, flowRegion, smallRegion]
    | _ :: _ :: _ :: _ :: _, parted => simp [branching] at parted

/-- The fused region has none of this. -/
theorem branching_severed : Schedule branching ∧ ¬Bridges .default branching ∧
    ∃ result descriptions, fuse .default branching = some (result, descriptions) ∧
      (∃ out ∈ result, out.operations = [⟨2⟩, ⟨3⟩] ∧ out.inputs = [] ∧ out.outputs = [⟨30⟩] ∧
        out.dependencies = [] ∧ out.isFence = false) ∧
      ¬KeepsFlow .default branching result := by
  refine ⟨branching_schedule, bridgeless_of_few (by decide), _, _, rfl, ?fused, ?severed⟩
  case fused => exact ⟨_, .tail _ (.head _), rfl, rfl, rfl, rfl, rfl⟩
  case severed =>
    intro keeps
    have named := keeps.known (flowRegion 4 0 [⟨20⟩] [] [2] false) (by decide) ⟨⟨2⟩, [], .data⟩
      (by decide)
    exact absurd named (by decide)

end TribunusCompute.Lowering
