import TribunusCompute.ComputeImage.PlanGeometry

/-!
# Dead code of a plan

An operation is dead where the output token is not computed from what it writes. Resetting the
weight of a dead operation takes operations out of the graph and rewires others, but none of
those from which the output token is computed: optimizing a plan again finds no weight to reset.
-/
namespace TribunusCompute.ComputeImage

open Outcome

/-- An operation computes the first tensor from the second. -/
def Reads (nodes : List OpNode) (t s : GraphTensor) : Prop :=
  ∃ node ∈ nodes, node.output = t ∧ s ∈ node.inputs

/-- The output token is computed from the tensor, backwards step by step. -/
def Needed (nodes : List OpNode) (t : GraphTensor) : Prop :=
  Relation.ReflTransGen (Reads nodes) .outputToken t

/-- The weight that an operation of a layer reads; structural operations read none. -/
def LayerPlan.weightId? (layer : LayerPlan) : OpKind → Option ℕ
  | .qProj => some layer.qProjTensorId
  | .kProj => some layer.kProjTensorId
  | .vProj => some layer.vProjTensorId
  | .oProj => some layer.oProjTensorId
  | .gateProj => some layer.gateProjTensorId
  | .upProj => some layer.upProjTensorId
  | .downProj => some layer.downProjTensorId
  | _ => none

def ModelExecutionPlan.withoutShapes (plan : ModelExecutionPlan) : ModelExecutionPlan :=
  { plan with layers := plan.layers.map LayerPlan.withoutShapes }

/-- What optimizing a plan with these operations comes to: the dead ones are those that the output
token does not need, only ids of weights are reset, and only those of dead operations, there is
nothing to reset the second time, and nothing in a valid plan. -/
structure OptimizeLaw (plan plan' : ModelExecutionPlan) (nodes : List OpNode) : Prop where
  dead : ∀ node ∈ nodes, node ∈ deadNodes nodes ↔ ¬Needed nodes node.output
  others : plan' = { plan with layers := plan'.layers } ∧ PrunedLayers plan.layers plan'.layers
  resets : ∀ i layer layer' kind, plan.layers[i]? = some layer → plan'.layers[i]? = some layer' →
    layer'.weightId? kind = layer.weightId? kind ∨ layer'.weightId? kind = some 0 ∧
      ∃ node ∈ deadNodes nodes, node.layerIndex = some i ∧ node.kind = kind
  again : plan'.optimize = .ok plan'
  valid : plan.validate = .ok () → plan' = plan.withoutShapes

/-! ## Where operations are -/

section Places

variable {plan : ModelExecutionPlan} {layer : LayerPlan} {node : OpNode} {index : ℕ}
  {t : LayerTensor}

theorem mem_graphNodes_iff : node ∈ graphNodes plan ↔ node ∈ prologueNodes plan ∨
    (∃ index layer, plan.layers[index]? = some layer ∧ node ∈ layerNodes layer index) ∨
    node ∈ epilogueNodes plan := by
  simp only [graphNodes, List.mem_append, List.mem_flatMap, Prod.exists,
    List.mem_zipIdx_iff_getElem?, or_assoc]
  grind

def OpKind.weighted : OpKind → LayerTensor
  | .qProj => .q
  | .kProj => .k
  | .vProj => .v
  | .oProj => .o
  | .gateProj => .gate
  | .upProj => .up
  | .downProj => .down
  | _ => .normOut

/-- An operation of a layer; one that reads a weight is there where the weight is, and a product
where what is multiplied is. -/
theorem layerNodes_cases (member : node ∈ layerNodes layer index) :
    node.layerIndex = some index ∧
      (∀ id, layer.weightId? node.kind = some id →
        id ≠ 0 ∧ node.output = .layer index node.kind.weighted) ∧
      (node.output = .layer index .mul → layer.upProjTensorId ≠ 0) := by
  simp only [layerNodes, List.mem_append, mem_opsIf, List.mem_cons, List.not_mem_nil,
    or_false, or_assoc] at member
  rcases member with rfl | ⟨has, rfl⟩ | ⟨has, rfl⟩ | ⟨has, rfl⟩ | rfl | rfl | ⟨has, rfl⟩ | rfl |
    rfl | ⟨has, rfl | rfl⟩ | ⟨has, rfl⟩ | ⟨has, rfl⟩ | ⟨has, rfl | rfl⟩ <;>
    refine ⟨rfl, ?_, ?_⟩ <;> simp [LayerPlan.weightId?, OpKind.weighted, *]

theorem exists_weighted {kind : OpKind} {id : ℕ} (weight : layer.weightId? kind = some id)
    (nonzero : id ≠ 0) :
    ∃ node ∈ layerNodes layer index,
      node.kind = kind ∧ node.output = .layer index kind.weighted := by
  have there : ∀ (inputs : List GraphTensor),
      ⟨kind, some index, inputs, .layer index kind.weighted⟩ ∈ layerNodes layer index →
      ∃ node ∈ layerNodes layer index, node.kind = kind ∧
        node.output = .layer index kind.weighted :=
    fun inputs member => ⟨_, member, rfl, rfl⟩
  cases kind <;> cases weight
  case qProj | kProj | vProj =>
    apply there [.layer index .normOut]
    simp [layerNodes, mem_opsIf, nonzero, OpKind.weighted]
  case oProj =>
    apply there [.layer index .attn]
    simp [layerNodes, mem_opsIf, nonzero, OpKind.weighted]
  case gateProj | upProj =>
    apply there [.layer index .postNorm]
    simp [layerNodes, mem_opsIf, nonzero, OpKind.weighted]
  case downProj =>
    apply there [if layer.gateProjTensorId ≠ 0 then .layer index .mul else .layer index .up]
    simp [layerNodes, mem_opsIf, nonzero, OpKind.weighted]

theorem global_of_mem (member : node ∈ prologueNodes plan ∨ node ∈ epilogueNodes plan) :
    node.layerIndex = none ∧ ∀ index t, node.output ≠ .layer index t := by
  rcases member with atStart | atEnd
  · obtain ⟨-, here⟩ := mem_opsIf.mp atStart
    obtain rfl := List.mem_singleton.mp here
    exact ⟨rfl, by simp [globalOp]⟩
  · obtain ⟨-, there⟩ := mem_opsIf.mp atEnd
    rcases List.mem_append.mp there with norm | rest
    · obtain rfl := List.mem_singleton.mp norm
      exact ⟨rfl, by simp [globalOp]⟩
    · split at rest <;> simp only [List.mem_cons, List.not_mem_nil, or_false] at rest <;>
        rcases rest with rfl | rfl | rfl <;> exact ⟨rfl, by simp [globalOp]⟩

theorem mem_layerNodes_of_layerIndex (member : node ∈ graphNodes plan)
    (there : node.layerIndex = some index) :
    ∃ layer, plan.layers[index]? = some layer ∧ node ∈ layerNodes layer index := by
  rcases mem_graphNodes_iff.mp member with atStart | ⟨index', layer, at_, inLayer⟩ | atEnd
  · simp [(global_of_mem (.inl atStart)).1] at there
  · obtain rfl := Option.some.inj ((layerNodes_cases inLayer).1.symm.trans there)
    exact ⟨layer, at_, inLayer⟩
  · simp [(global_of_mem (.inr atEnd)).1] at there

theorem mem_layerNodes_of_output (member : node ∈ graphNodes plan)
    (output : node.output = .layer index t) :
    ∃ layer, plan.layers[index]? = some layer ∧ node ∈ layerNodes layer index := by
  rcases mem_graphNodes_iff.mp member with atStart | ⟨index', layer, at_, inLayer⟩ | atEnd
  · exact absurd output ((global_of_mem (.inl atStart)).2 index t)
  · obtain ⟨t', same⟩ := exists_of_mem_layerNodes inLayer
    obtain ⟨rfl, -⟩ := GraphTensor.layer.inj (same.symm.trans output)
    exact ⟨layer, at_, inLayer⟩
  · exact absurd output ((global_of_mem (.inr atEnd)).2 index t)

end Places

/-! ## Dead operations -/

section Dead

variable {plan : ModelExecutionPlan} {node : OpNode} {t s : GraphTensor}

theorem mem_operands_iff : s ∈ operands (graphNodes plan) t ↔ Reads (graphNodes plan) t s := by
  constructor
  · intro member
    unfold operands at member
    split at member
    next producer found =>
      obtain ⟨there, output⟩ := Keyed.mem_of_find found
      exact ⟨producer, List.mem_reverse.mp there, output, member⟩
    next => cases member
  · rintro ⟨producer, there, rfl, member⟩
    rw [operands_of_mem nodup_outputs there]
    exact member

theorem eq_outputToken_of_mem_graphRoots {nodes : List OpNode} (root : t ∈ graphRoots nodes) :
    t = .outputToken := by
  unfold graphRoots at root
  dsimp only at root
  split at root
  · obtain ⟨node, member, rfl⟩ := List.mem_map.mp root
    simp only [List.mem_filter, decide_eq_true_eq] at member
    exact member.2.2
  · obtain ⟨node, member, rfl⟩ := List.mem_map.mp root
    simp only [List.mem_filter, decide_eq_true_eq] at member
    exact member.2.2

theorem argmax_of_outputToken (member : node ∈ graphNodes plan)
    (token : node.output = .outputToken) : node.kind = .argmax := by
  rcases List.mem_append.mp member with before | atEnd
  · rcases List.mem_append.mp before with atStart | inLayers
    · obtain ⟨-, here⟩ := mem_opsIf.mp atStart
      obtain rfl := List.mem_singleton.mp here
      cases token
    · obtain ⟨⟨layer, index⟩, -, inLayer⟩ := List.mem_flatMap.mp inLayers
      obtain ⟨t, output⟩ := exists_of_mem_layerNodes inLayer
      rw [output] at token
      cases token
  · obtain ⟨-, there⟩ := mem_opsIf.mp atEnd
    rcases List.mem_append.mp there with norm | rest
    · obtain rfl := List.mem_singleton.mp norm
      cases token
    · split at rest <;> simp only [List.mem_cons, List.not_mem_nil, or_false] at rest <;>
        rcases rest with rfl | rfl | rfl <;> first | rfl | cases token

/-- What is needed for the output token, and written, is needed for an operation that writes
it. -/
theorem outputToken_mem_graphRoots (member : node ∈ graphNodes plan)
    (needed : Needed (graphNodes plan) node.output) :
    .outputToken ∈ graphRoots (graphNodes plan) := by
  -- The first step of the search starts from what writes the output token.
  have written : ∃ last ∈ graphNodes plan, last.output = .outputToken := by
    rcases Relation.ReflTransGen.cases_head needed with here | ⟨_, ⟨last, there, token, -⟩, -⟩
    · exact ⟨node, member, here.symm⟩
    · exact ⟨last, there, token⟩
  obtain ⟨last, there, token⟩ := written
  exact mem_graphRoots there (argmax_of_outputToken there token) token

theorem live_iff_needed (member : node ∈ graphNodes plan) :
    node.output ∈ liveTensors (graphNodes plan) ↔ Needed (graphNodes plan) node.output := by
  rw [mem_liveTensors nodup_outputs]
  simp only [mem_operands_iff]
  constructor
  · rintro ⟨root, isRoot, path⟩
    obtain rfl := eq_outputToken_of_mem_graphRoots isRoot
    exact path
  · intro needed
    exact ⟨.outputToken, outputToken_mem_graphRoots member needed, needed⟩

theorem mem_deadNodes_iff (member : node ∈ graphNodes plan) :
    node ∈ deadNodes (graphNodes plan) ↔ ¬Needed (graphNodes plan) node.output := by
  rw [deadNodes, List.mem_filter, decide_eq_true_eq, live_iff_needed member]
  exact and_iff_right member

end Dead

/-! ## Resetting weights -/

section Reset

variable {layer : LayerPlan} {layers : List LayerPlan} {kind : OpKind} {i : ℕ}

/-- One of the operations is of the kind and in the layer. -/
def OfLayer (nodes : List OpNode) (i : ℕ) (kind : OpKind) : Prop :=
  ∃ node ∈ nodes, node.layerIndex = some i ∧ node.kind = kind

structure LayerPlan.Reset (before after : LayerPlan) (dead : OpKind → Prop) : Prop where
  reset : ∀ kind, dead kind → after.weightId? kind = (before.weightId? kind).map fun _ => 0
  kept : ∀ kind, ¬dead kind → after.weightId? kind = before.weightId? kind

theorem LayerPlan.weightId?_clear_self :
    (layer.clear kind).weightId? kind = (layer.weightId? kind).map fun _ => 0 := by
  cases kind <;> rfl

theorem LayerPlan.weightId?_clear_of_ne {other : OpKind} (apart : other ≠ kind) :
    (layer.clear kind).weightId? other = layer.weightId? other := by
  cases kind <;> cases other <;> first | rfl | exact absurd rfl apart

theorem LayerPlan.weightId?_withoutShapes :
    layer.withoutShapes.weightId? kind = layer.weightId? kind := by
  cases kind <;> rfl

theorem reset_clearNode (node : OpNode) (there : layers[i]? = some layer) :
    ∃ layer', (clearNode layers node)[i]? = some layer' ∧
      layer.Reset layer' fun kind => node.layerIndex = some i ∧ node.kind = kind := by
  cases at_ : node.layerIndex with
  | none =>
    refine ⟨layer, by simpa [clearNode, at_] using there, ?_, fun _ _ => rfl⟩
    rintro kind ⟨here, -⟩
    cases here
  | some index =>
    by_cases here : index = i
    · subst here
      refine ⟨layer.clear node.kind, by simp [clearNode, at_, there], ?_, ?_⟩
      · rintro kind ⟨-, rfl⟩
        exact layer.weightId?_clear_self
      · intro kind apart
        exact layer.weightId?_clear_of_ne fun same => apart ⟨rfl, same.symm⟩
    · refine ⟨layer, by simp [clearNode, at_, there, here], ?_, fun _ _ => rfl⟩
      rintro kind ⟨same, -⟩
      exact absurd (Option.some.inj same) here

theorem reset_foldl (nodes : List OpNode) (there : layers[i]? = some layer) :
    ∃ layer', (nodes.foldl clearNode layers)[i]? = some layer' ∧
      layer.Reset layer' (OfLayer nodes i) := by
  induction nodes generalizing layers layer with
  | nil =>
    refine ⟨layer, there, ?_, fun _ _ => rfl⟩
    rintro kind ⟨node, member, -⟩
    cases member
  | cons node nodes ih =>
    obtain ⟨middle, atMiddle, first⟩ := reset_clearNode node there
    obtain ⟨layer', atEnd, rest⟩ := ih atMiddle
    refine ⟨layer', atEnd, fun kind dead => ?_, fun kind alive => ?_⟩
    · by_cases later : OfLayer nodes i kind
      · rw [rest.reset kind later]
        by_cases now : node.layerIndex = some i ∧ node.kind = kind
        · rw [first.reset kind now, Option.map_map]
          rfl
        · rw [first.kept kind now]
      -- It is this operation that resets the weight, and no later one.
      · obtain ⟨other, member, at_, same⟩ := dead
        rcases List.mem_cons.mp member with rfl | member
        · rw [rest.kept kind later, first.reset kind ⟨at_, same⟩]
        · exact absurd ⟨other, member, at_, same⟩ later
    · have later : ¬OfLayer nodes i kind := fun ⟨other, member, there⟩ =>
        alive ⟨other, List.mem_cons_of_mem _ member, there⟩
      have now : ¬(node.layerIndex = some i ∧ node.kind = kind) := fun there =>
        alive ⟨node, List.mem_cons_self, there⟩
      rw [rest.kept kind later, first.kept kind now]

end Reset

/-! ## Rewiring -/

section Rewired

variable {layer layer' : LayerPlan} {index : ℕ} {node : OpNode}

/-- What was left of a layer's weights: those of the operations that are live, and none where there
was none. -/
structure LayerPlan.Left (live : GraphTensor → Prop) (index : ℕ) (before after : LayerPlan) :
    Prop where
  live : ∀ node ∈ layerNodes before index, live node.output →
    after.weightId? node.kind = before.weightId? node.kind
  none_ : ∀ kind, before.weightId? kind = some 0 → after.weightId? kind = some 0

theorem LayerPlan.Left.nonzero {live : GraphTensor → Prop} (left : layer.Left live index layer')
    (kind : OpKind) {id id' : ℕ} (before : layer.weightId? kind = some id)
    (after : layer'.weightId? kind = some id') (has : id ≠ 0)
    (isLive : live (.layer index kind.weighted)) : id' ≠ 0 := by
  obtain ⟨node, member, rfl, output⟩ := exists_weighted before has
  have same := left.live node member (output ▸ isLive)
  obtain rfl : id' = id := Option.some.inj (after.symm.trans (same.trans before))
  exact has

theorem LayerPlan.Left.zero {live : GraphTensor → Prop} (left : layer.Left live index layer')
    (kind : OpKind) {id id' : ℕ} (before : layer.weightId? kind = some id)
    (after : layer'.weightId? kind = some id') (lacks : id = 0) : id' = 0 := by
  subst lacks
  exact Option.some.inj (after.symm.trans (left.none_ kind before))

/-- A live operation is still there where some weights were reset, unless it reads the product of
a gate with nothing. -/
theorem mem_layerNodes_of_live {live : GraphTensor → Prop} (left : layer.Left live index layer')
    (closed : ∀ node ∈ layerNodes layer index, live node.output → ∀ s ∈ node.inputs, live s)
    (member : node ∈ layerNodes layer index) (isLive : live node.output) :
    node ∈ layerNodes layer' index ∨
      node.inputs = [.layer index .mul] ∧ layer.upProjTensorId = 0 := by
  let out := GraphTensor.layer index
  have q : layer.qProjTensorId ≠ 0 → live (out .q) → layer'.qProjTensorId ≠ 0 :=
    left.nonzero .qProj rfl rfl
  have k : layer.kProjTensorId ≠ 0 → live (out .k) → layer'.kProjTensorId ≠ 0 :=
    left.nonzero .kProj rfl rfl
  have v : layer.vProjTensorId ≠ 0 → live (out .v) → layer'.vProjTensorId ≠ 0 :=
    left.nonzero .vProj rfl rfl
  have o : layer.oProjTensorId ≠ 0 → live (out .o) → layer'.oProjTensorId ≠ 0 :=
    left.nonzero .oProj rfl rfl
  have gate : layer.gateProjTensorId ≠ 0 → live (out .gate) → layer'.gateProjTensorId ≠ 0 :=
    left.nonzero .gateProj rfl rfl
  have up : layer.upProjTensorId ≠ 0 → live (out .up) → layer'.upProjTensorId ≠ 0 :=
    left.nonzero .upProj rfl rfl
  have down : layer.downProjTensorId ≠ 0 → live (out .down) → layer'.downProjTensorId ≠ 0 :=
    left.nonzero .downProj rfl rfl
  have silu : layer.gateProjTensorId ≠ 0 → live (out .silu) → live (out .gate) := fun has isLive =>
    closed ⟨.silu, some index, [out .gate], out .silu⟩
      (by simp [layerNodes, mem_opsIf, has, out]) isLive _ (.head _)
  have inputs := closed node member isLive
  simp only [layerNodes, List.mem_append, mem_opsIf, List.mem_cons, List.not_mem_nil,
    or_false, or_assoc] at member
  -- One case for each operation of the layer, in their order.
  rcases member with rfl | ⟨has, rfl⟩ | ⟨has, rfl⟩ | ⟨has, rfl⟩ | rfl | rfl | ⟨has, rfl⟩ | rfl |
    rfl | ⟨has, rfl | rfl⟩ | ⟨has, rfl⟩ | ⟨⟨hasGate, hasUp⟩, rfl⟩ | ⟨has, rfl | rfl⟩
  · exact .inl (by simp [layerNodes])
  · exact .inl (by simp [layerNodes, mem_opsIf, q has isLive])
  · exact .inl (by simp [layerNodes, mem_opsIf, k has isLive])
  · exact .inl (by simp [layerNodes, mem_opsIf, v has isLive])
  · exact .inl (by simp [layerNodes])
  · -- Attention reads the values exactly where they are projected, and then they are live.
    by_cases has : layer.vProjTensorId = 0
    · have lacksV := left.zero .vProj rfl rfl has
      exact .inl (by simp [layerNodes, has, lacksV])
    · have hasV := v has (inputs (out .v) (by simp [has, out]))
      exact .inl (by simp [layerNodes, has, hasV])
  · exact .inl (by simp [layerNodes, mem_opsIf, o has isLive])
  · by_cases has : layer.oProjTensorId = 0
    · have lacksO := left.zero .oProj rfl rfl has
      exact .inl (by simp [layerNodes, has, lacksO])
    · have hasO := o has (inputs (out .o) (by simp [has, out]))
      exact .inl (by simp [layerNodes, has, hasO])
  · exact .inl (by simp [layerNodes])
  · exact .inl (by simp [layerNodes, mem_opsIf, gate has isLive])
  · have hasGate := gate has (inputs (out .gate) (.head _))
    exact .inl (by simp [layerNodes, mem_opsIf, hasGate])
  · exact .inl (by simp [layerNodes, mem_opsIf, up has isLive])
  · have hasGate' := gate hasGate (silu hasGate (inputs (out .silu) (.head _)))
    have hasUp' := up hasUp (inputs (out .up) (.tail _ (.head _)))
    exact .inl (by simp [layerNodes, mem_opsIf, hasGate', hasUp'])
  · have has' := down has isLive
    by_cases gated : layer.gateProjTensorId = 0
    · have lacksGate := left.zero .gateProj rfl rfl gated
      exact .inl (by simp [layerNodes, mem_opsIf, gated, lacksGate, has'])
    · by_cases hasUp : layer.upProjTensorId = 0
      · exact .inr ⟨by simp [gated], hasUp⟩
      · -- The product is computed, so what it is computed from is live.
        have product := inputs (out .mul) (by simp [gated, out])
        have factors := closed ⟨.gateTimesUp, some index, [out .silu, out .up], out .mul⟩
          (by simp [layerNodes, mem_opsIf, gated, hasUp, out]) product
        have hasGate' := gate gated (silu gated (factors _ (.head _)))
        exact .inl (by simp [layerNodes, mem_opsIf, gated, hasGate', has'])
  · have has' := down has (inputs (out .down) (.tail _ (.head _)))
    exact .inl (by simp [layerNodes, mem_opsIf, has'])

end Rewired

/-! ## Optimizing again -/

section Again

variable {plan plan' : ModelExecutionPlan} {layer layer' : LayerPlan} {node : OpNode} {i : ℕ}
  {t : GraphTensor}

theorem fromPlan_ok {nodes : List OpNode} (built : fromPlan plan = .ok nodes) :
    nodes = graphNodes plan := by
  obtain ⟨_, -, built⟩ := bind_ok_iff.mp built
  obtain ⟨_, -, built⟩ := bind_ok_iff.mp built
  exact (pure_ok_iff.mp built).symm

def ModelExecutionPlan.optimized (plan : ModelExecutionPlan) : ModelExecutionPlan :=
  { plan with
    layers := ((deadNodes (graphNodes plan)).foldl clearNode plan.layers).map
      LayerPlan.withoutShapes }

theorem optimize_of_built (built : fromPlan plan = .ok (graphNodes plan)) :
    plan.optimize = .ok plan.optimized := by
  rw [ModelExecutionPlan.optimize, built]
  rfl

/-- The weights that optimizing resets are those of dead operations. -/
theorem reset_optimized (there : plan.layers[i]? = some layer) :
    ∃ layer', plan.optimized.layers[i]? = some layer' ∧
      layer.Reset layer' (OfLayer (deadNodes (graphNodes plan)) i) := by
  obtain ⟨layer', there', ⟨reset, kept⟩⟩ := reset_foldl (deadNodes (graphNodes plan)) there
  refine ⟨layer'.withoutShapes, by simp [ModelExecutionPlan.optimized, there'], ?_, ?_⟩
  · intro kind dead
    rw [LayerPlan.weightId?_withoutShapes, reset kind dead]
  · intro kind alive
    rw [LayerPlan.weightId?_withoutShapes, kept kind alive]

theorem length_optimized : plan.optimized.layers.length = plan.layers.length := by
  have pruned := (prunedLayers_foldl (deadNodes (graphNodes plan)) plan.layers).length_eq
  simpa [ModelExecutionPlan.optimized] using pruned.symm

theorem reset_of_optimized (there' : plan.optimized.layers[i]? = some layer') :
    ∃ layer, plan.layers[i]? = some layer ∧
      layer.Reset layer' (OfLayer (deadNodes (graphNodes plan)) i) := by
  obtain ⟨inside, -⟩ := List.getElem?_eq_some_iff.mp there'
  rw [length_optimized] at inside
  have there := List.getElem?_eq_getElem inside
  obtain ⟨_, at_, reset⟩ := reset_optimized there
  obtain rfl := Option.some.inj (at_.symm.trans there')
  exact ⟨_, there, reset⟩

theorem not_needed_of_ofLayer {id : ℕ} (there : plan.layers[i]? = some layer)
    (member : node ∈ layerNodes layer i) (weight : layer.weightId? node.kind = some id)
    (dead : OfLayer (deadNodes (graphNodes plan)) i node.kind) :
    ¬Needed (graphNodes plan) node.output := by
  obtain ⟨other, isDead, at_, same⟩ := dead
  have inGraph := (List.mem_filter.mp isDead).1
  obtain ⟨layer', there', member'⟩ := mem_layerNodes_of_layerIndex inGraph at_
  obtain rfl := Option.some.inj (there'.symm.trans there)
  obtain ⟨-, output⟩ := (layerNodes_cases member).2.1 id weight
  obtain ⟨-, output'⟩ := (layerNodes_cases member').2.1 id (same ▸ weight)
  rw [output, ← same, ← output']
  exact (mem_deadNodes_iff inGraph).mp isDead

/-- Optimizing leaves the weights of the operations that are needed. -/
theorem left_of_reset (there : plan.layers[i]? = some layer)
    (reset : layer.Reset layer' (OfLayer (deadNodes (graphNodes plan)) i)) :
    layer.Left (Needed (graphNodes plan)) i layer' where
  live node member needed := by
    cases weight : layer.weightId? node.kind with
    | none =>
      by_cases dead : OfLayer (deadNodes (graphNodes plan)) i node.kind
      · rw [reset.reset _ dead, weight]
        rfl
      · rw [reset.kept _ dead, weight]
    | some id =>
      have alive : ¬OfLayer (deadNodes (graphNodes plan)) i node.kind := fun dead =>
        not_needed_of_ofLayer there member weight dead needed
      rw [reset.kept _ alive, weight]
  none_ kind zero := by
    by_cases dead : OfLayer (deadNodes (graphNodes plan)) i kind
    · rw [reset.reset kind dead, zero]
      rfl
    · rw [reset.kept kind dead, zero]

theorem needed_inputs (member : node ∈ graphNodes plan)
    (needed : Needed (graphNodes plan) node.output) {s : GraphTensor} (input : s ∈ node.inputs) :
    Needed (graphNodes plan) s :=
  Relation.ReflTransGen.tail needed ⟨node, member, rfl, input⟩

/-- What is read, and written, on the way to the output token is still read there. -/
theorem reads_optimized {s : GraphTensor} (reads : Reads (graphNodes plan) t s)
    (needed : Needed (graphNodes plan) t)
    (written : ∃ writer ∈ graphNodes plan, writer.output = s) :
    Reads (graphNodes plan.optimized) t s := by
  obtain ⟨node, member, rfl, input⟩ := reads
  have still : ∀ {nodes}, node ∈ nodes → Reads nodes node.output s :=
    fun member => ⟨node, member, rfl, input⟩
  rcases mem_graphNodes_iff.mp member with atStart | ⟨i, layer, there, inLayer⟩ | atEnd
  · exact still (mem_graphNodes_iff.mpr (.inl atStart))
  · obtain ⟨layer', there', reset⟩ := reset_optimized there
    have closed : ∀ node ∈ layerNodes layer i, Needed (graphNodes plan) node.output →
        ∀ s ∈ node.inputs, Needed (graphNodes plan) s := fun node member needed s input =>
      needed_inputs (mem_graphNodes_of_layer there member) needed input
    rcases mem_layerNodes_of_live (left_of_reset there reset) closed inLayer needed with
      stays | ⟨product, lacks⟩
    · exact still (mem_graphNodes_of_layer there' stays)
    · -- Nothing writes a product without the other factor.
      obtain ⟨writer, inGraph, output⟩ := written
      rw [product, List.mem_singleton] at input
      obtain ⟨layer₁, there₁, inLayer₁⟩ := mem_layerNodes_of_output inGraph (output.trans input)
      obtain rfl := Option.some.inj (there₁.symm.trans there)
      exact absurd lacks ((layerNodes_cases inLayer₁).2.2 (output.trans input))
  -- The last operations are the same for as many layers.
  · refine still (mem_graphNodes_iff.mpr (.inr (.inr ?_)))
    have same : epilogueNodes plan.optimized = epilogueNodes plan := by
      have lengths := @length_optimized plan
      rw [epilogueNodes, lengths]
      rfl
    rw [same]
    exact atEnd

/-- What is needed of what is written is still needed; the induction is on the way back from the
output token. -/
theorem needed_optimized (needed : Needed (graphNodes plan) t)
    (written : ∃ writer ∈ graphNodes plan, writer.output = t) :
    Needed (graphNodes plan.optimized) t := by
  induction needed with
  | refl => exact .refl
  | tail path reads ih =>
    have before : Needed (graphNodes plan.optimized) _ := ih (by
      obtain ⟨writer, member, output, -⟩ := reads
      exact ⟨writer, member, output⟩)
    exact before.tail (reads_optimized reads path written)

theorem weightId?_of_dead (dead : node ∈ deadNodes (graphNodes plan.optimized))
    (at_ : node.layerIndex = some i) (there' : plan.optimized.layers[i]? = some layer') :
    layer'.weightId? node.kind = none := by
  by_contra some_
  obtain ⟨id, weight'⟩ := Option.ne_none_iff_exists'.mp some_
  have inGraph := (List.mem_filter.mp dead).1
  obtain ⟨layer₁, there₁, member'⟩ := mem_layerNodes_of_layerIndex inGraph at_
  obtain rfl := Option.some.inj (there₁.symm.trans there')
  obtain ⟨nonzero, output'⟩ := (layerNodes_cases member').2.1 id weight'
  obtain ⟨layer, there, reset⟩ := reset_of_optimized there'
  -- The weight was not reset, so the operation that reads it was needed before.
  have alive : ¬OfLayer (deadNodes (graphNodes plan)) i node.kind := by
    intro reset_
    rw [reset.reset _ reset_] at weight'
    obtain ⟨_, -, zero⟩ := Option.map_eq_some_iff.mp weight'
    exact nonzero zero.symm
  have weight : layer.weightId? node.kind = some id := by rw [← reset.kept _ alive, weight']
  obtain ⟨reader, inLayer, kind, output⟩ : ∃ reader ∈ layerNodes layer i,
      reader.kind = node.kind ∧ reader.output = .layer i node.kind.weighted :=
    exists_weighted weight nonzero
  have reader_ := mem_graphNodes_of_layer there inLayer
  have needed : Needed (graphNodes plan) reader.output := by
    by_contra unneeded
    refine alive ⟨reader, (mem_deadNodes_iff reader_).mpr unneeded, ?_, kind⟩
    exact (layerNodes_cases inLayer).1
  have needed' := needed_optimized needed ⟨reader, reader_, rfl⟩
  rw [output, ← output'] at needed'
  exact (mem_deadNodes_iff inGraph).mp dead needed'

theorem LayerPlan.clear_of_structural {kind : OpKind} (structural : layer.weightId? kind = none) :
    layer.clear kind = layer := by
  cases kind <;> first | rfl | cases structural

/-- The second time, no turn of the loop over the dead operations resets anything. -/
theorem clearNode_optimized (dead : node ∈ deadNodes (graphNodes plan.optimized)) :
    clearNode plan.optimized.layers node = plan.optimized.layers := by
  cases at_ : node.layerIndex with
  | none => simp [clearNode, at_]
  | some i =>
    simp only [clearNode, at_]
    apply List.ext_getElem?
    intro j
    rw [List.getElem?_modify]
    cases there : plan.optimized.layers[j]? with
    | none => rfl
    | some layer =>
      by_cases here : i = j
      · subst here
        simp [LayerPlan.clear_of_structural (weightId?_of_dead dead at_ there)]
      · simp [here]

theorem foldl_clearNode_fixed {layers : List LayerPlan} {nodes : List OpNode}
    (each : ∀ node ∈ nodes, clearNode layers node = layers) :
    nodes.foldl clearNode layers = layers := by
  induction nodes with
  | nil => rfl
  | cons node nodes ih =>
    rw [List.foldl_cons, each node List.mem_cons_self]
    exact ih fun node member => each node (List.mem_cons_of_mem _ member)

theorem optimized_optimized : plan.optimized.optimized = plan.optimized := by
  have cleared : (deadNodes (graphNodes plan.optimized)).foldl clearNode plan.optimized.layers =
      plan.optimized.layers := foldl_clearNode_fixed fun _ dead => clearNode_optimized dead
  have shapeless : plan.optimized.layers.map LayerPlan.withoutShapes = plan.optimized.layers := by
    simp [ModelExecutionPlan.optimized]
  rw [ModelExecutionPlan.optimized, cleared, shapeless]

theorem prunedLayers_optimized : PrunedLayers plan.layers plan.optimized.layers :=
  (prunedLayers_foldl _ _).trans prunedLayers_withoutShapes

def LayerPlan.ropeWidth (layer : LayerPlan) : ℕ :=
  (if layer.attentionKind = "full_attention" then layer.globalHeadDim.getD layer.headDim
    else layer.headDim) * layer.nHeads

theorem fromPlan_ok_iff : fromPlan plan = .ok (graphNodes plan) ↔
    plan.hiddenSize * 4 < 2 ^ 32 ∧ ∀ layer ∈ plan.layers, layer.ropeWidth < 2 ^ 32 := by
  simp only [fromPlan, bind_ok_iff, fit_ok_iff, forM_ok_iff, pure_ok_iff, LayerPlan.ropeWidth]
  simp

theorem built_optimized (built : fromPlan plan = .ok (graphNodes plan)) :
    fromPlan plan.optimized = .ok (graphNodes plan.optimized) := by
  obtain ⟨hidden, widths⟩ := fromPlan_ok_iff.mp built
  refine fromPlan_ok_iff.mpr ⟨hidden, fun layer' member => ?_⟩
  obtain ⟨i, there'⟩ := List.getElem?_of_mem member
  obtain ⟨layer, there, pruned⟩ := exists_of_pruned prunedLayers_optimized there'
  rw [pruned.kept LayerPlan.ropeWidth fun _ => rfl]
  exact widths layer (List.mem_of_getElem? there)

/-- Every plan whose shapes do not overflow is optimized to one to which the law applies. -/
theorem optimizeLaw {nodes : List OpNode} (built : fromPlan plan = .ok nodes) :
    ∃ plan', plan.optimize = .ok plan' ∧ OptimizeLaw plan plan' nodes := by
  obtain rfl := fromPlan_ok built
  have ok : plan.optimize = .ok plan.optimized := optimize_of_built built
  refine ⟨plan.optimized, ok, fun node member => mem_deadNodes_iff member,
    ⟨rfl, prunedLayers_optimized⟩, ?_, ?_, ?_⟩
  · intro i layer layer' kind there there'
    obtain ⟨_, at_, reset⟩ := reset_optimized there
    obtain rfl := Option.some.inj (at_.symm.trans there')
    by_cases dead : OfLayer (deadNodes (graphNodes plan)) i kind
    · cases weight : layer.weightId? kind with
      | none => exact .inl (by rw [reset.reset kind dead, weight]; rfl)
      | some id => exact .inr ⟨by rw [reset.reset kind dead, weight]; rfl, dead⟩
    · exact .inl (reset.kept kind dead)
  · rw [optimize_of_built (built_optimized built), optimized_optimized]
  -- A valid plan has all its weights, so that all its operations are needed.
  · intro valid
    have sound := validate_ok_iff.mp valid
    refine optimize_of_whole sound.finalNorm (fun layer member => ?_) ok
    obtain ⟨i, there⟩ := List.getElem?_of_mem member
    exact (sound.layers i layer there).projections

/-- A plan whose first layer has no up projection, so that nothing reads its gate projection. -/
def gatePlan : ModelExecutionPlan :=
  let plan := smallPlan (twoKinds (some 4) (some 1))
  { plan with layers := plan.layers.modify 0 fun layer => { layer with upProjTensorId := 0 } }

theorem gatePlan_optimizeLaw : gatePlan.layers.map (·.gateProjTensorId) = [1, 1] ∧
    ∃ plan', gatePlan.optimize = .ok plan' ∧ plan'.layers.map (·.gateProjTensorId) = [0, 1] ∧
      OptimizeLaw gatePlan plan' (graphNodes gatePlan) := by
  have built : fromPlan gatePlan = .ok (graphNodes gatePlan) := fromPlan_ok_iff.mpr (by decide)
  obtain ⟨plan', ok, law⟩ := optimizeLaw built
  refine ⟨by decide, plan', ok, ?_, law⟩
  have gates : gatePlan.optimize.toOption.map (·.layers.map (·.gateProjTensorId)) =
      some [0, 1] := by decide +kernel
  rw [ok] at gates
  exact Option.some.inj gates

end Again

end TribunusCompute.ComputeImage
