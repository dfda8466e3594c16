import Mathlib.Data.Prod.Lex
import TribunusCompute.Library.Keyed
import TribunusCompute.Library.Worklist
import TribunusCompute.ComputeImage.ExecutionPlan

/-!
# The graph optimizer

Operations that nothing reads on the way to the output token are dead, and the ids of their
weights are set to zero. In a plan that lacks no projection and has a final norm, no operation
is dead.
-/
namespace TribunusCompute.ComputeImage

open Outcome

/-! ## The operation graph -/

inductive OpKind
  | embeddingLookup | rmsNorm | qProj | kProj | vProj | qNorm | kNorm | rope | attention | oProj
  | gateProj | upProj | silu | gateTimesUp | downProj | residualAdd | finalNorm
  | outputProjection | softcap | argmax
  deriving DecidableEq, Repr

inductive LayerTensor
  | normOut | q | k | v | rope | attn | o | postAttn | postNorm | gate | silu | up | mul | down
  | output
  deriving DecidableEq, Repr

/-- The symbolic names of the tensors that operations read and write. -/
inductive GraphTensor
  | inputIds | embeddingOutput | finalNormOutput | outputProjectionOutput | softcapOutput
  | outputToken
  | layer (index : ℕ) (tensor : LayerTensor)
  deriving Repr

def GraphTensor.key : GraphTensor → ℕ ×ₗ ℕ
  | inputIds => toLex (0, 0)
  | embeddingOutput => toLex (0, 1)
  | finalNormOutput => toLex (0, 2)
  | outputProjectionOutput => toLex (0, 3)
  | softcapOutput => toLex (0, 4)
  | outputToken => toLex (0, 5)
  | layer index tensor => toLex (index + 1, tensor.ctorIdx)

theorem GraphTensor.key_injective : GraphTensor.key.Injective := by
  intro s t same
  have pairs := toLex.injective same
  cases s <;> cases t <;> simp_all [key]
  next s _ t =>
    rw [← LayerTensor.ofNat_ctorIdx s, pairs.2, LayerTensor.ofNat_ctorIdx t]

instance : LinearOrder GraphTensor := LinearOrder.lift' GraphTensor.key GraphTensor.key_injective

structure OpNode where
  kind : OpKind
  layerIndex : Option ℕ
  inputs : List GraphTensor
  output : GraphTensor
  deriving Repr

def opsIf (present : Prop) [Decidable present] (nodes : List OpNode) : List OpNode :=
  if present then nodes else []

def globalOp (kind : OpKind) (inputs : List GraphTensor) (output : GraphTensor) : OpNode :=
  ⟨kind, none, inputs, output⟩

/-- What layer `index` starts from. -/
def residualIn : ℕ → GraphTensor
  | 0 => .embeddingOutput
  | index + 1 => .layer index .output

def layerNodes (plan : LayerPlan) (index : ℕ) : List OpNode :=
  let out := GraphTensor.layer index
  let op (kind : OpKind) (inputs : List GraphTensor) (result : LayerTensor) : OpNode :=
    ⟨kind, some index, inputs, out result⟩
  [op .rmsNorm [residualIn index] .normOut] ++
  opsIf (plan.qProjTensorId ≠ 0) [op .qProj [out .normOut] .q] ++
  opsIf (plan.kProjTensorId ≠ 0) [op .kProj [out .normOut] .k] ++
  opsIf (plan.vProjTensorId ≠ 0) [op .vProj [out .normOut] .v] ++
  [op .rope [] .rope,
    op .attention (if plan.vProjTensorId ≠ 0 then [out .q, out .k, out .v, out .rope]
      else [out .q, out .k, out .rope]) .attn] ++
  opsIf (plan.oProjTensorId ≠ 0) [op .oProj [out .attn] .o] ++
  [op .residualAdd [residualIn index, if plan.oProjTensorId ≠ 0 then out .o else out .attn]
      .postAttn,
    op .rmsNorm [out .postAttn] .postNorm] ++
  opsIf (plan.gateProjTensorId ≠ 0)
    [op .gateProj [out .postNorm] .gate, op .silu [out .gate] .silu] ++
  opsIf (plan.upProjTensorId ≠ 0) [op .upProj [out .postNorm] .up] ++
  opsIf (plan.gateProjTensorId ≠ 0 ∧ plan.upProjTensorId ≠ 0)
    [op .gateTimesUp [out .silu, out .up] .mul] ++
  opsIf (plan.downProjTensorId ≠ 0)
    [op .downProj [if plan.gateProjTensorId ≠ 0 then out .mul else out .up] .down,
      op .residualAdd [out .postAttn, out .down] .output]

def prologueNodes (plan : ModelExecutionPlan) : List OpNode :=
  opsIf (plan.prologue.embeddingTensorId ≠ 0)
    [globalOp .embeddingLookup [.inputIds] .embeddingOutput]

def epilogueNodes (plan : ModelExecutionPlan) : List OpNode :=
  opsIf (plan.epilogue.finalNormTensorId ≠ 0) <|
    [globalOp .finalNorm [residualIn plan.layers.length] .finalNormOutput] ++
    match plan.epilogue.outputProjectionTensorId, plan.finalLogitSoftcapping with
    | some _, some _ =>
      [globalOp .outputProjection [.finalNormOutput] .outputProjectionOutput,
        globalOp .softcap [.outputProjectionOutput] .softcapOutput,
        globalOp .argmax [.softcapOutput] .outputToken]
    | some _, none =>
      [globalOp .outputProjection [.finalNormOutput] .outputProjectionOutput,
        globalOp .argmax [.outputProjectionOutput] .outputToken]
    -- The logits are computed elsewhere.
    | none, _ => [globalOp .argmax [.finalNormOutput] .outputToken]

def graphNodes (plan : ModelExecutionPlan) : List OpNode :=
  prologueNodes plan ++
    (plan.layers.zipIdx.flatMap fun (layer, i) => layerNodes layer i) ++ epilogueNodes plan

/-- The operation graph of a plan. The shapes are multiplied out on the way, which panics where
one overflows. -/
def fromPlan (plan : ModelExecutionPlan) : Outcome (List OpNode) := do
  let _ ← fit 32 (plan.hiddenSize * 4)
  forM plan.layers fun layer => do
    let headDim := if layer.attentionKind = "full_attention"
      then layer.globalHeadDim.getD layer.headDim else layer.headDim
    let _ ← fit 32 (headDim * layer.nHeads)
    return ()
  return graphNodes plan

/-! ## Dead code elimination -/

/-- What the operation that writes a tensor reads; the last one to be added counts. -/
def operands (nodes : List OpNode) (tensor : GraphTensor) : List GraphTensor :=
  match Keyed.find OpNode.output nodes.reverse tensor with
  | some producer => producer.inputs
  | none => []

def graphRoots (nodes : List OpNode) : List GraphTensor :=
  let roots := (nodes.filter fun node => node.kind = .argmax ∧ node.output = .outputToken).map
    OpNode.output
  if roots.isEmpty then
    (nodes.filter fun node => node.layerIndex = none ∧ node.output = .outputToken).map OpNode.output
  else roots

def graphTensors (nodes : List OpNode) : List GraphTensor :=
  nodes.flatMap fun node => node.output :: node.inputs

/-- Walk backwards from the roots; each tensor is popped at most once. -/
def liveTensors (nodes : List OpNode) : SortedSet GraphTensor :=
  Worklist.explore (operands nodes) (graphTensors nodes).length (graphRoots nodes).reverse
    (.ofList (graphRoots nodes))

def deadNodes (nodes : List OpNode) : List OpNode :=
  nodes.filter fun node => node.output ∉ liveTensors nodes

/-- Reset the tensor id of a dead operation; structural operations have none. -/
def LayerPlan.clear (layer : LayerPlan) : OpKind → LayerPlan
  | .qProj => { layer with qProjTensorId := 0 }
  | .kProj => { layer with kProjTensorId := 0 }
  | .vProj => { layer with vProjTensorId := 0 }
  | .oProj => { layer with oProjTensorId := 0 }
  | .gateProj => { layer with gateProjTensorId := 0 }
  | .upProj => { layer with upProjTensorId := 0 }
  | .downProj => { layer with downProjTensorId := 0 }
  | _ => layer

def clearNode (layers : List LayerPlan) (node : OpNode) : List LayerPlan :=
  match node.layerIndex with
  | some index => layers.modify index fun layer => layer.clear node.kind
  | none => layers

def LayerPlan.withoutShapes (layer : LayerPlan) : LayerPlan :=
  { layer with quantizationIds := layer.quantizationIds.filter fun id => !id.startsWith "shape:" }

/-- `optimize`. The shapes that it annotates the layers with are removed again. -/
def ModelExecutionPlan.optimize (plan : ModelExecutionPlan) : Outcome ModelExecutionPlan := do
  let nodes ← fromPlan plan
  let layers := (deadNodes nodes).foldl clearNode plan.layers
  return { plan with layers := layers.map LayerPlan.withoutShapes }

/-! ## What is kept -/

section Pruned

/-- The ids that dead code elimination may reset. -/
def LayerPlan.projectionIds (plan : LayerPlan) : List ℕ :=
  [plan.qProjTensorId, plan.kProjTensorId, plan.vProjTensorId, plan.oProjTensorId,
    plan.gateProjTensorId, plan.upProjTensorId, plan.downProjTensorId]

def LayerPlan.withoutProjections (plan : LayerPlan) : LayerPlan :=
  { plan with
    qProjTensorId := 0, kProjTensorId := 0, vProjTensorId := 0, oProjTensorId := 0
    gateProjTensorId := 0, upProjTensorId := 0, downProjTensorId := 0 }

/-- Some ids of projections are reset, and nothing else is changed but annotations. -/
structure LayerPlan.Pruned (before after : LayerPlan) : Prop where
  same : after.withoutProjections.withoutShapes = before.withoutProjections.withoutShapes
  ids : List.Forall₂ (fun id id' => id' = id ∨ id' = 0) before.projectionIds after.projectionIds

variable {layer before after last : LayerPlan}

theorem LayerPlan.Pruned.refl (layer : LayerPlan) : layer.Pruned layer :=
  ⟨rfl, List.forall₂_same.mpr fun _ _ => .inl rfl⟩

theorem LayerPlan.Pruned.trans (first : before.Pruned after) (second : after.Pruned last) :
    before.Pruned last := by
  refine ⟨second.same.trans first.same, ?_⟩
  have ids := first.ids
  have ids' := second.ids
  simp only [projectionIds, List.forall₂_cons, List.Forall₂.nil, and_true] at ids ids' ⊢
  grind

theorem LayerPlan.pruned_clear (kind : OpKind) : layer.Pruned (layer.clear kind) := by
  cases kind <;> exact ⟨rfl, by simp [clear, projectionIds]⟩

@[simp] theorem LayerPlan.withoutShapes_withoutShapes :
    layer.withoutShapes.withoutShapes = layer.withoutShapes := by
  simp [withoutShapes]

theorem LayerPlan.pruned_withoutShapes : layer.Pruned layer.withoutShapes :=
  ⟨@withoutShapes_withoutShapes layer.withoutProjections, by
    simp [withoutShapes, projectionIds]⟩

def PrunedLayers (before after : List LayerPlan) : Prop :=
  List.Forall₂ LayerPlan.Pruned before after

variable {layers layers' layers'' : List LayerPlan}

theorem PrunedLayers.refl (layers : List LayerPlan) : PrunedLayers layers layers :=
  List.forall₂_same.mpr fun layer _ => .refl layer

theorem PrunedLayers.trans (first : PrunedLayers layers layers')
    (second : PrunedLayers layers' layers'') : PrunedLayers layers layers'' := by
  induction first generalizing layers'' with
  | nil =>
    cases second
    exact .nil
  | cons head _ ih =>
    cases second with
    | cons head' tail' => exact .cons (head.trans head') (ih tail')

theorem prunedLayers_clearNode (node : OpNode) : PrunedLayers layers (clearNode layers node) := by
  unfold clearNode
  split
  next index there =>
    clear there
    induction layers generalizing index with
    | nil =>
      rw [List.modify_nil]
      exact .nil
    | cons layer layers ih =>
      cases index with
      | zero => exact .cons (layer.pruned_clear node.kind) (PrunedLayers.refl layers)
      | succ index => exact .cons (.refl layer) (ih index)
  next => exact .refl layers

theorem prunedLayers_foldl (nodes : List OpNode) (layers : List LayerPlan) :
    PrunedLayers layers (nodes.foldl clearNode layers) := by
  induction nodes generalizing layers with
  | nil => exact .refl layers
  | cons node nodes ih => exact (prunedLayers_clearNode node).trans (ih _)

theorem prunedLayers_withoutShapes : PrunedLayers layers (layers.map LayerPlan.withoutShapes) :=
  List.forall₂_map_right_iff.mpr (List.forall₂_same.mpr fun layer _ => layer.pruned_withoutShapes)

/-- The optimizer resets ids of projections, and changes nothing else but annotations. -/
theorem optimize_ok {plan plan' : ModelExecutionPlan} (ok : plan.optimize = .ok plan') :
    ∃ layers, plan' = { plan with layers } ∧ PrunedLayers plan.layers layers := by
  obtain ⟨nodes, -, done⟩ := bind_ok_iff.mp ok
  cases done
  exact ⟨_, rfl, (prunedLayers_foldl _ _).trans prunedLayers_withoutShapes⟩

end Pruned

/-! ## What is live -/

section Live

variable {nodes : List OpNode} {node : OpNode} {t : GraphTensor}

theorem operands_of_mem (distinct : (nodes.map OpNode.output).Nodup) (member : node ∈ nodes) :
    operands nodes node.output = node.inputs := by
  rw [operands, Keyed.find_reverse distinct member]

theorem mem_graphTensors_of_mem_operands {s : GraphTensor} (member : s ∈ operands nodes t) :
    s ∈ graphTensors nodes := by
  unfold operands at member
  split at member
  next producer found =>
    have there := List.mem_reverse.mp (Keyed.mem_of_find found).1
    exact List.mem_flatMap.mpr ⟨producer, there, List.mem_cons_of_mem _ member⟩
  next => cases member

theorem graphRoots_sublist : (graphRoots nodes).Sublist (nodes.map OpNode.output) := by
  unfold graphRoots
  dsimp only
  split
  · exact List.filter_sublist.map _
  · exact List.filter_sublist.map _

/-- The live tensors are those from which a root is computed. -/
theorem mem_liveTensors (distinct : (nodes.map OpNode.output).Nodup) :
    t ∈ liveTensors nodes ↔ ∃ root ∈ graphRoots nodes,
      Relation.ReflTransGen (fun a b => b ∈ operands nodes a) root t := by
  let U := (graphTensors nodes).toFinset
  have closed : ∀ a ∈ U, ∀ b ∈ operands nodes a, b ∈ U := fun a _ b member =>
    List.mem_toFinset.mpr (mem_graphTensors_of_mem_operands member)
  have inside : ∀ root ∈ SortedSet.ofList (graphRoots nodes), root ∈ U := by
    intro root member
    have output := graphRoots_sublist.subset (SortedSet.mem_ofList.mp member)
    obtain ⟨node, there, rfl⟩ := List.mem_map.mp output
    exact List.mem_toFinset.mpr (List.mem_flatMap.mpr ⟨node, there, List.mem_cons_self⟩)
  have open_ : Worklist.Open (operands nodes) U (graphRoots nodes).reverse
      (.ofList (graphRoots nodes)) := by
    refine ⟨inside, fun root member => ?_, fun root member off => ?_⟩
    · exact SortedSet.mem_ofList.mpr (List.mem_reverse.mp member)
    · exact absurd (List.mem_reverse.mpr (SortedSet.mem_ofList.mp member)) off
  -- As many turns as there are tensors: what is stacked first is as much as what is seen.
  have stacked : (graphRoots nodes).reverse.length =
      (SortedSet.ofList (graphRoots nodes)).toList.length := by
    rw [List.length_reverse]
    refine List.Perm.length_eq ((List.perm_ext_iff_of_nodup ?_ (SortedSet.nodup _)).mpr fun root => ?_)
    · exact distinct.sublist graphRoots_sublist
    · exact SortedSet.mem_ofList.symm
  have bound := SortedSet.length_le_card inside
  have turns : U.card ≤ (graphTensors nodes).length := List.toFinset_card_le _
  rw [liveTensors, Worklist.mem_explore closed open_ (by omega)]
  simp only [SortedSet.mem_ofList]

theorem mem_graphRoots (member : node ∈ nodes) (argmax : node.kind = .argmax)
    (token : node.output = .outputToken) : .outputToken ∈ graphRoots nodes := by
  have there : .outputToken ∈ (nodes.filter fun node =>
      node.kind = .argmax ∧ node.output = .outputToken).map OpNode.output :=
    List.mem_map.mpr ⟨node, List.mem_filter.mpr ⟨member, by simp [argmax, token]⟩, token⟩
  unfold graphRoots
  dsimp only
  split
  next empty =>
    rw [List.isEmpty_iff.mp empty] at there
    cases there
  next => exact there

variable (distinct : (nodes.map OpNode.output).Nodup)
include distinct

theorem live_of_root (root : t ∈ graphRoots nodes) : t ∈ liveTensors nodes :=
  (mem_liveTensors distinct).mpr ⟨t, root, .refl⟩

theorem live_of_input (member : node ∈ nodes) (live : node.output ∈ liveTensors nodes)
    (input : t ∈ node.inputs) : t ∈ liveTensors nodes := by
  obtain ⟨root, there, path⟩ := (mem_liveTensors distinct).mp live
  refine (mem_liveTensors distinct).mpr ⟨root, there, path.tail ?_⟩
  rw [operands_of_mem distinct member]
  exact input

end Live

/-! ## Plans in which nothing is dead -/

section Whole

variable {plan : ModelExecutionPlan}

theorem opsIf_sublist {present : Prop} [Decidable present] {nodes : List OpNode} :
    (opsIf present nodes).Sublist nodes := by
  unfold opsIf
  split
  · exact .refl nodes
  · exact List.nil_sublist nodes

theorem mem_opsIf {present : Prop} [Decidable present] {nodes : List OpNode} {node : OpNode} :
    node ∈ opsIf present nodes ↔ present ∧ node ∈ nodes := by
  unfold opsIf
  split
  next yes => simp [yes]
  next no => simp [no]

def layerTensors : List LayerTensor :=
  [LayerTensor.normOut] ++ [LayerTensor.q] ++ [LayerTensor.k] ++ [LayerTensor.v] ++
  [LayerTensor.rope, .attn] ++ [LayerTensor.o] ++ [LayerTensor.postAttn, .postNorm] ++
  [LayerTensor.gate, .silu] ++ [LayerTensor.up] ++ [LayerTensor.mul] ++
  [LayerTensor.down, .output]

theorem outputs_layerNodes (layer : LayerPlan) (index : ℕ) :
    ((layerNodes layer index).map OpNode.output).Sublist
      (layerTensors.map (GraphTensor.layer index)) := by
  simp only [layerNodes, layerTensors, List.map_append]
  repeat' apply List.Sublist.append
  all_goals first
    | exact List.Sublist.refl _
    | exact opsIf_sublist.map OpNode.output

theorem exists_of_mem_layerNodes {layer : LayerPlan} {index : ℕ} {node : OpNode}
    (member : node ∈ layerNodes layer index) : ∃ t, node.output = .layer index t := by
  have output := (outputs_layerNodes layer index).subset (List.mem_map_of_mem member)
  obtain ⟨t, -, same⟩ := List.mem_map.mp output
  exact ⟨t, same.symm⟩

theorem outputs_prologueNodes :
    ((prologueNodes plan).map OpNode.output).Sublist [.embeddingOutput] :=
  opsIf_sublist.map OpNode.output

theorem outputs_epilogueNodes : ((epilogueNodes plan).map OpNode.output).Sublist
    [.finalNormOutput, .outputProjectionOutput, .softcapOutput, .outputToken] := by
  refine (opsIf_sublist.map OpNode.output).trans ?_
  split
  · exact .refl _
  · exact .cons_cons _ (.cons_cons _ (.cons _ (.refl _)))
  · exact .cons_cons _ (.cons _ (.cons _ (.refl _)))

theorem nodup_outputs : ((graphNodes plan).map OpNode.output).Nodup := by
  have layers : ((plan.layers.zipIdx.flatMap fun (layer, i) => layerNodes layer i).map
      OpNode.output).Nodup := by
    rw [List.map_flatMap, List.nodup_flatMap]
    constructor
    · rintro ⟨layer, index⟩ -
      have distinct : (layerTensors.map (GraphTensor.layer index)).Nodup :=
        List.Nodup.map (fun _ _ same => (GraphTensor.layer.inj same).2) (by decide)
      exact distinct.sublist (outputs_layerNodes layer index)
    · have indices : (plan.layers.zipIdx.map Prod.snd).Nodup := by
        rw [List.zipIdx_map_snd]
        exact List.nodup_range' 1
      refine (List.pairwise_map.mp indices).imp fun {a b} apart t first second => ?_
      obtain ⟨node, member, rfl⟩ := List.mem_map.mp first
      obtain ⟨node', member', same⟩ := List.mem_map.mp second
      obtain ⟨s, output⟩ := exists_of_mem_layerNodes member
      obtain ⟨s', output'⟩ := exists_of_mem_layerNodes member'
      rw [output, output'] at same
      exact apart (GraphTensor.layer.inj same).1.symm
  -- what a layer puts out is told apart from what comes before and after the layers
  have global : ∀ t ∈ (plan.layers.zipIdx.flatMap fun (layer, i) => layerNodes layer i).map
      OpNode.output, ∃ index s, t = .layer index s := by
    intro t member
    obtain ⟨node, there, rfl⟩ := List.mem_map.mp member
    obtain ⟨⟨layer, index⟩, -, there⟩ := List.mem_flatMap.mp there
    exact ⟨index, exists_of_mem_layerNodes there⟩
  rw [graphNodes, List.map_append, List.map_append, List.nodup_append, List.nodup_append]
  have first := fun t => @outputs_prologueNodes plan |>.subset (a := t)
  have last := fun t => @outputs_epilogueNodes plan |>.subset (a := t)
  refine ⟨⟨outputs_prologueNodes.nodup (by decide), layers, ?_⟩,
    outputs_epilogueNodes.nodup (by decide), ?_⟩
  · rintro s atStart t atLayer rfl
    obtain ⟨index, t, rfl⟩ := global _ atLayer
    simpa using first _ atStart
  · rintro s before t atEnd rfl
    have ending := last _ atEnd
    rcases List.mem_append.mp before with atStart | atLayer
    · have starting := first _ atStart
      rw [List.mem_singleton] at starting
      subst starting
      simp at ending
    · obtain ⟨index, t, rfl⟩ := global _ atLayer
      simp at ending

/-- A layer with every projection but that of the values, which full attention shares. -/
structure LayerPlan.HasProjections (plan : LayerPlan) : Prop where
  q : plan.qProjTensorId ≠ 0
  k : plan.kProjTensorId ≠ 0
  o : plan.oProjTensorId ≠ 0
  gate : plan.gateProjTensorId ≠ 0
  up : plan.upProjTensorId ≠ 0
  down : plan.downProjTensorId ≠ 0

variable {layer : LayerPlan} {index : ℕ}

theorem mem_graphNodes_of_layer (there : plan.layers[index]? = some layer) {node : OpNode}
    (member : node ∈ layerNodes layer index) : node ∈ graphNodes plan := by
  have inLayers : node ∈ plan.layers.zipIdx.flatMap fun (layer, i) => layerNodes layer i :=
    List.mem_flatMap.mpr ⟨(layer, index), List.mem_zipIdx_iff_getElem?.mpr there, member⟩
  exact List.mem_append_left _ (List.mem_append_right _ inLayers)

/-- Where the output of a whole layer is live, so is all that it computes, and what it starts
from. -/
theorem live_layer (there : plan.layers[index]? = some layer) (whole : layer.HasProjections)
    (live : .layer index .output ∈ liveTensors (graphNodes plan)) :
    (∀ node ∈ layerNodes layer index, node.output ∈ liveTensors (graphNodes plan)) ∧
      residualIn index ∈ liveTensors (graphNodes plan) := by
  obtain ⟨hasQ, hasK, hasO, hasGate, hasUp, hasDown⟩ := whole
  let out := GraphTensor.layer index
  have reads : ∀ kind inputs t, ⟨kind, some index, inputs, out t⟩ ∈ layerNodes layer index →
      out t ∈ liveTensors (graphNodes plan) → ∀ s ∈ inputs, s ∈ liveTensors (graphNodes plan) :=
    fun kind inputs t member live s input =>
      live_of_input nodup_outputs (mem_graphNodes_of_layer there member) live input
  -- Backwards through the feed-forward half.
  have output := reads .residualAdd [out .postAttn, out .down] .output
    (by simp [layerNodes, mem_opsIf, hasDown, out]) live
  have postAttn := output _ (.head _)
  have down := output _ (.tail _ (.head _))
  have mul := reads .downProj [out .mul] .down
    (by simp [layerNodes, mem_opsIf, hasDown, hasGate, out]) down _ (.head _)
  have products := reads .gateTimesUp [out .silu, out .up] .mul
    (by simp [layerNodes, mem_opsIf, hasGate, hasUp, out]) mul
  have silu := products _ (.head _)
  have up := products _ (.tail _ (.head _))
  have gate := reads .silu [out .gate] .silu
    (by simp [layerNodes, mem_opsIf, hasGate, out]) silu _ (.head _)
  have postNorm := reads .gateProj [out .postNorm] .gate
    (by simp [layerNodes, mem_opsIf, hasGate, out]) gate _ (.head _)
  -- Backwards through the attention half.
  have sum := reads .residualAdd [residualIn index, out .o] .postAttn
    (by simp [layerNodes, mem_opsIf, hasO, out]) postAttn
  have residual := sum _ (.head _)
  have o := sum _ (.tail _ (.head _))
  have attn := reads .oProj [out .attn] .o (by simp [layerNodes, mem_opsIf, hasO, out]) o _ (.head _)
  have attention := reads .attention (if layer.vProjTensorId ≠ 0 then
      [out .q, out .k, out .v, out .rope] else [out .q, out .k, out .rope]) .attn
    (by simp [layerNodes, mem_opsIf, out]) attn
  have q := attention (out .q) (by split <;> simp)
  have k := attention (out .k) (by split <;> simp)
  have rope := attention (out .rope) (by split <;> simp)
  have v : layer.vProjTensorId ≠ 0 → out .v ∈ liveTensors (graphNodes plan) := by
    intro hasV
    apply attention
    simp [hasV]
  have normOut := reads .qProj [out .normOut] .q
    (by simp [layerNodes, mem_opsIf, hasQ, out]) q _ (.head _)
  refine ⟨fun node member => ?_, residual⟩
  simp only [layerNodes, List.mem_append, mem_opsIf, List.mem_cons, List.not_mem_nil,
    or_false, or_assoc] at member
  rcases member with rfl | ⟨-, rfl⟩ | ⟨-, rfl⟩ | ⟨hasV, rfl⟩ | rfl | rfl | ⟨-, rfl⟩ | rfl | rfl |
    ⟨-, rfl | rfl⟩ | ⟨-, rfl⟩ | ⟨-, rfl⟩ | ⟨-, rfl | rfl⟩
  exacts [normOut, q, k, v hasV, rope, attn, o, postAttn, postNorm, gate, silu, up, mul, down, live]

theorem live_epilogue (norm : plan.epilogue.finalNormTensorId ≠ 0) :
    (∀ node ∈ epilogueNodes plan, node.output ∈ liveTensors (graphNodes plan)) ∧
      residualIn plan.layers.length ∈ liveTensors (graphNodes plan) := by
  have reads : ∀ kind inputs t, globalOp kind inputs t ∈ epilogueNodes plan →
      t ∈ liveTensors (graphNodes plan) → ∀ s ∈ inputs, s ∈ liveTensors (graphNodes plan) :=
    fun kind inputs t member live s input =>
      live_of_input nodup_outputs (List.mem_append_right _ member) live input
  have token : ∀ input, globalOp .argmax [input] .outputToken ∈ epilogueNodes plan →
      .outputToken ∈ liveTensors (graphNodes plan) ∧ input ∈ liveTensors (graphNodes plan) := by
    intro input member
    have live := live_of_root nodup_outputs (mem_graphRoots (List.mem_append_right _ member) rfl rfl)
    exact ⟨live, reads .argmax [input] .outputToken member live _ (.head _)⟩
  unfold epilogueNodes at reads token ⊢
  simp only [opsIf, if_pos norm, List.cons_append, List.nil_append] at reads token ⊢
  split at reads
  next projection softcap =>
    simp only [projection, softcap] at token ⊢
    obtain ⟨last, capped⟩ := token .softcapOutput (by simp)
    have logits := reads .softcap [.outputProjectionOutput] _ (by simp) capped _ (.head _)
    have normed := reads .outputProjection [.finalNormOutput] _ (by simp) logits _ (.head _)
    have start := reads .finalNorm [residualIn plan.layers.length] _ (by simp) normed _ (.head _)
    simp [globalOp, last, capped, logits, normed, start]
  next projection softcap =>
    simp only [projection, softcap] at token ⊢
    obtain ⟨last, logits⟩ := token .outputProjectionOutput (by simp)
    have normed := reads .outputProjection [.finalNormOutput] _ (by simp) logits _ (.head _)
    have start := reads .finalNorm [residualIn plan.layers.length] _ (by simp) normed _ (.head _)
    simp [globalOp, last, logits, normed, start]
  next projection =>
    simp only [projection] at token ⊢
    obtain ⟨last, normed⟩ := token .finalNormOutput (by simp)
    have start := reads .finalNorm [residualIn plan.layers.length] _ (by simp) normed _ (.head _)
    simp [globalOp, last, normed, start]

/-- Backwards from the end, what every layer starts from is live. -/
theorem live_residualIn (norm : plan.epilogue.finalNormTensorId ≠ 0)
    (whole : ∀ layer ∈ plan.layers, layer.HasProjections) (early : index ≤ plan.layers.length) :
    residualIn index ∈ liveTensors (graphNodes plan) := by
  induction early using Nat.decreasingInduction with
  | self => exact (live_epilogue norm).2
  | of_succ index early ih =>
    have there := List.getElem?_eq_getElem early
    exact (live_layer there (whole _ (List.getElem_mem early)) ih).2

theorem deadNodes_eq_nil (norm : plan.epilogue.finalNormTensorId ≠ 0)
    (whole : ∀ layer ∈ plan.layers, layer.HasProjections) : deadNodes (graphNodes plan) = [] := by
  rw [deadNodes, List.filter_eq_nil_iff]
  intro node member
  simp only [decide_not, Bool.not_eq_eq_eq_not, Bool.not_true, decide_eq_false_iff_not, not_not]
  rcases List.mem_append.mp member with before | atEnd
  · rcases List.mem_append.mp before with atStart | inLayers
    · obtain ⟨-, here⟩ := mem_opsIf.mp atStart
      obtain rfl := List.mem_singleton.mp here
      exact live_residualIn norm whole (Nat.zero_le _)
    · obtain ⟨⟨layer, index⟩, there, inLayer⟩ := List.mem_flatMap.mp inLayers
      have there := List.mem_zipIdx_iff_getElem?.mp there
      obtain ⟨early, -⟩ := List.getElem?_eq_some_iff.mp there
      have next := live_residualIn norm whole (Nat.succ_le_of_lt early)
      exact (live_layer there (whole _ (List.mem_of_getElem? there)) next).1 node inLayer
  · exact (live_epilogue norm).1 node atEnd

/-- A plan that lacks no projection is left as it is, but for its annotations. -/
theorem optimize_of_whole (norm : plan.epilogue.finalNormTensorId ≠ 0)
    (whole : ∀ layer ∈ plan.layers, layer.HasProjections) {plan' : ModelExecutionPlan}
    (ok : plan.optimize = .ok plan') :
    plan' = { plan with layers := plan.layers.map LayerPlan.withoutShapes } := by
  obtain ⟨nodes, built, done⟩ := bind_ok_iff.mp ok
  obtain ⟨_, -, built⟩ := bind_ok_iff.mp built
  obtain ⟨_, -, built⟩ := bind_ok_iff.mp built
  obtain rfl := pure_ok_iff.mp built
  rw [deadNodes_eq_nil norm whole] at done
  exact (pure_ok_iff.mp done).symm

end Whole

end TribunusCompute.ComputeImage
