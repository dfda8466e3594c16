import TribunusCompute.ComputeImage.DeadCode

/-!
# Constant folding

The pass starts from the prompt as a constant, and marks what is computed from constants alone.
What it marks is therefore computed from the prompt, and it marks something wherever the plan has
an embedding.
-/
namespace TribunusCompute.ComputeImage

/-! ## The pass -/

def LayerTensor.name : LayerTensor → String
  | .normOut => "norm_out"
  | .q => "q"
  | .k => "k"
  | .v => "v"
  | .rope => "rope"
  | .attn => "attn"
  | .o => "o"
  | .postAttn => "post_attn"
  | .postNorm => "post_norm"
  | .gate => "gate"
  | .silu => "silu"
  | .up => "up"
  | .mul => "mul"
  | .down => "down"
  | .output => "output"

def GraphTensor.name : GraphTensor → String
  | .inputIds => "input_ids"
  | .embeddingOutput => "embedding_output"
  | .finalNormOutput => "final_norm_output"
  | .outputProjectionOutput => "output_projection_output"
  | .softcapOutput => "softcap_output"
  | .outputToken => "output_token"
  | .layer index tensor => "layer_" ++ toString index ++ "_" ++ tensor.name

def constantInput (constants : List GraphTensor) (input : GraphTensor) : Bool :=
  input = .inputIds || startsWith "constant_" input.name || input ∈ constants

/-- One turn of the fixpoint loop: the marked operations, the constants, and whether an operation
was marked. No operation is dead yet. -/
def foldPass : List (OpNode × Bool) → List GraphTensor →
    List (OpNode × Bool) × List GraphTensor × Bool
  | [], constants => ([], constants, false)
  | (node, isConstant) :: nodes, constants =>
    if isConstant then
      let (nodes, constants, changed) := foldPass nodes constants
      ((node, true) :: nodes, constants, changed)
    else if node.inputs.all (constantInput constants) && !node.inputs.isEmpty then
      let (nodes, constants, _) := foldPass nodes (node.output :: constants)
      ((node, true) :: nodes, constants, true)
    else
      let (nodes, constants, changed) := foldPass nodes constants
      ((node, false) :: nodes, constants, changed)

/-- The loop, for at most the given turns. -/
def foldConstants : ℕ → List (OpNode × Bool) → List GraphTensor → List (OpNode × Bool)
  | 0, nodes, _ => nodes
  | turns + 1, nodes, constants =>
    match foldPass nodes constants with
    | (nodes, constants, true) => foldConstants turns nodes constants
    | (nodes, _, false) => nodes

/-- The operations and whether they are constant. Each turn but the last marks an operation. -/
def runConstantFolding (nodes : List OpNode) : List (OpNode × Bool) :=
  foldConstants (nodes.length + 1) (nodes.map (·, false)) [.inputIds]

/-- A backward path leads from the operation to the prompt. -/
def ReadsPrompt (nodes : List OpNode) (node : OpNode) : Prop :=
  ∃ input ∈ node.inputs, Relation.ReflTransGen (Reads nodes) input .inputIds

/-! ## The loop ends -/

variable {nodes : List (OpNode × Bool)} {constants : List GraphTensor} {node : OpNode}

def unmarked (nodes : List (OpNode × Bool)) : ℕ := nodes.countP fun entry => !entry.2

/-- A turn that changes something leaves fewer operations unmarked, and one that does not changes
nothing. -/
theorem foldPass_spec (nodes : List (OpNode × Bool)) (constants : List GraphTensor) :
    (foldPass nodes constants).1.map Prod.fst = nodes.map Prod.fst ∧
      ((foldPass nodes constants).2.2 = true →
        unmarked (foldPass nodes constants).1 < unmarked nodes) ∧
      unmarked (foldPass nodes constants).1 ≤ unmarked nodes := by
  induction nodes generalizing constants with
  | nil => simp [foldPass]
  | cons entry nodes ih =>
    obtain ⟨node, isConstant⟩ := entry
    rw [foldPass]
    split
    next marked =>
      -- an operation that is marked counts neither before nor after
      obtain ⟨same, fewer, most⟩ := ih constants
      refine ⟨by simpa using same, ?_, ?_⟩
      · simpa [unmarked, marked] using fewer
      · simpa [unmarked, marked] using most
    next free =>
      split
      next =>
        -- an operation that is marked now counts before and not after
        obtain ⟨same, -, most⟩ := ih (node.output :: constants)
        refine ⟨by simpa using same, fun _ => ?_, ?_⟩
        · simpa [unmarked, free, Nat.lt_succ_iff] using most
        · simp only [unmarked, List.countP_cons, free] at most ⊢
          simp
          omega
      next =>
        obtain ⟨same, fewer, most⟩ := ih constants
        refine ⟨by simpa using same, ?_, ?_⟩
        · simpa [unmarked, free] using fewer
        · simpa [unmarked, free] using most

/-- The loop has turns enough: more of them do not matter. -/
theorem foldConstants_add {turns : ℕ} (enough : unmarked nodes < turns) (more : ℕ) :
    foldConstants (turns + more) nodes constants = foldConstants turns nodes constants := by
  induction turns generalizing nodes constants with
  | zero => omega
  | succ turns ih =>
    rw [Nat.succ_add, foldConstants, foldConstants]
    have fewer := (foldPass_spec nodes constants).2.1
    split
    next folded =>
      rw [folded] at fewer
      exact ih (by have := fewer rfl; dsimp only at this; omega)
    next => rfl

/-! ## What is marked -/

theorem startsWith_name (t : GraphTensor) : startsWith "constant_" t.name = false := by
  cases t with
  | layer index tensor => simp [startsWith, GraphTensor.name, List.isPrefixOf]
  | _ => decide

/-- Constants are computed from the prompt, and so is what is marked. -/
structure FromPrompt (graph : List OpNode) (nodes : List (OpNode × Bool))
    (constants : List GraphTensor) : Prop where
  known : ∀ entry ∈ nodes, entry.1 ∈ graph
  constants : ∀ t ∈ constants, Relation.ReflTransGen (Reads graph) t .inputIds
  marked : ∀ entry ∈ nodes, entry.2 = true → ReadsPrompt graph entry.1

theorem reads_of_constantInput {graph : List OpNode} {t : GraphTensor}
    (sound : ∀ t ∈ constants, Relation.ReflTransGen (Reads graph) t .inputIds)
    (constant : constantInput constants t = true) :
    Relation.ReflTransGen (Reads graph) t .inputIds := by
  simp only [constantInput, startsWith_name, Bool.or_false, Bool.or_eq_true,
    decide_eq_true_eq] at constant
  rcases constant with rfl | member
  · exact .refl
  · exact sound t member

/-- A turn keeps that, and the constants that there are. -/
theorem FromPrompt.foldPass {graph : List OpNode} (sound : FromPrompt graph nodes constants) :
    FromPrompt graph (foldPass nodes constants).1 (foldPass nodes constants).2.1 := by
  induction nodes generalizing constants with
  | nil => exact sound
  | cons entry nodes ih =>
    obtain ⟨node, isConstant⟩ := entry
    have known : ∀ entry ∈ nodes, entry.1 ∈ graph := fun entry member =>
      sound.known entry (List.mem_cons_of_mem _ member)
    have marked : ∀ entry ∈ nodes, entry.2 = true → ReadsPrompt graph entry.1 :=
      fun entry member => sound.marked entry (List.mem_cons_of_mem _ member)
    have here : node ∈ graph := sound.known _ List.mem_cons_self
    have rest := ih ⟨known, sound.constants, marked⟩
    rw [ComputeImage.foldPass]
    split
    next before =>
      have already : ReadsPrompt graph node := sound.marked _ List.mem_cons_self before
      refine ⟨?_, rest.constants, ?_⟩
      · simpa only [List.forall_mem_cons] using ⟨here, rest.known⟩
      · simpa only [List.forall_mem_cons] using ⟨fun _ => already, rest.marked⟩
    next =>
      split
      next now =>
        simp only [Bool.and_eq_true, List.all_eq_true, Bool.not_eq_eq_eq_not, Bool.not_true,
          List.isEmpty_eq_false_iff_exists_mem] at now
        obtain ⟨all, input, member⟩ := now
        -- some input is there, and it is constant, so that the operation reads the prompt
        have path := reads_of_constantInput sound.constants (all input member)
        have reads : ReadsPrompt graph node := ⟨input, member, path⟩
        have output : Relation.ReflTransGen (Reads graph) node.output .inputIds :=
          .head ⟨node, here, rfl, member⟩ path
        have sound' : FromPrompt graph nodes (node.output :: constants) :=
          ⟨known, by simpa only [List.forall_mem_cons] using ⟨output, sound.constants⟩, marked⟩
        have rest' := ih sound'
        refine ⟨?_, rest'.constants, ?_⟩
        · simpa only [List.forall_mem_cons] using ⟨here, rest'.known⟩
        · simpa only [List.forall_mem_cons] using ⟨fun _ => reads, rest'.marked⟩
      next =>
        refine ⟨?_, rest.constants, ?_⟩
        · simpa only [List.forall_mem_cons] using ⟨here, rest.known⟩
        · simpa only [List.forall_mem_cons] using ⟨by simp, rest.marked⟩

theorem FromPrompt.foldConstants {graph : List OpNode} (turns : ℕ)
    (sound : FromPrompt graph nodes constants) :
    ∀ entry ∈ foldConstants turns nodes constants,
      entry.1 ∈ graph ∧ (entry.2 = true → ReadsPrompt graph entry.1) := by
  induction turns generalizing nodes constants with
  | zero => exact fun entry member => ⟨sound.known entry member, sound.marked entry member⟩
  | succ turns ih =>
    have next := sound.foldPass
    rw [ComputeImage.foldConstants]
    split
    next folded =>
      rw [folded] at next
      exact ih next
    next folded =>
      rw [folded] at next
      exact fun entry member => ⟨next.known entry member, next.marked entry member⟩

/-- Every operation that is marked is one of the graph that reads the prompt. -/
theorem readsPrompt_of_marked {graph : List OpNode}
    (marked : (node, true) ∈ runConstantFolding graph) :
    node ∈ graph ∧ ReadsPrompt graph node := by
  have start : FromPrompt graph (graph.map (·, false)) [.inputIds] := by
    refine ⟨?_, by simpa using Relation.ReflTransGen.refl, ?_⟩
    · intro entry member
      obtain ⟨node, there, rfl⟩ := List.mem_map.mp member
      exact there
    · intro entry member
      obtain ⟨node, there, rfl⟩ := List.mem_map.mp member
      simp
  obtain ⟨member, reads⟩ := start.foldConstants _ _ marked
  exact ⟨member, reads rfl⟩

theorem mem_foldPass {isConstant : Bool} (member : (node, isConstant) ∈ nodes)
    (prompt : isConstant = true ∨ node.inputs = [.inputIds]) :
    (node, true) ∈ (foldPass nodes constants).1 := by
  induction nodes generalizing constants with
  | nil => cases member
  | cons entry nodes ih =>
    rcases List.mem_cons.mp member with rfl | later
    · rw [foldPass]
      split
      next => exact List.mem_cons_self
      next free =>
        -- the prompt is a constant from the start
        have inputs := prompt.resolve_left free
        rw [if_pos (by simp [inputs, constantInput])]
        exact List.mem_cons_self
    · obtain ⟨first, mark⟩ := entry
      rw [foldPass]
      split
      · exact List.mem_cons_of_mem _ (ih later)
      · split <;> exact List.mem_cons_of_mem _ (ih later)

theorem mem_foldConstants {turns : ℕ} (member : (node, true) ∈ nodes) :
    (node, true) ∈ foldConstants turns nodes constants := by
  induction turns generalizing nodes constants with
  | zero => exact member
  | succ turns ih =>
    have next : (node, true) ∈ (foldPass nodes constants).1 := mem_foldPass member (.inl rfl)
    rw [foldConstants]
    split
    next folded =>
      rw [folded] at next
      exact ih next
    next folded =>
      rw [folded] at next
      exact next

theorem marked_of_inputs {graph : List OpNode} (member : node ∈ graph)
    (prompt : node.inputs = [.inputIds]) : (node, true) ∈ runConstantFolding graph := by
  have entry : (node, false) ∈ graph.map (·, false) := List.mem_map.mpr ⟨node, member, rfl⟩
  have next : (node, true) ∈ (foldPass (graph.map (·, false)) [.inputIds]).1 :=
    mem_foldPass entry (.inr prompt)
  rw [runConstantFolding, foldConstants]
  split
  next folded =>
    rw [folded] at next
    exact mem_foldConstants next
  next folded =>
    rw [folded] at next
    exact next

theorem embedding_of_reads {plan : ModelExecutionPlan} (member : node ∈ graphNodes plan)
    (reads : .inputIds ∈ node.inputs) : plan.prologue.embeddingTensorId ≠ 0 := by
  rcases mem_graphNodes_iff.mp member with atStart | ⟨index, layer, -, inLayer⟩ | atEnd
  · exact (mem_opsIf.mp atStart).1
  · -- the operations of a layer read its tensors, and the first of them the output before it
    have start : residualIn index ≠ .inputIds := by cases index <;> simp [residualIn]
    simp only [layerNodes, List.mem_append, mem_opsIf, List.mem_cons, List.not_mem_nil,
      or_false, or_assoc] at inLayer
    rcases inLayer with rfl | ⟨-, rfl⟩ | ⟨-, rfl⟩ | ⟨-, rfl⟩ | rfl | rfl | ⟨-, rfl⟩ | rfl | rfl |
      ⟨-, rfl | rfl⟩ | ⟨-, rfl⟩ | ⟨-, rfl⟩ | ⟨-, rfl | rfl⟩ <;>
      simp [start.symm] at reads <;> split at reads <;> simp at reads
  · have last : residualIn plan.layers.length ≠ .inputIds := by
      cases plan.layers.length <;> simp [residualIn]
    obtain ⟨-, there⟩ := mem_opsIf.mp atEnd
    rcases List.mem_append.mp there with norm | rest
    · obtain rfl := List.mem_singleton.mp norm
      simp [globalOp, last.symm] at reads
    · split at rest <;> simp only [List.mem_cons, List.not_mem_nil, or_false] at rest <;>
        rcases rest with rfl | rfl | rfl <;> simp [globalOp] at reads

/-- Constant folding marks no operation that reads the prompt exactly where the plan has no
embedding. -/
theorem folding_sound_iff (plan : ModelExecutionPlan) :
    (∀ node, (node, true) ∈ runConstantFolding (graphNodes plan) →
      ¬ReadsPrompt (graphNodes plan) node) ↔ plan.prologue.embeddingTensorId = 0 := by
  constructor
  · intro sound
    by_contra has
    have member : globalOp .embeddingLookup [.inputIds] .embeddingOutput ∈ graphNodes plan :=
      mem_graphNodes_iff.mpr (.inl (mem_opsIf.mpr ⟨has, List.mem_singleton.mpr rfl⟩))
    exact sound _ (marked_of_inputs member rfl) ⟨.inputIds, List.mem_singleton.mpr rfl, .refl⟩
  · rintro none node marked ⟨input, reads, path⟩
    have member := (readsPrompt_of_marked marked).1
    -- the last operation of the path reads the prompt
    rcases Relation.ReflTransGen.cases_tail path with here | ⟨_, -, last, there, -, prompt⟩
    · exact embedding_of_reads member (here ▸ reads) none
    · exact embedding_of_reads there prompt none

/-- A plan of an embedding alone, whose operation is marked. -/
theorem embedding_folded :
    let plan : ModelExecutionPlan := { ModelExecutionPlan.default with
      prologue := ⟨"prologue", 1, "embedding", [], "metal"⟩ }
    ¬∀ node, (node, true) ∈ runConstantFolding (graphNodes plan) →
      ¬ReadsPrompt (graphNodes plan) node := by
  intro plan sound
  have member : globalOp .embeddingLookup [.inputIds] .embeddingOutput ∈ graphNodes plan :=
    List.mem_singleton.mpr rfl
  exact sound _ (marked_of_inputs member rfl) ⟨.inputIds, List.mem_singleton.mpr rfl, .refl⟩

end TribunusCompute.ComputeImage
