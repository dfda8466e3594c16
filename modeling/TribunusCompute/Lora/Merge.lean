import Mathlib.Data.List.AList
import TribunusCompute.Library.Tensor

/-!
# LoRA adapters, merged and applied on the fly

`lora.rs`. `merge` adds `A @ B` to a weight of shape `[out, in]` as it is, for each of the seven
projections and as often as a layer and a module are listed. The forward pass adds
`(x @ A) @ B` to `x @ W.T`, once, for the projections of the attention's inputs only. `none`
stands for a panic.
-/
namespace TribunusCompute.Lora

inductive Projection
  | q
  | k
  | v
  | o
  | gate
  | up
  | down
  deriving DecidableEq, Repr

def Projection.name : Projection → String
  | .q => "q_proj"
  | .k => "k_proj"
  | .v => "v_proj"
  | .o => "o_proj"
  | .gate => "gate_proj"
  | .up => "up_proj"
  | .down => "down_proj"

/-- The projection that `get_weight_mut` finds by its name. -/
def Projection.ofName? : String → Option Projection
  | "q_proj" => some .q
  | "k_proj" => some .k
  | "v_proj" => some .v
  | "o_proj" => some .o
  | "gate_proj" => some .gate
  | "up_proj" => some .up
  | "down_proj" => some .down
  | _ => none

def Projection.adapted : Projection → Bool
  | .q | .k | .v => true
  | .o | .gate | .up | .down => false

theorem Projection.ofName?_eq_some_iff {module : String} {p : Projection} :
    Projection.ofName? module = some p ↔ module = p.name := by
  constructor
  · intro found
    unfold Projection.ofName? at found
    split at found <;> cases found <;> rfl
  · rintro rfl
    cases p <;> rfl

/-- The weights of a layer that the pass reads; those of the projections have shape
`[out, in]`. -/
structure LayerWeights (R : Type) where
  inputLayernorm : Tensor R
  postAttentionLayernorm : Tensor R
  proj : Projection → Tensor R

/-- The loader makes a layer for each of the execution plan. -/
structure LoadedProfiledModel (R : Type) where
  layers : List (LayerWeights R)
  embW : Tensor R
  fnW : Tensor R
  /-- The bits of `rms_norm_eps`. -/
  rmsNormEps : UInt64

/-- `alpha` by its bits. -/
structure LoraAdapter (R : Type) where
  name : String
  rank : UInt32
  alpha : UInt32
  targetLayers : List ℕ
  targetModules : List String
  loraA : AList fun _ : String => Tensor R
  loraB : AList fun _ : String => Tensor R

/-- The operations of the pass other than sums, products and transposes of matrices. The quotient
of `alpha` and `rank` is none of them: merge and pass share it. -/
structure Operations (R Input : Type) where
  embedLookup : Tensor R → Input → Option (Tensor R)
  rmsNorm : Tensor R → Tensor R → UInt64 → Option (Tensor R)
  simplifiedAttention : Tensor R → Tensor R → Tensor R → Option (Tensor R)
  silu : Tensor R → Option (Tensor R)
  multiply : Tensor R → Tensor R → Option (Tensor R)

def LoraAdapter.new {R : Type} (name : String) (rank alpha : UInt32) : LoraAdapter R :=
  ⟨name, rank, alpha, [], [], ∅, ∅⟩

def weightKey (layerIdx : ℕ) (module : String) : String :=
  toString layerIdx ++ "_" ++ module ++ "_weight"

variable {R Input : Type} [CommRing R]

def LoraAdapter.matrices? (adapter : LoraAdapter R) (layerIdx : ℕ) (module : String) :
    Option (Tensor R × Tensor R) :=
  match adapter.loraA.lookup (weightKey layerIdx module) with
  | none => none
  | some a => (adapter.loraB.lookup (weightKey layerIdx module)).map fun b => (a, b)

section
variable (quotient : UInt32 → UInt32 → R)

/-! ## The merge -/

/-- One module of a layer: the matrices' product, times the scale, on top of the weight. -/
def mergeModule (adapter : LoraAdapter R) (layerIdx : ℕ) (lw : LayerWeights R)
    (module : String) : Option (LayerWeights R) :=
  match adapter.matrices? layerIdx module with
  | none => some lw
  | some (loraA, loraB) => do
    let ab ← loraA.matmul loraB
    let delta := ab.scale (quotient adapter.alpha adapter.rank)
    let p ← Projection.ofName? module
    let merged ← (lw.proj p).add delta
    some { lw with proj := Function.update lw.proj p merged }

def mergeLayer (adapter : LoraAdapter R) (layers : List (LayerWeights R)) (layerIdx : ℕ) :
    Option (List (LayerWeights R)) := do
  let lw ← layers[layerIdx]?
  let lw ← adapter.targetModules.foldlM (mergeModule quotient adapter layerIdx) lw
  some (layers.set layerIdx lw)

def LoraAdapter.layers (adapter : LoraAdapter R) (count : ℕ) : List ℕ :=
  if adapter.targetLayers.isEmpty then List.range count else adapter.targetLayers

def merge (adapter : LoraAdapter R) (model : LoadedProfiledModel R) :
    Option (LoadedProfiledModel R) :=
  if adapter.loraA.keys.isEmpty then some model
  else do
    let layers ← (adapter.layers model.layers.length).foldlM (mergeLayer quotient adapter)
      model.layers
    some { model with layers }

/-! ## The forward pass -/

/-- `x @ w.T`. -/
def matmul (x w : Tensor R) : Option (Tensor R) := x.matmul w.transpose

/-- `(x @ A) @ B * (alpha / rank)`. -/
def matmulLora (x loraA loraB : Tensor R) (scale : R) : Option (Tensor R) := do
  let aOut ← x.matmul loraA
  let bOut ← aOut.matmul loraB
  some (bOut.scale scale)

def applyLoraIfNeeded (adapter : LoraAdapter R) (isTarget : Bool) (layerIdx : ℕ)
    (module : String) (normed baseOut : Tensor R) : Option (Tensor R) :=
  if isTarget = true ∧ module ∈ adapter.targetModules then
    match adapter.matrices? layerIdx module with
    | none => some baseOut
    | some (loraA, loraB) => do
      let delta ← matmulLora normed loraA loraB (quotient adapter.alpha adapter.rank)
      baseOut.add delta
  else some baseOut

def project (adapter : LoraAdapter R) (isTarget : Bool) (layerIdx : ℕ) (lw : LayerWeights R)
    (p : Projection) (normed : Tensor R) : Option (Tensor R) := do
  let baseOut ← matmul normed (lw.proj p)
  applyLoraIfNeeded quotient adapter isTarget layerIdx p.name normed baseOut

variable (ops : Operations R Input)

def forwardLayer (model : LoadedProfiledModel R) (adapter : LoraAdapter R) (h : Tensor R)
    (l : ℕ) : Option (Tensor R) := do
  let lw ← model.layers[l]?
  let isTarget := adapter.targetLayers.isEmpty || adapter.targetLayers.contains l
  let normed ← ops.rmsNorm h lw.inputLayernorm model.rmsNormEps
  let q ← project quotient adapter isTarget l lw .q normed
  let k ← project quotient adapter isTarget l lw .k normed
  let v ← project quotient adapter isTarget l lw .v normed
  let attnOut ← ops.simplifiedAttention q k v
  let attnOut ← matmul attnOut (lw.proj .o)
  let h ← h.add attnOut
  let normed ← ops.rmsNorm h lw.postAttentionLayernorm model.rmsNormEps
  let gate ← matmul normed (lw.proj .gate)
  let up ← matmul normed (lw.proj .up)
  let gateSilu ← ops.silu gate
  let downIn ← ops.multiply gateSilu up
  let mlpOut ← matmul downIn (lw.proj .down)
  h.add mlpOut

def forward (model : LoadedProfiledModel R) (adapter : LoraAdapter R) (input : Input) :
    Option (Tensor R) := do
  let h ← ops.embedLookup model.embW input
  let h ← (List.range model.layers.length).foldlM (forwardLayer quotient ops model adapter) h
  let h ← ops.rmsNorm h model.fnW model.rmsNormEps
  h.matmul model.embW

structure SharedWeightTable (R : Type) where
  base : LoadedProfiledModel R
  adapters : AList fun _ : String => LoraAdapter R

def forwardWithAdapter (table : SharedWeightTable R) (input : Input) (adapterName : String) :
    Option (Except String (Tensor R)) :=
  match table.adapters.lookup adapterName with
  | none => some (.error ("adapter '" ++ adapterName ++ "' not found"))
  | some adapter => (forward quotient ops table.base adapter input).map .ok

/-! ## When both agree -/

/-- The update of a projection: `A @ B * (alpha / rank)`, of shape `[in, out]`. -/
def LoraAdapter.delta? (adapter : LoraAdapter R) (layerIdx : ℕ) (p : Projection) :
    Option (Tensor R) :=
  (adapter.matrices? layerIdx p.name).bind fun matrices =>
    (matrices.1.matmul matrices.2).map (Tensor.scale (quotient adapter.alpha adapter.rank))

def LoraAdapter.times (adapter : LoraAdapter R) (count l : ℕ) (p : Projection) : ℕ :=
  (adapter.layers count).count l * adapter.targetModules.count p.name

/-- The weight and the update are square, of one size, and what is added to the weight in all is
what the forward pass applies, if it applies the update at all. -/
def UpdateAgrees (adapter : LoraAdapter R) (model : LoadedProfiledModel R) (l : ℕ)
    (lw : LayerWeights R) (p : Projection) : Prop :=
  ∃ (m : ℕ) (weight update : Matrix (Fin m) (Fin m) R),
    lw.proj p = ⟨m, m, weight⟩ ∧ adapter.delta? quotient l p = some ⟨m, m, update⟩ ∧
    adapter.times model.layers.length l p • update = if p.adapted then update.transpose else 0

/-- The adapter names layers and projections that exist, and its updates agree. -/
structure MergeAgrees (adapter : LoraAdapter R) (model : LoadedProfiledModel R) : Prop where
  inRange : ∀ l ∈ adapter.layers model.layers.length, l < model.layers.length
  known : ∀ l ∈ adapter.layers model.layers.length, ∀ module ∈ adapter.targetModules,
    (adapter.matrices? l module).isSome = true → ∃ p : Projection, module = p.name
  agrees : ∀ (l : ℕ) (lw : LayerWeights R) (p : Projection), model.layers[l]? = some lw →
    l ∈ adapter.layers model.layers.length → p.name ∈ adapter.targetModules →
    (adapter.matrices? l p.name).isSome = true → UpdateAgrees quotient adapter model l lw p

/-! ## What the merge adds -/

/-- The layer with each update added so many times. -/
def LayerWeights.plus (lw : LayerWeights R) (adapter : LoraAdapter R) (l : ℕ)
    (times : Projection → ℕ) : LayerWeights R :=
  { lw with
    proj := fun p =>
      match adapter.delta? quotient l p with
      | none => lw.proj p
      | some delta => (lw.proj p).plusTimes delta (times p) }

variable {quotient} {adapter : LoraAdapter R} {l : ℕ} {lw : LayerWeights R}

theorem plus_zero : lw.plus quotient adapter l 0 = lw := by
  unfold LayerWeights.plus
  congr 1
  funext p
  split
  next => rfl
  next => exact Tensor.plusTimes_zero _ _

/-- The update of a module that is square like its weight. -/
def Fits (quotient : UInt32 → UInt32 → R) (adapter : LoraAdapter R) (l : ℕ) (lw : LayerWeights R)
    (p : Projection) : Prop :=
  ∃ (m : ℕ) (weight update : Matrix (Fin m) (Fin m) R),
    lw.proj p = ⟨m, m, weight⟩ ∧ adapter.delta? quotient l p = some ⟨m, m, update⟩

theorem mergeModule_plus {times : Projection → ℕ} {module : String}
    (fits : (adapter.matrices? l module).isSome = true →
      ∃ p : Projection, module = p.name ∧ Fits quotient adapter l lw p) :
    mergeModule quotient adapter l (lw.plus quotient adapter l times) module =
      some (lw.plus quotient adapter l fun p => times p + if module = p.name then 1 else 0) := by
  cases found : adapter.matrices? l module with
  | none =>
    have same : (lw.plus quotient adapter l fun p =>
        times p + if module = p.name then 1 else 0) = lw.plus quotient adapter l times := by
      unfold LayerWeights.plus
      congr 1
      funext p
      rcases eq_or_ne module p.name with rfl | apart
      · simp [LoraAdapter.delta?, found]
      · simp [apart]
    rw [mergeModule, found, same]
  | some matrices =>
    obtain ⟨p, rfl, m, weight, update, weight_, delta_⟩ := fits (by rw [found]; rfl)
    obtain ⟨a, b⟩ := matrices
    have product : ∃ ab, a.matmul b = some ab ∧
        ab.scale (quotient adapter.alpha adapter.rank) = ⟨m, m, update⟩ := by
      have delta := delta_
      rw [LoraAdapter.delta?, found] at delta
      exact Option.map_eq_some_iff.mp delta
    obtain ⟨ab, product, scaled⟩ := product
    have before : (lw.plus quotient adapter l times).proj p =
        Tensor.plusTimes ⟨m, m, weight⟩ ⟨m, m, update⟩ (times p) := by
      simp only [LayerWeights.plus, delta_, weight_]
    have name : Projection.ofName? p.name = some p := Projection.ofName?_eq_some_iff.mpr rfl
    rw [mergeModule, found]
    simp only [Option.bind_eq_bind, product, Option.bind_some, scaled, name, before,
      Tensor.add_plusTimes]
    unfold LayerWeights.plus
    -- the projection that is added to, and the others
    congr 2
    funext other
    rcases eq_or_ne other p with rfl | apart
    · rw [Function.update_self]
      simp [delta_, weight_]
    · have names : p.name ≠ other.name := by
        intro same
        have found : Projection.ofName? p.name = some other :=
          Projection.ofName?_eq_some_iff.mpr same
        exact apart (Option.some.inj (found.symm.trans name))
      rw [Function.update_of_ne apart]
      simp [names]

theorem foldlM_mergeModule {modules : List String} {times : Projection → ℕ}
    (fits : ∀ module ∈ modules, (adapter.matrices? l module).isSome = true →
      ∃ p : Projection, module = p.name ∧ Fits quotient adapter l lw p) :
    modules.foldlM (mergeModule quotient adapter l) (lw.plus quotient adapter l times) =
      some (lw.plus quotient adapter l fun p => times p + modules.count p.name) := by
  induction modules generalizing times with
  | nil => rfl
  | cons module modules ih =>
    rw [List.foldlM_cons, mergeModule_plus (fits module List.mem_cons_self), Option.bind_eq_bind, Option.bind_some,
      ih fun module member => fits module (List.mem_cons_of_mem _ member)]
    congr 2
    funext p
    rw [List.count_cons]
    rcases eq_or_ne module p.name with rfl | apart
    · simp [Nat.add_assoc, Nat.add_comm]
    · simp [apart]

def plusAll (quotient : UInt32 → UInt32 → R) (adapter : LoraAdapter R)
    (layers : List (LayerWeights R)) (times : ℕ → Projection → ℕ) : List (LayerWeights R) :=
  layers.mapIdx fun l lw => lw.plus quotient adapter l (times l)

theorem getElem?_plusAll (layers : List (LayerWeights R)) (times : ℕ → Projection → ℕ) (l : ℕ) :
    (plusAll quotient adapter layers times)[l]? =
      layers[l]?.map fun lw => lw.plus quotient adapter l (times l) := List.getElem?_mapIdx

theorem plusAll_zero (layers : List (LayerWeights R)) :
    plusAll quotient adapter layers (fun _ => 0) = layers := by
  apply List.ext_getElem?
  intro l
  rw [getElem?_plusAll]
  simp only [plus_zero, Option.map_id']

theorem mergeLayer_plusAll {layers : List (LayerWeights R)} {times : ℕ → Projection → ℕ}
    (found : layers[l]? = some lw)
    (fits : ∀ module ∈ adapter.targetModules, (adapter.matrices? l module).isSome = true →
      ∃ p : Projection, module = p.name ∧ Fits quotient adapter l lw p) :
    mergeLayer quotient adapter (plusAll quotient adapter layers times) l =
      some (plusAll quotient adapter layers fun i p =>
        times i p + if l = i then adapter.targetModules.count p.name else 0) := by
  have there : (plusAll quotient adapter layers times)[l]? =
      some (lw.plus quotient adapter l (times l)) := by
    rw [getElem?_plusAll, found]
    rfl
  simp only [mergeLayer, Option.bind_eq_bind, there, Option.bind_some, foldlM_mergeModule fits]
  congr 1
  apply List.ext_getElem?
  intro i
  rcases eq_or_ne l i with rfl | apart
  · rw [List.getElem?_set_self (List.getElem?_eq_some_iff.mp there).1, getElem?_plusAll, found]
    simp
  · rw [List.getElem?_set_ne apart, getElem?_plusAll, getElem?_plusAll]
    simp [apart]

theorem foldlM_mergeLayer {layers : List (LayerWeights R)} {targets : List ℕ}
    (times : ℕ → Projection → ℕ)
    (fits : ∀ l ∈ targets, ∃ lw, layers[l]? = some lw ∧
      ∀ module ∈ adapter.targetModules, (adapter.matrices? l module).isSome = true →
        ∃ p : Projection, module = p.name ∧ Fits quotient adapter l lw p) :
    targets.foldlM (mergeLayer quotient adapter) (plusAll quotient adapter layers times) =
      some (plusAll quotient adapter layers fun i p =>
        times i p + targets.count i * adapter.targetModules.count p.name) := by
  induction targets generalizing times with
  | nil =>
    rw [List.foldlM_nil]
    simp
  | cons l targets ih =>
    obtain ⟨lw, found, fits_⟩ := fits l List.mem_cons_self
    rw [List.foldlM_cons, mergeLayer_plusAll found fits_, Option.bind_eq_bind, Option.bind_some,
      ih _ fun l member => fits l (List.mem_cons_of_mem _ member)]
    congr 2
    funext i p
    rw [List.count_cons]
    rcases eq_or_ne l i with rfl | apart
    · simp [Nat.add_mul, Nat.add_assoc, Nat.add_comm]
    · simp [apart]

theorem merge_eq {model : LoadedProfiledModel R} (agrees : MergeAgrees quotient adapter model)
    (some_ : adapter.loraA.keys.isEmpty = false) :
    merge quotient adapter model = some { model with
      layers := plusAll quotient adapter model.layers
        (adapter.times model.layers.length) } := by
  have fits : ∀ l ∈ adapter.layers model.layers.length, ∃ lw, model.layers[l]? = some lw ∧
      ∀ module ∈ adapter.targetModules, (adapter.matrices? l module).isSome = true →
        ∃ p : Projection, module = p.name ∧ Fits quotient adapter l lw p := by
    intro l member
    have found := List.getElem?_eq_getElem (agrees.inRange l member)
    refine ⟨_, found, fun module listed both => ?_⟩
    obtain ⟨p, rfl⟩ := agrees.known l member module listed both
    obtain ⟨m, weight, update, weight_, delta_, -⟩ :=
      agrees.agrees l _ p found member listed both
    exact ⟨p, rfl, m, weight, update, weight_, delta_⟩
  have all := foldlM_mergeLayer (fun _ => 0) fits
  rw [plusAll_zero] at all
  rw [merge, some_]
  simp only [Bool.false_eq_true, if_false, Option.bind_eq_bind, all, Option.bind_some]
  congr 3
  funext i p
  exact Nat.zero_add _

/-! ## The two passes -/

theorem matmul_eq_some {a b : Tensor R} {ab : Tensor R} (product : a.matmul b = some ab) :
    ∃ (m k n : ℕ) (x : Matrix (Fin m) (Fin k) R) (y : Matrix (Fin k) (Fin n) R),
      a = ⟨m, k, x⟩ ∧ b = ⟨k, n, y⟩ ∧ ab = ⟨m, n, x * y⟩ := by
  obtain ⟨m, k, x⟩ := a
  obtain ⟨k', n, y⟩ := b
  rcases eq_or_ne k k' with rfl | apart
  · rw [Tensor.matmul_mk] at product
    exact ⟨m, k, n, x, y, rfl, rfl, (Option.some.inj product).symm⟩
  · rw [Tensor.matmul_of_ne apart] at product
    cases product

theorem delta?_eq_some {p : Projection} {m : ℕ} {update : Matrix (Fin m) (Fin m) R}
    (delta : adapter.delta? quotient l p = some ⟨m, m, update⟩) :
    ∃ (k : ℕ) (a : Matrix (Fin m) (Fin k) R) (b : Matrix (Fin k) (Fin m) R),
      adapter.matrices? l p.name = some (⟨m, k, a⟩, ⟨k, m, b⟩) ∧
      update = quotient adapter.alpha adapter.rank • (a * b) := by
  obtain ⟨⟨a, b⟩, found, there⟩ := Option.bind_eq_some_iff.mp delta
  obtain ⟨ab, product, scaled⟩ := Option.map_eq_some_iff.mp there
  obtain ⟨m', k, n, x, y, rfl, rfl, rfl⟩ := matmul_eq_some product
  cases scaled
  exact ⟨k, x, y, found, rfl⟩

/-- `x @ (W + Δ.T).T` is `x @ W.T` with `(x @ A) @ B` times the scale on top. -/
theorem matmul_add_transpose {m k : ℕ} (x : Tensor R) (weight : Matrix (Fin m) (Fin m) R)
    (a : Matrix (Fin m) (Fin k) R) (b : Matrix (Fin k) (Fin m) R) (c : R) :
    matmul x ⟨m, m, weight + (c • (a * b)).transpose⟩ = (do
      let baseOut ← matmul x ⟨m, m, weight⟩
      let delta ← matmulLora x ⟨m, k, a⟩ ⟨k, m, b⟩ c
      baseOut.add delta) := by
  obtain ⟨r, n, x⟩ := x
  rcases eq_or_ne n m with rfl | apart
  · simp only [matmul, matmulLora, Tensor.transpose, Tensor.matmul_mk, Option.bind_eq_bind,
      Option.bind_some, Tensor.scale, Tensor.add_mk, Matrix.transpose_add, Matrix.mul_add,
      Matrix.transpose_transpose, Matrix.mul_smul, Matrix.mul_assoc]
  · have refused (w : Matrix (Fin m) (Fin m) R) : matmul ⟨r, n, x⟩ ⟨m, m, w⟩ = none :=
      Tensor.matmul_of_ne apart
    rw [refused, refused]
    rfl

theorem project_new (name : String) (rank alpha : UInt32) (isTarget : Bool) (p : Projection)
    (normed : Tensor R) :
    project quotient (LoraAdapter.new name rank alpha) isTarget l lw p normed =
      matmul normed (lw.proj p) := by
  have none_ (baseOut : Tensor R) : applyLoraIfNeeded quotient (LoraAdapter.new name rank alpha)
      isTarget l p.name normed baseOut = some baseOut := by
    rw [applyLoraIfNeeded, if_neg]
    exact fun needed => List.not_mem_nil needed.2
  simp only [project, none_]
  exact bind_pure _

omit [CommRing R] in
theorem isTarget_iff {count : ℕ} (inside : l < count) :
    (adapter.targetLayers.isEmpty || adapter.targetLayers.contains l) = true ↔
      l ∈ adapter.layers count := by
  unfold LoraAdapter.layers
  cases adapter.targetLayers.isEmpty with
  | true => simp [inside]
  | false => simp

/-- The merge visits the projection of the layer and has both of its matrices. -/
def Visits (adapter : LoraAdapter R) (count l : ℕ) (p : Projection) : Prop :=
  (l ∈ adapter.layers count ∧ p.name ∈ adapter.targetModules) ∧
    (adapter.matrices? l p.name).isSome = true

theorem plus_unvisited {count : ℕ} {p : Projection} (unvisited : ¬ Visits adapter count l p) :
    (lw.plus quotient adapter l (adapter.times count l)).proj p = lw.proj p := by
  cases delta_ : adapter.delta? quotient l p with
  | none => simp only [LayerWeights.plus, delta_]
  | some delta =>
    have both : (adapter.matrices? l p.name).isSome = true := by
      obtain ⟨matrices, matrices_, -⟩ := Option.bind_eq_some_iff.mp delta_
      rw [matrices_]
      rfl
    -- with both matrices there it is the number of visits that is 0
    have never : adapter.times count l p = 0 := by
      by_contra some_
      obtain ⟨target, listed⟩ := Nat.mul_ne_zero_iff.mp some_
      exact unvisited ⟨⟨List.count_pos_iff.mp (Nat.pos_of_ne_zero target),
        List.count_pos_iff.mp (Nat.pos_of_ne_zero listed)⟩, both⟩
    simp only [LayerWeights.plus, delta_, never, Tensor.plusTimes_zero]

/-- The pass applies no update to a projection that the merge does not visit. -/
theorem project_unvisited {count : ℕ} (inside : l < count) {p : Projection}
    (unvisited : ¬ Visits adapter count l p) (normed : Tensor R) :
    project quotient adapter
        (adapter.targetLayers.isEmpty || adapter.targetLayers.contains l) l lw p normed =
      matmul normed (lw.proj p) := by
  have applied (baseOut : Tensor R) : applyLoraIfNeeded quotient adapter
      (adapter.targetLayers.isEmpty || adapter.targetLayers.contains l) l p.name normed
      baseOut = some baseOut := by
    unfold applyLoraIfNeeded
    split
    next needed =>
      -- the layer and the module are targets, so that a matrix is missing
      cases matrices_ : adapter.matrices? l p.name with
      | none => rfl
      | some matrices =>
        exact absurd ⟨⟨(isTarget_iff inside).mp needed.1, needed.2⟩, by rw [matrices_]; rfl⟩
          unvisited
    next => rfl
  simp only [project, applied]
  exact bind_pure _

section
variable {model : LoadedProfiledModel R} (agrees : MergeAgrees quotient adapter model)
include agrees

/-- What the merge adds to a projection is what the pass applies. -/
theorem plus_proj (found : model.layers[l]? = some lw) (p : Projection) (normed : Tensor R) :
    matmul normed ((lw.plus quotient adapter l
        (adapter.times model.layers.length l)).proj p) =
      if p.adapted then project quotient adapter
        (adapter.targetLayers.isEmpty || adapter.targetLayers.contains l) l lw p normed
      else matmul normed (lw.proj p) := by
  have inside := (List.getElem?_eq_some_iff.mp found).1
  by_cases visited : Visits adapter model.layers.length l p
  · -- The sum of the visits is the one update that the pass applies.
    obtain ⟨⟨target, listed⟩, both⟩ := visited
    obtain ⟨m, weight, update, weight_, delta_, same⟩ :=
      agrees.agrees l lw p found target listed both
    obtain ⟨k, a, b, matrices_, rfl⟩ := delta?_eq_some delta_
    have merged : (lw.plus quotient adapter l (adapter.times model.layers.length l)).proj p =
        ⟨m, m, weight + adapter.times model.layers.length l p •
          (quotient adapter.alpha adapter.rank • (a * b))⟩ := by
      simp only [LayerWeights.plus, delta_, weight_, Tensor.plusTimes_mk]
    rw [merged, same]
    cases p.adapted with
    | true =>
      have needed := (isTarget_iff inside).mpr target
      simp only [if_true, matmul_add_transpose, project, applyLoraIfNeeded, weight_, needed,
        listed, and_self, matrices_, Option.bind_eq_bind]
    | false => simp [weight_]
  · -- No update is added, and none is applied.
    rw [plus_unvisited visited, project_unvisited inside visited, ite_self]

theorem forwardLayer_plusAll (ops : Operations R Input) (name : String) (rank alpha : UInt32)
    (h : Tensor R) :
    forwardLayer quotient ops { model with
        layers := plusAll quotient adapter model.layers (adapter.times model.layers.length) }
      (LoraAdapter.new name rank alpha) h l =
    forwardLayer quotient ops model adapter h l := by
  unfold forwardLayer
  rw [getElem?_plusAll]
  cases found : model.layers[l]? with
  | none => rfl
  | some lw =>
    have same := plus_proj agrees found
    -- Each projection is that of the merged weights, and everything else is the same.
    have projected (p : Projection) (adapted : p.adapted = true) (isTarget : Bool)
        (normed : Tensor R) :
        project quotient (LoraAdapter.new name rank alpha) isTarget l
            (lw.plus quotient adapter l (adapter.times model.layers.length l)) p normed =
          project quotient adapter
            (adapter.targetLayers.isEmpty || adapter.targetLayers.contains l) l lw p normed := by
      rw [project_new, same, if_pos adapted]
    have plain (p : Projection) (unadapted : p.adapted = false) (normed : Tensor R) :
        matmul normed ((lw.plus quotient adapter l
          (adapter.times model.layers.length l)).proj p) = matmul normed (lw.proj p) := by
      rw [same, unadapted, if_neg Bool.false_ne_true]
    refine bind_congr (x := ops.rmsNorm h lw.inputLayernorm model.rmsNormEps) fun normed => ?_
    rw [projected .q rfl, projected .k rfl, projected .v rfl]
    refine bind_congr fun q => bind_congr fun k => bind_congr fun v => bind_congr fun attnOut => ?_
    rw [plain .o rfl]
    refine bind_congr fun attnOut => bind_congr fun h => ?_
    refine bind_congr (x := ops.rmsNorm h lw.postAttentionLayernorm model.rmsNormEps)
      fun normed => ?_
    rw [plain .gate rfl, plain .up rfl]
    refine bind_congr fun gate => bind_congr fun up => bind_congr fun gateSilu => ?_
    refine bind_congr fun downIn => ?_
    rw [plain .down rfl]

end

theorem forward_congr (ops : Operations R Input) {model : LoadedProfiledModel R}
    {layers : List (LayerWeights R)} {adapter' : LoraAdapter R}
    (length : layers.length = model.layers.length)
    (same : ∀ l h,
      forwardLayer quotient ops { model with layers } adapter' h l =
        forwardLayer quotient ops model adapter h l) (input : Input) :
    forward quotient ops { model with layers } adapter' input =
      forward quotient ops model adapter input := by
  have layers_ (ls : List ℕ) (h : Tensor R) :
      ls.foldlM (forwardLayer quotient ops { model with layers } adapter') h =
        ls.foldlM (forwardLayer quotient ops model adapter) h := by
    induction ls generalizing h with
    | nil => rfl
    | cons l ls ih =>
      rw [List.foldlM_cons, List.foldlM_cons, same l]
      exact bind_congr ih
  unfold forward
  exact bind_congr fun h => by rw [layers_, length]

/-- An adapter without matrices is merged and applied as none. -/
theorem forwardLayer_empty (ops : Operations R Input) {model : LoadedProfiledModel R}
    (empty : adapter.loraA.keys.isEmpty = true) (name : String) (rank alpha : UInt32)
    (h : Tensor R) :
    forwardLayer quotient ops model (LoraAdapter.new name rank alpha) h l =
      forwardLayer quotient ops model adapter h l := by
  have none_ (l : ℕ) (module : String) : adapter.matrices? l module = none := by
    have absent : adapter.loraA.lookup (weightKey l module) = none := by
      refine AList.lookup_eq_none.mpr fun member => ?_
      have listed := AList.mem_keys.mp member
      rw [List.isEmpty_iff.mp empty] at listed
      exact List.not_mem_nil listed
    rw [LoraAdapter.matrices?, absent]
  have same (isTarget : Bool) (lw : LayerWeights R) (p : Projection) (normed : Tensor R) :
      project quotient adapter isTarget l lw p normed = matmul normed (lw.proj p) := by
    have applied (baseOut : Tensor R) : applyLoraIfNeeded quotient adapter isTarget l p.name normed
        baseOut = some baseOut := by
      rw [applyLoraIfNeeded, none_]
      exact ite_self _
    simp only [project, applied]
    exact bind_pure _
  simp only [forwardLayer, project_new, same]

variable (Input) in
theorem forward_merged {model : LoadedProfiledModel R}
    (agrees : adapter.loraA.keys.isEmpty = true ∨ MergeAgrees quotient adapter model) :
    ∃ merged, merge quotient adapter model = some merged ∧
      ∀ (ops : Operations R Input) (name : String) (rank alpha : UInt32) (input : Input),
        forward quotient ops merged (LoraAdapter.new name rank alpha) input =
          forward quotient ops model adapter input := by
  cases some_ : adapter.loraA.keys.isEmpty with
  | true =>
    refine ⟨model, by rw [merge, some_]; rfl, fun ops name rank alpha input => ?_⟩
    exact forward_congr ops rfl (fun l h => forwardLayer_empty ops some_ name rank alpha h) input
  | false =>
    have agrees_ : MergeAgrees quotient adapter model := by
      rcases agrees with empty | agrees
      · rw [some_] at empty
        cases empty
      · exact agrees
    refine ⟨_, merge_eq agrees_ some_, fun ops name rank alpha input => ?_⟩
    exact forward_congr ops List.length_mapIdx
      (fun l h => forwardLayer_plusAll agrees_ ops name rank alpha h) input

/-- The merge does not panic, and the plain pass over the merged weights gives the logits that a
table gives for the adapter over the unmerged ones, whatever the other operations are. -/
theorem merge_agrees {model : LoadedProfiledModel R}
    (agrees : adapter.loraA.keys.isEmpty = true ∨ MergeAgrees quotient adapter model) :
    ∃ merged, merge quotient adapter model = some merged ∧
      ∀ (ops : Operations R Input) (table : SharedWeightTable R) (adapterName : String),
        table.base = model → table.adapters.lookup adapterName = some adapter →
        ∀ (name : String) (rank alpha : UInt32) (input : Input),
          forwardWithAdapter quotient ops table input adapterName =
            (forward quotient ops merged (LoraAdapter.new name rank alpha) input).map .ok := by
  obtain ⟨merged, ok, same⟩ := forward_merged Input agrees
  refine ⟨merged, ok, ?_⟩
  rintro ops table adapterName rfl attached name rank alpha input
  rw [forwardWithAdapter, attached, same]

end

def column : Matrix (Fin 2) (Fin 1) ℤ := Matrix.of fun i _ => i.val + 1

/-- An adapter of rank one for the first projection of a layer; its update is symmetric. -/
def symmetricAdapter : LoraAdapter ℤ where
  name := "style"
  rank := 1
  alpha := 0x3F800000
  targetLayers := [0]
  targetModules := ["q_proj"]
  loraA := AList.singleton "0_q_proj_weight" ⟨2, 1, column⟩
  loraB := AList.singleton "0_q_proj_weight" ⟨1, 2, column.transpose⟩

def squareLayer : LayerWeights ℤ where
  inputLayernorm := ⟨2, 1, column⟩
  postAttentionLayernorm := ⟨2, 1, column⟩
  proj _ := ⟨2, 2, Matrix.of fun i j => 2 * i.val + j.val⟩

def squareModel : LoadedProfiledModel ℤ := ⟨[squareLayer], ⟨2, 2, 1⟩, ⟨2, 1, column⟩, 0⟩

theorem symmetric_merge_agrees :
    ∃ merged, merge (fun _ _ => 1) symmetricAdapter squareModel = some merged ∧
      ∀ (ops : Operations ℤ Unit) (name : String) (rank alpha : UInt32) (input : Unit),
        forwardWithAdapter (fun _ _ => 1) ops
            ⟨squareModel, AList.singleton "style" symmetricAdapter⟩ input "style" =
          (forward (fun _ _ => 1) ops merged (LoraAdapter.new name rank alpha) input).map .ok := by
  have agrees : MergeAgrees (fun _ _ => 1) symmetricAdapter squareModel := by
    refine ⟨fun l member => ?_, fun l _ module listed _ => ?_, fun l lw p found _ listed _ => ?_⟩
    · rw [List.mem_singleton.mp member]
      exact Nat.zero_lt_one
    · exact ⟨.q, List.mem_singleton.mp listed⟩
    · cases p with
      | q =>
        obtain ⟨rfl, rfl⟩ : l = 0 ∧ lw = squareLayer := by
          cases l with
          | zero => exact ⟨rfl, (Option.some.inj found).symm⟩
          | succ l => cases found
        refine ⟨2, _, (1 : ℤ) • (column * column.transpose), rfl, rfl, ?_⟩
        show 1 • _ = ((1 : ℤ) • (column * column.transpose)).transpose
        rw [one_nsmul, Matrix.transpose_smul, Matrix.transpose_mul, Matrix.transpose_transpose]
      | _ => exact absurd (List.mem_singleton.mp listed) (by decide)
  obtain ⟨merged, ok, same⟩ := merge_agrees (.inr agrees)
  exact ⟨merged, ok, fun ops => same ops ⟨squareModel, AList.singleton "style" symmetricAdapter⟩
    "style" rfl rfl⟩

/-- The weight of a projection from three to two, as for the keys of grouped attention: the
merge panics. -/
theorem merge_panics :
    merge (fun _ _ => 1)
      ⟨"style", 1, 0, [0], ["k_proj"], AList.singleton "0_k_proj_weight" ⟨3, 1, 0⟩,
        AList.singleton "0_k_proj_weight" ⟨1, 2, 0⟩⟩
      (⟨[⟨⟨1, 3, 0⟩, ⟨1, 3, 0⟩, fun _ => ⟨2, 3, 0⟩⟩], ⟨3, 3, 0⟩, ⟨1, 3, 0⟩, 0⟩ :
        LoadedProfiledModel ℤ) = none := by
  rfl

end TribunusCompute.Lora
