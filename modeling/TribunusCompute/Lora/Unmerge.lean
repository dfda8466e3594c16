import TribunusCompute.Lora.Merge

/-!
# LoRA adapters, merged and taken back

`lora.rs`, over arrays of any kind. `unmerge` puts the weights of a snapshot back that `merge` is
said to take and does not: no function writes into the map, so that `unmerge` leaves the model as
it is, and the weights come back exactly where the updates have changed nothing.
-/
namespace TribunusCompute.Lora.Snapshots

/-- What an adapter uses of its arrays. `none` stands for a panic. -/
structure ArrayOps (A : Type) where
  shape : A → List ℕ
  matmul : A → A → Option A
  /-- Every entry times the quotient of `alpha` and `rank`. -/
  scaled : A → UInt32 → UInt32 → Option A
  add : A → A → Option A
  /-- Of shape `[rank, out]`. -/
  zeros : ℕ → ℕ → Option A

structure LayerWeights (A : Type) where
  proj : Projection → A

structure LoadedProfiledModel (A : Type) where
  layers : List (LayerWeights A)

/-- `alpha` by its bits. -/
structure LoraAdapter (A : Type) where
  name : String
  rank : UInt32
  alpha : UInt32
  targetLayers : List ℕ
  targetModules : List String
  loraA : AList fun _ : String => A
  loraB : AList fun _ : String => A
  originalWeights : AList fun _ : String => A
  isMerged : Bool

variable {A : Type}

def LoraAdapter.new (name : String) (rank alpha : UInt32) : LoraAdapter A :=
  ⟨name, rank, alpha, [], [], ∅, ∅, ∅, false⟩

/-! ## Weights from a model -/

section

variable (ops : ArrayOps A)

/-- A weight has shape `[out, in]`. -/
def projectionDims (module : String) (lw : LayerWeights A) : Except String (ℕ × ℕ) :=
  match Projection.ofName? module with
  | none => .error ("unknown module: " ++ module)
  | some p =>
    match ops.shape (lw.proj p) with
    | outDim :: inDim :: _ => .ok (inDim, outDim)
    | shape => .error ("projection weight for " ++ module ++ " has " ++ toString shape.length ++
        " dims, expected >= 2")

/-- A loop that returns at the first error, with what it has changed by then. -/
def untilError {σ α : Type} (turn : σ → α → Option (Except String Unit × σ)) :
    σ → List α → Option (Except String Unit × σ)
  | s, [] => some (.ok (), s)
  | s, x :: xs =>
    match turn s x with
    | none => none
    | some (.error e, s) => some (.error e, s)
    | some (.ok (), s) => untilError turn s xs

/-- The matrices of one module, unless both are there. The draw of `A` depends on more than its
arguments. -/
def initModule (draw : String → ℕ → UInt32 → Except String A) (layerIdx : ℕ)
    (lw : LayerWeights A) (adapter : LoraAdapter A) (module : String) :
    Option (Except String Unit × LoraAdapter A) :=
  let key := weightKey layerIdx module
  if (adapter.loraA.lookup key).isSome ∧ (adapter.loraB.lookup key).isSome then
    some (.ok (), adapter)
  else
    match projectionDims ops module lw with
    | .error e => some (.error e, adapter)
    | .ok (inDim, outDim) =>
      match draw key inDim adapter.rank with
      | .error e => some (.error ("lora_a init: " ++ e), adapter)
      | .ok a => do
        let b ← ops.zeros adapter.rank.toNat outDim
        some (.ok (), { adapter with
          loraA := adapter.loraA.insert key a
          loraB := adapter.loraB.insert key b })

def initLayer (draw : String → ℕ → UInt32 → Except String A) (model : LoadedProfiledModel A)
    (adapter : LoraAdapter A) (layerIdx : ℕ) : Option (Except String Unit × LoraAdapter A) :=
  match model.layers[layerIdx]? with
  | none => some (.error ("layer " ++ toString layerIdx ++ " out of range (model has " ++
      toString model.layers.length ++ " layers)"), adapter)
  | some lw => untilError (initModule ops draw layerIdx lw) adapter adapter.targetModules

def initWeights (draw : String → ℕ → UInt32 → Except String A) (adapter : LoraAdapter A)
    (model : LoadedProfiledModel A) : Option (Except String Unit × LoraAdapter A) :=
  untilError (initLayer ops draw model) adapter adapter.targetLayers

end

/-! ## Weights from a directory -/

/-- The entries of `adapter_config.json` that are read, where they have the type that is asked
for; `alpha` rounded to its bits. -/
structure AdapterConfig where
  name : Option String
  rank : Option UInt64
  alpha : Option UInt32
  targetLayers : Option (List (Option UInt64))
  targetModules : Option (List (Option String))

/-- The two files of a directory, or why they cannot be read. -/
structure AdapterFiles (A : Type) where
  config : Except String AdapterConfig
  tensors : Except String (List (String × A))

/-- The tensors whose name starts with the tag, under the rest of their names. -/
def taggedTensors (tag : String) (loaded : List (String × A)) : AList fun _ : String => A :=
  loaded.foldl (fun tensors entry =>
    if tag.toList.isPrefixOf entry.1.toList then
      tensors.insert (String.ofList (entry.1.toList.drop tag.length)) entry.2
    else tensors) ∅

def load (files : AdapterFiles A) : Except String (LoraAdapter A) := do
  let config ← files.config
  let loaded ← files.tensors
  return {
    name := config.name.getD "unnamed"
    -- the casts to u32 drop the upper bits
    rank := (config.rank.getD 8).toUInt32
    -- 16.0
    alpha := config.alpha.getD 0x41800000
    targetLayers := (config.targetLayers.getD []).filterMap fun v =>
      v.map fun u => u.toUInt32.toNat
    targetModules := (config.targetModules.getD []).filterMap id
    loraA := taggedTensors "lora_a." loaded
    loraB := taggedTensors "lora_b." loaded
    originalWeights := ∅
    isMerged := false }

/-! ## The merge and its reversal -/

def LoraAdapter.matrices? (adapter : LoraAdapter A) (layerIdx : ℕ) (module : String) :
    Option (A × A) :=
  match adapter.loraA.lookup (weightKey layerIdx module) with
  | none => none
  | some a => (adapter.loraB.lookup (weightKey layerIdx module)).map fun b => (a, b)

def LoraAdapter.layers (adapter : LoraAdapter A) (count : ℕ) : List ℕ :=
  if adapter.targetLayers.isEmpty then List.range count else adapter.targetLayers

def LoraAdapter.forModules (adapter : LoraAdapter A)
    (turn : ℕ → LayerWeights A → String → Option (LayerWeights A)) (layers : List (LayerWeights A))
    (layerIdx : ℕ) : Option (List (LayerWeights A)) := do
  let lw ← layers[layerIdx]?
  let lw ← adapter.targetModules.foldlM (turn layerIdx) lw
  some (layers.set layerIdx lw)

def LoraAdapter.forTargets (adapter : LoraAdapter A)
    (turn : ℕ → LayerWeights A → String → Option (LayerWeights A))
    (model : LoadedProfiledModel A) : Option (LoadedProfiledModel A) := do
  let layers ← (adapter.layers model.layers.length).foldlM (adapter.forModules turn) model.layers
  some ⟨layers⟩

def mergeModule (ops : ArrayOps A) (adapter : LoraAdapter A) (layerIdx : ℕ) (lw : LayerWeights A)
    (module : String) : Option (LayerWeights A) :=
  match adapter.matrices? layerIdx module with
  | none => some lw
  | some (loraA, loraB) => do
    let ab ← ops.matmul loraA loraB
    let delta ← ops.scaled ab adapter.alpha adapter.rank
    let p ← Projection.ofName? module
    let merged ← ops.add (lw.proj p) delta
    some ⟨Function.update lw.proj p merged⟩

def merge (ops : ArrayOps A) (adapter : LoraAdapter A) (model : LoadedProfiledModel A) :
    Option (LoadedProfiledModel A) :=
  if adapter.loraA.keys.isEmpty then some model
  else adapter.forTargets (mergeModule ops adapter) model

def unmergeModule (adapter : LoraAdapter A) (layerIdx : ℕ) (lw : LayerWeights A)
    (module : String) : Option (LayerWeights A) :=
  match adapter.originalWeights.lookup (weightKey layerIdx module) with
  | none => some lw
  | some original => do
    let p ← Projection.ofName? module
    some ⟨Function.update lw.proj p original⟩

def unmerge (adapter : LoraAdapter A) (model : LoadedProfiledModel A) :
    Option (LoadedProfiledModel A) :=
  if adapter.originalWeights.keys.isEmpty then some model
  else adapter.forTargets (unmergeModule adapter) model

/-! ## No snapshot -/

/-- The adapters that come from the functions that make them. Callers and the training set the
public fields. -/
inductive Created (ops : ArrayOps A) : LoraAdapter A → Prop
  | new (name : String) (rank alpha : UInt32) : Created ops (.new name rank alpha)
  | load (files : AdapterFiles A) (adapter : LoraAdapter A) :
    Snapshots.load files = .ok adapter → Created ops adapter
  | edited (adapter : LoraAdapter A) (name : String) (rank alpha : UInt32)
    (targetLayers : List ℕ) (targetModules : List String)
    (loraA loraB : AList fun _ : String => A) : Created ops adapter →
      Created ops { adapter with name, rank, alpha, targetLayers, targetModules, loraA, loraB }
  | initWeights (draw : String → ℕ → UInt32 → Except String A) (adapter after : LoraAdapter A)
    (model : LoadedProfiledModel A) (result : Except String Unit) : Created ops adapter →
      Snapshots.initWeights ops draw adapter model = some (result, after) → Created ops after

/-- What every turn keeps, the loop keeps. -/
theorem untilError_keeps {σ α : Type} {turn : σ → α → Option (Except String Unit × σ)}
    (kept : σ → Prop)
    (one : ∀ s x result s', kept s → turn s x = some (result, s') → kept s')
    {xs : List α} {s s' : σ} {result : Except String Unit} (before : kept s)
    (done : untilError turn s xs = some (result, s')) : kept s' := by
  induction xs generalizing s with
  | nil =>
    cases done
    exact before
  | cons x xs ih =>
    rw [untilError] at done
    split at done
    next => cases done
    next e failed turned =>
      cases done
      exact one _ _ _ _ before turned
    next after turned => exact ih (one _ _ _ _ before turned) done

theorem initModule_originalWeights {ops : ArrayOps A}
    {draw : String → ℕ → UInt32 → Except String A} {layerIdx : ℕ} {lw : LayerWeights A}
    {adapter after : LoraAdapter A} {module : String} {result : Except String Unit}
    (done : initModule ops draw layerIdx lw adapter module = some (result, after)) :
    after.originalWeights = adapter.originalWeights := by
  unfold initModule at done
  simp only at done
  split at done
  next => cases done; rfl
  next =>
    split at done
    next => cases done; rfl
    next =>
      split at done
      next => cases done; rfl
      next =>
        obtain ⟨b, -, done⟩ := Option.bind_eq_some_iff.mp done
        cases done
        rfl

/-- No function fills the snapshot. -/
theorem Created.originalWeights_eq {ops : ArrayOps A} {adapter : LoraAdapter A}
    (created : Created ops adapter) : adapter.originalWeights = ∅ := by
  induction created with
  | new => rfl
  | load files adapter read =>
    unfold Snapshots.load at read
    cases config : files.config with
    | error e =>
      rw [config] at read
      cases read
    | ok c =>
      cases tensors : files.tensors with
      | error e =>
        rw [config, tensors] at read
        cases read
      | ok ts =>
        rw [config, tensors] at read
        cases read
        rfl
  -- the map of the snapshots is not public, and nothing in the crate sets it
  | edited _ _ _ _ _ _ _ _ _ ih => exact ih
  | initWeights draw adapter after model result _ done ih =>
    -- two loops, each of which may return early with what it has set
    refine untilError_keeps (fun adapter => adapter.originalWeights = ∅) ?_ ih done
    intro s layerIdx result s' before turned
    unfold initLayer at turned
    split at turned
    next =>
      cases turned
      exact before
    next =>
      refine untilError_keeps (fun adapter => adapter.originalWeights = ∅) ?_ before turned
      intro s module result s' before turned
      rw [initModule_originalWeights turned, before]

/-- The reversal leaves the model as the merge has left it. -/
theorem Created.unmerge_eq {ops : ArrayOps A} {adapter : LoraAdapter A}
    (created : Created ops adapter) (model : LoadedProfiledModel A) :
    unmerge adapter model = some model := by
  unfold unmerge
  rw [created.originalWeights_eq]
  rfl

/-! ## What the merge adds -/

section

variable (ops : ArrayOps A)

/-- The update of a projection: `A @ B * (alpha / rank)`, where the adapter has both matrices. -/
def LoraAdapter.update? (adapter : LoraAdapter A) (layerIdx : ℕ) (p : Projection) : Option A := do
  let (loraA, loraB) ← adapter.matrices? layerIdx p.name
  let ab ← ops.matmul loraA loraB
  ops.scaled ab adapter.alpha adapter.rank

def LoraAdapter.times (adapter : LoraAdapter A) (count layerIdx : ℕ) (p : Projection) : ℕ :=
  (adapter.layers count).count layerIdx * adapter.targetModules.count p.name

/-- The weight with the update added so many times, or as it is where there is none. -/
def addTimes (update : Option A) : ℕ → A → Option A
  | 0, weight => some weight
  | n + 1, weight =>
    match update with
    | none => some weight
    | some delta => (ops.add weight delta).bind (addTimes update n)

theorem addTimes_none (n : ℕ) (weight : A) : addTimes ops none n weight = some weight := by
  cases n <;> rfl

theorem addTimes_add (update : Option A) (m n : ℕ) (weight : A) :
    addTimes ops update (m + n) weight =
      (addTimes ops update m weight).bind (addTimes ops update n) := by
  induction m generalizing weight with
  | zero => rw [Nat.zero_add]; rfl
  | succ m ih =>
    cases update with
    | none => simp only [addTimes_none, Option.bind_some]
    | some delta =>
      rw [Nat.succ_add]
      simp only [addTimes, Option.bind_assoc, ih]

variable {ops} {adapter : LoraAdapter A} {layerIdx : ℕ} {lw lw' : LayerWeights A}

theorem mergeModule_some {module : String}
    (done : mergeModule ops adapter layerIdx lw module = some lw') (p : Projection) :
    addTimes ops (adapter.update? ops layerIdx p) (if module = p.name then 1 else 0) (lw.proj p) =
      some (lw'.proj p) := by
  unfold mergeModule at done
  cases found : adapter.matrices? layerIdx module with
  | none =>
    rw [found] at done
    obtain rfl := Option.some.inj done
    split
    next same =>
      rw [LoraAdapter.update?, ← same, found]
      rfl
    next => rfl
  | some matrices =>
    rw [found] at done
    obtain ⟨ab, product, done⟩ := Option.bind_eq_some_iff.mp done
    obtain ⟨delta, scaled, done⟩ := Option.bind_eq_some_iff.mp done
    obtain ⟨target, known, done⟩ := Option.bind_eq_some_iff.mp done
    obtain ⟨merged, added, done⟩ := Option.bind_eq_some_iff.mp done
    obtain rfl := Option.some.inj done
    obtain rfl := Projection.ofName?_eq_some_iff.mp known
    -- the module is the projection asked for, or another one of another name
    by_cases same : target = p
    · subst same
      have update : adapter.update? ops layerIdx target = some delta := by
        rw [LoraAdapter.update?, found]
        exact Option.bind_eq_some_iff.mpr
          ⟨matrices, rfl, Option.bind_eq_some_iff.mpr ⟨ab, product, scaled⟩⟩
      rw [if_pos rfl, update]
      simp only [addTimes, added, Option.bind_some, Function.update_self]
    · have apart : target.name ≠ p.name := by
        intro names
        have again := Projection.ofName?_eq_some_iff.mpr names
        rw [known] at again
        exact same (Option.some.inj again)
      rw [if_neg apart]
      exact congrArg some (Function.update_of_ne (Ne.symm same) merged lw.proj).symm

theorem foldlM_mergeModule_some {modules : List String}
    (done : modules.foldlM (mergeModule ops adapter layerIdx) lw = some lw') (p : Projection) :
    addTimes ops (adapter.update? ops layerIdx p) (modules.count p.name) (lw.proj p) =
      some (lw'.proj p) := by
  induction modules generalizing lw with
  | nil =>
    obtain rfl := Option.some.inj done
    rfl
  | cons module modules ih =>
    rw [List.foldlM_cons] at done
    obtain ⟨middle, first, rest⟩ := Option.bind_eq_some_iff.mp done
    have once := mergeModule_some first p
    rw [List.count_cons, Nat.add_comm, addTimes_add]
    simp only [beq_iff_eq, once, Option.bind_some, ih rest]

theorem foldlM_layers_some {indices : List ℕ} {layers layers' : List (LayerWeights A)}
    (done : indices.foldlM (adapter.forModules (mergeModule ops adapter)) layers = some layers') :
    layers'.length = layers.length ∧
      ∀ l lw, layers[l]? = some lw → ∃ lw', layers'[l]? = some lw' ∧ ∀ p,
        addTimes ops (adapter.update? ops l p)
          (indices.count l * adapter.targetModules.count p.name) (lw.proj p) =
            some (lw'.proj p) := by
  induction indices generalizing layers with
  | nil =>
    obtain rfl := Option.some.inj done
    refine ⟨rfl, fun l lw there => ⟨lw, there, fun p => ?_⟩⟩
    rw [List.count_nil, Nat.zero_mul]
    rfl
  | cons layerIdx indices ih =>
    rw [List.foldlM_cons] at done
    obtain ⟨middle, first, rest⟩ := Option.bind_eq_some_iff.mp done
    obtain ⟨visited, found, first⟩ := Option.bind_eq_some_iff.mp first
    obtain ⟨merged, modules, first⟩ := Option.bind_eq_some_iff.mp first
    obtain rfl := Option.some.inj first
    obtain ⟨length, later⟩ := ih rest
    rw [List.length_set] at length
    refine ⟨length, fun l lw there => ?_⟩
    rw [List.count_cons]
    -- a layer that is listed again gets its updates again
    by_cases same : layerIdx = l
    · subst same
      obtain rfl := Option.some.inj (found.symm.trans there)
      have inside := (List.getElem?_eq_some_iff.mp there).1
      obtain ⟨lw', there', weights⟩ := later layerIdx merged (List.getElem?_set_self inside)
      refine ⟨lw', there', fun p => ?_⟩
      have one := foldlM_mergeModule_some modules p
      rw [beq_self_eq_true, if_pos rfl, Nat.add_mul, Nat.one_mul, Nat.add_comm, addTimes_add, one]
      exact weights p
    · rw [if_neg (by simpa using same), Nat.add_zero]
      exact later l lw (by rwa [List.getElem?_set_ne same])

theorem merge_some {model merged : LoadedProfiledModel A}
    (done : merge ops adapter model = some merged) :
    merged.layers.length = model.layers.length ∧
      ∀ l lw, model.layers[l]? = some lw → ∃ lw', merged.layers[l]? = some lw' ∧ ∀ p,
        addTimes ops (adapter.update? ops l p) (adapter.times model.layers.length l p) (lw.proj p) =
          some (lw'.proj p) := by
  unfold merge at done
  split at done
  next empty =>
    obtain rfl := Option.some.inj done
    refine ⟨rfl, fun l lw there => ⟨lw, there, fun p => ?_⟩⟩
    -- the early return: without matrices there is no update either
    have absent : adapter.loraA.lookup (weightKey l p.name) = none := by
      refine AList.lookup_eq_none.mpr fun member => ?_
      have listed := AList.mem_keys.mp member
      rw [List.isEmpty_iff.mp empty] at listed
      exact List.not_mem_nil listed
    have none_ : adapter.update? ops l p = none := by
      rw [LoraAdapter.update?, LoraAdapter.matrices?, absent]
      rfl
    rw [none_, addTimes_none]
  next =>
    obtain ⟨layers, all, done⟩ := Option.bind_eq_some_iff.mp done
    obtain rfl := Option.some.inj done
    exact foldlM_layers_some all

end

/-- The reversal of the merged model returns, with the weights from before the merge. -/
def Restored (adapter : LoraAdapter A) (model merged : LoadedProfiledModel A) : Prop :=
  ∃ unmerged, unmerge adapter merged = some unmerged ∧
    unmerged.layers.map LayerWeights.proj = model.layers.map LayerWeights.proj

/-- A merge and its reversal give the weights back exactly where every weight absorbs its update,
as often as the merge adds it. -/
theorem restored_iff (ops : ArrayOps A) (adapter : LoraAdapter A) (created : Created ops adapter)
    (model merged : LoadedProfiledModel A) (ok : merge ops adapter model = some merged) :
    Restored adapter model merged ↔
      ∀ l lw, model.layers[l]? = some lw → ∀ p : Projection,
        addTimes ops (adapter.update? ops l p) (adapter.times model.layers.length l p) (lw.proj p) =
          some (lw.proj p) := by
  obtain ⟨length, weights⟩ := merge_some ok
  constructor
  · rintro ⟨unmerged, reversed, same⟩ l lw there p
    -- the model is the merged one still
    rw [created.unmerge_eq] at reversed
    obtain rfl := Option.some.inj reversed
    obtain ⟨lw', there', added⟩ := weights l lw there
    have projections := congrArg (fun projections => projections[l]?) same
    simp only [List.getElem?_map, there, there', Option.map_some, Option.some.injEq] at projections
    rw [added p, projections]
  · intro absorbed
    -- the merged weights are the old ones, layer by layer
    refine ⟨merged, created.unmerge_eq merged, List.ext_getElem? fun l => ?_⟩
    rw [List.getElem?_map, List.getElem?_map]
    cases there : model.layers[l]? with
    | none =>
      have outside : merged.layers[l]? = none := by
        rw [List.getElem?_eq_none_iff] at there ⊢
        rwa [length]
      rw [outside]
    | some lw =>
      obtain ⟨lw', there', added⟩ := weights l lw there
      have same : lw'.proj = lw.proj := by
        funext p
        exact Option.some.inj ((added p).symm.trans (absorbed l lw there p))
      rw [there', Option.map_some, Option.map_some, same]

/-! ## Exact arithmetic -/

section

variable {R : Type} [CommRing R] (quotient : UInt32 → UInt32 → R)

def matrixOps : ArrayOps (Tensor R) where
  shape := fun t => [t.rows, t.cols]
  matmul := Tensor.matmul
  scaled := fun t alpha rank => some (t.scale (quotient alpha rank))
  add := Tensor.add
  zeros := fun rank outDim => some ⟨rank, outDim, 0⟩

/-- The adapter without what belongs to the reversal. -/
def LoraAdapter.plain (adapter : LoraAdapter (Tensor R)) : Lora.LoraAdapter R :=
  ⟨adapter.name, adapter.rank, adapter.alpha, adapter.targetLayers, adapter.targetModules,
    adapter.loraA, adapter.loraB⟩

def projections (lw : Lora.LayerWeights R) : LayerWeights (Tensor R) := ⟨lw.proj⟩

/-- A loop over a view of the state. -/
theorem foldlM_view {σ τ α : Type} {f : σ → α → Option σ} {g : τ → α → Option τ} (view : σ → τ)
    (one : ∀ s x, g (view s) x = (f s x).map view) (s : σ) (xs : List α) :
    xs.foldlM g (view s) = (xs.foldlM f s).map view := by
  induction xs generalizing s with
  | nil => rfl
  | cons x xs ih =>
    rw [List.foldlM_cons, List.foldlM_cons, one]
    cases f s x with
    | none => rfl
    | some s' => exact ih s'

theorem mergeModule_matrixOps (adapter : LoraAdapter (Tensor R)) (layerIdx : ℕ)
    (lw : Lora.LayerWeights R) (module : String) :
    mergeModule (matrixOps quotient) adapter layerIdx (projections lw) module =
      (Lora.mergeModule quotient adapter.plain layerIdx lw module).map projections := by
  have same : adapter.plain.matrices? layerIdx module = adapter.matrices? layerIdx module := by
    unfold Lora.LoraAdapter.matrices? LoraAdapter.matrices? LoraAdapter.plain
    cases adapter.loraA.lookup (weightKey layerIdx module) <;> rfl
  unfold mergeModule Lora.mergeModule
  rw [same]
  cases adapter.matrices? layerIdx module with
  | none => rfl
  | some matrices =>
    simp only [matrixOps, projections, LoraAdapter.plain, Option.bind_eq_bind, Option.bind_some]
    cases matrices.1.matmul matrices.2 with
    | none => rfl
    | some ab =>
      cases Projection.ofName? module with
      | none => rfl
      | some p =>
        simp only [Option.bind_some]
        cases (lw.proj p).add (ab.scale (quotient adapter.alpha adapter.rank)) <;> rfl

theorem forModules_matrixOps (adapter : LoraAdapter (Tensor R))
    (layers : List (Lora.LayerWeights R)) (layerIdx : ℕ) :
    adapter.forModules (mergeModule (matrixOps quotient) adapter) (layers.map projections)
        layerIdx =
      (Lora.mergeLayer quotient adapter.plain layers layerIdx).map (List.map projections) := by
  unfold LoraAdapter.forModules Lora.mergeLayer
  rw [List.getElem?_map]
  cases layers[layerIdx]? with
  | none => rfl
  | some lw =>
    have modules := foldlM_view projections (mergeModule_matrixOps quotient adapter layerIdx) lw
      adapter.targetModules
    -- the view of a layer commutes with the loop over its modules
    have same : adapter.plain.targetModules = adapter.targetModules := rfl
    simp only [Option.bind_eq_bind, Option.map_some, Option.bind_some, modules, same]
    cases adapter.targetModules.foldlM (Lora.mergeModule quotient adapter.plain layerIdx) lw with
    | none => rfl
    | some lw' => exact congrArg some List.map_set.symm

/-- Over matrices the merge is the one of the forward pass. -/
theorem merge_matrixOps (adapter : LoraAdapter (Tensor R)) (model : Lora.LoadedProfiledModel R) :
    merge (matrixOps quotient) adapter ⟨model.layers.map projections⟩ =
      (Lora.merge quotient adapter.plain model).map fun merged =>
        ⟨merged.layers.map projections⟩ := by
  have layers := foldlM_view (List.map projections) (forModules_matrixOps quotient adapter)
    model.layers (adapter.layers model.layers.length)
  have matrices : adapter.plain.loraA = adapter.loraA := rfl
  have targets : adapter.plain.layers = adapter.layers := rfl
  unfold merge Lora.merge
  rw [matrices, targets]
  split
  next => rfl
  next =>
    unfold LoraAdapter.forTargets
    rw [List.length_map, layers]
    cases (adapter.layers model.layers.length).foldlM (Lora.mergeLayer quotient adapter.plain)
      model.layers <;> rfl

theorem addTimes_grown {d : Tensor R} {n : ℕ} {w t : Tensor R}
    (done : addTimes (matrixOps quotient) (some d) n w = some t) : Tensor.Grown w t := by
  induction n generalizing w with
  | zero =>
    obtain rfl := Option.some.inj done
    exact .refl w
  | succ n ih =>
    obtain ⟨middle, first, rest⟩ := Option.bind_eq_some_iff.mp done
    exact (Tensor.grown_add first).trans (ih rest)

theorem addTimes_of_broadcast {d : Tensor R} {rows cols : ℕ} {x y : Matrix (Fin rows) (Fin cols) R}
    (fits : d.broadcast rows cols = some y) (n : ℕ) :
    addTimes (matrixOps quotient) (some d) n ⟨rows, cols, x⟩ = some ⟨rows, cols, x + n • y⟩ := by
  induction n generalizing x with
  | zero => rw [zero_nsmul, add_zero]; rfl
  | succ n ih =>
    have once : (matrixOps quotient).add ⟨rows, cols, x⟩ d = some ⟨rows, cols, x + y⟩ :=
      Tensor.add_of_broadcast (w := ⟨rows, cols, x⟩) fits
    simp only [addTimes, once, Option.bind_some, ih, succ_nsmul', add_assoc]

/-- A weight absorbs an update exactly when it is not added at all, or it fits into the shape of
the weight and its multiple is zero. -/
theorem addTimes_matrices_iff (w d : Tensor R) (n : ℕ) :
    addTimes (matrixOps quotient) (some d) n w = some w ↔
      n = 0 ∨ ∃ y, d.broadcast w.rows w.cols = some y ∧ n • y = 0 := by
  constructor
  · intro absorbed
    cases n with
    | zero => exact .inl rfl
    | succ n =>
      obtain ⟨middle, first, rest⟩ := Option.bind_eq_some_iff.mp absorbed
      -- the shape has not grown on the way
      have shape := (Tensor.grown_add first).antisymm (addTimes_grown quotient rest)
      obtain ⟨y, fits⟩ := Tensor.broadcast_of_add first shape
      have sum := addTimes_of_broadcast quotient (x := w.data) fits (n + 1)
      have same := eq_of_heq (Tensor.mk.inj (Option.some.inj (sum.symm.trans absorbed))).2.2
      exact .inr ⟨y, fits, add_eq_left.mp same⟩
  · rintro (rfl | ⟨y, fits, zero⟩)
    · rfl
    · have sum := addTimes_of_broadcast quotient (x := w.data) fits n
      rwa [zero, add_zero] at sum

end

def constant (x : ℤ) : Tensor ℤ := ⟨2, 2, Matrix.of fun _ _ => x⟩

def squareModel (x : ℤ) : LoadedProfiledModel (Tensor ℤ) := ⟨[⟨fun _ => constant x⟩]⟩

/-- An adapter of rank two for square weights, with the unit matrix and one of entries `b`. -/
def squareAdapter (b : ℤ) : LoraAdapter (Tensor ℤ) :=
  { LoraAdapter.new "style" 2 0x40000000 with
    targetModules := ["q_proj"]
    loraA := AList.singleton "0_q_proj_weight" ⟨2, 2, 1⟩
    loraB := AList.singleton "0_q_proj_weight" (constant b) }

theorem squareAdapter_created (b : ℤ) : Created (matrixOps fun _ _ => 1) (squareAdapter b) :=
  .edited _ "style" 2 0x40000000 [] ["q_proj"] _ _ (.new "style" 2 0x40000000)

theorem update?_squareAdapter (b : ℤ) :
    (squareAdapter b).update? (matrixOps fun _ _ => 1) 0 .q = some (constant b) := by
  have found : (squareAdapter b).matrices? 0 "q_proj" = some (⟨2, 2, 1⟩, constant b) := rfl
  have product : Tensor.matmul ⟨2, 2, 1⟩ (constant b) = some (constant b) := by
    rw [constant, Tensor.matmul_mk, Matrix.one_mul]
  have scaled : (constant b).scale 1 = constant b := by
    rw [constant, Tensor.scale, one_smul]
  unfold LoraAdapter.update?
  rw [Projection.name, found]
  simp only [matrixOps, Option.bind_eq_bind, Option.bind_some, product, scaled]

theorem merge_squareAdapter (b x : ℤ) : ∃ merged,
    merge (matrixOps fun _ _ => 1) (squareAdapter b) (squareModel x) = some merged := ⟨_, rfl⟩

/-- An update of zero is taken back. -/
theorem zero_restored : ∃ merged,
    merge (matrixOps fun _ _ => 1) (squareAdapter 0) (squareModel 5) = some merged ∧
      Restored (squareAdapter 0) (squareModel 5) merged := by
  obtain ⟨merged, ok⟩ := merge_squareAdapter 0 5
  refine ⟨merged, ok, (restored_iff _ _ (squareAdapter_created 0) _ merged ok).mpr ?_⟩
  intro l lw there p
  obtain ⟨rfl, rfl⟩ : l = 0 ∧ lw = ⟨fun _ => constant 5⟩ := by
    cases l with
    | zero => exact ⟨rfl, (Option.some.inj there).symm⟩
    | succ l => cases there
  cases p with
  | q =>
    rw [update?_squareAdapter]
    have fits := Tensor.broadcast_self 2 2 (constant 0).data
    exact (addTimes_matrices_iff _ (constant 5) (constant 0) _).mpr (.inr ⟨_, fits, rfl⟩)
  | _ => rfl

/-- An update of one stays after the reversal. -/
theorem one_not_restored :
    ¬ ∀ (ops : ArrayOps (Tensor ℤ)) (adapter : LoraAdapter (Tensor ℤ)), Created ops adapter →
      ∀ model merged, merge ops adapter model = some merged → Restored adapter model merged := by
  intro all
  have created := squareAdapter_created 1
  obtain ⟨merged, ok⟩ := merge_squareAdapter 1 0
  obtain ⟨unmerged, reversed, same⟩ := all _ _ created _ merged ok
  rw [created.unmerge_eq] at reversed
  obtain rfl := Option.some.inj reversed
  obtain ⟨lw', there, added⟩ := (merge_some ok).2 0 _ rfl
  have projections := congrArg (fun projections => projections[0]?) same
  simp only [List.getElem?_map, there, Option.map_some] at projections
  have absorbed := added .q
  rw [update?_squareAdapter, congrFun (Option.some.inj projections) .q] at absorbed
  -- zero with one on top would be zero
  rcases (addTimes_matrices_iff _ (constant 0) (constant 1) _).mp absorbed with
    never | ⟨y, fits, zero⟩
  · cases never
  · obtain rfl := Option.some.inj ((Tensor.broadcast_self 2 2 (constant 1).data).symm.trans fits)
    have one_zero : (1 : ℤ) • (1 : ℤ) = 0 :=
      congrFun (congrFun zero ⟨0, Nat.two_pos⟩) ⟨0, Nat.two_pos⟩
    cases one_zero

end TribunusCompute.Lora.Snapshots
