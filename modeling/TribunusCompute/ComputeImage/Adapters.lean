import TribunusCompute.ComputeImage.Compiler

/-!
# Model adapters

What `load_source` asks of a source: every tensor of the specification has a shape and a dtype
that fit, and a model family claims the configuration and finds a tensor for each of its roles.
The canonical model that a family makes of the source is dropped, so that its tensors and its
architecture are left out.
-/
namespace TribunusCompute.ComputeImage

open Outcome

/-! ## Bindings -/

/-- Each dimension is the logical one, or a fourth of it, in 32-bit arithmetic. -/
def packsFour : List (ℕ × ℕ) → Outcome Bool
  | [] => .ok true
  | (actual, logical) :: rest =>
    if actual = logical then packsFour rest
    else do
      let unpacked ← Outcome.fit 32 (actual * 4)
      if unpacked = logical then packsFour rest else .ok false

def knownDtypes : List String := ["F32", "F64", "F16", "BF16", "I64", "U32", "I32", "I8", "U8"]

def checkBinding (sourceTensors : HashMap SourceTensor) (binding : TensorBinding) : Outcome Bool :=
  match sourceTensors.lookup binding.name with
  | none => .ok false
  | some t =>
    if t.shape = binding.logicalShape ∨ binding.packedShape.any (·.weight == t.shape) then
      .ok (knownDtypes.contains t.dtype)
    else if t.dtype = "U32" ∧ t.shape.length = binding.logicalShape.length then
      packsFour (t.shape.zip binding.logicalShape)
    else .ok false

/-- `validate_bindings_from_map`, and what is reported where its verdict is not `executable`. -/
def validateBindings (loaded : LoadedSource) : Outcome Unit := do
  let statuses ← loaded.spec.bindings.mapM (checkBinding loaded.sourceTensors)
  let errors := statuses.count false
  Outcome.require (errors = 0 ∧ statuses ≠ [])
    ("source checkpoint failed validation: " ++ toString errors ++ " errors across " ++
      toString statuses.length ++ " expected tensors")

/-! ## Families -/

/-- The roles without which a source is refused. -/
inductive CanonicalRole
  | embedding
  | finalNorm
  | attnNorm (layer : ℕ)
  | q (layer : ℕ)
  | k (layer : ℕ)
  | v (layer : ℕ)
  | o (layer : ℕ)
  | mlpNorm (layer : ℕ)
  | gate (layer : ℕ)
  | up (layer : ℕ)
  | down (layer : ℕ)
  deriving DecidableEq, Repr

def CanonicalRole.display : CanonicalRole → String
  | embedding => "Embedding"
  | finalNorm => "FinalNorm"
  | attnNorm i => "AttnNorm(" ++ toString i ++ ")"
  | q i => "Q(" ++ toString i ++ ")"
  | k i => "K(" ++ toString i ++ ")"
  | v i => "V(" ++ toString i ++ ")"
  | o i => "O(" ++ toString i ++ ")"
  | mlpNorm i => "MlpNorm(" ++ toString i ++ ")"
  | gate i => "Gate(" ++ toString i ++ ")"
  | up i => "Up(" ++ toString i ++ ")"
  | down i => "Down(" ++ toString i ++ ")"

/-- The numbers of `config.json` that decide whether an adapter takes a source. -/
structure SourceConfig where
  modelType : Option String
  numHiddenLayers : Option ℕ
  numAttentionHeads : Option ℕ
  slidingWindow : Option ℕ
  deriving DecidableEq, Repr

/-- A number as the adapters read it: cut to 32 bits, and zero where there is none. -/
def num (n : Option ℕ) : ℕ := n.getD 0 % 2 ^ 32

def contains (text part : String) : Bool := decide (part.toList <:+: text.toList)

structure ModelFamilyAdapter where
  familyName : String
  claimedConfigTypes : List String
  detect : SourceConfig → List String → Bool
  /-- `h / n_heads` is computed, whether or not it is needed. -/
  dividesHeads : Bool
  /-- The root of the global tensors, that of the layers, and the names of the embedding and the
  norm under the first. -/
  roots : List String → String × String
  embeddings : List String
  finalNorms : List String

def hasQProj (names : List String) : Bool :=
  names.any (contains · ".self_attn.q_proj.weight")

/-- A family with its tensors under `model`. -/
def modelAdapter (familyName : String) (claimedConfigTypes : List String)
    (detect : SourceConfig → List String → Bool) : ModelFamilyAdapter where
  familyName
  claimedConfigTypes
  detect
  dividesHeads := true
  roots := fun _ => ("model", "model.layers")
  embeddings := ["embed_tokens"]
  finalNorms := ["norm"]

def qwen2Adapter : ModelFamilyAdapter := modelAdapter "qwen2" ["qwen2"] fun config names =>
  config.modelType == some "qwen2" && hasQProj names

def llamaAdapter : ModelFamilyAdapter := modelAdapter "llama" ["llama"] fun config names =>
  config.modelType == some "llama" && hasQProj names

def mistralAdapter : ModelFamilyAdapter := modelAdapter "mistral" ["mistral"] fun config _ =>
  config.modelType == some "mistral" && config.slidingWindow.isSome

def gemmaAdapter : ModelFamilyAdapter :=
  { modelAdapter "gemma" ["gemma", "gemma2"] fun config names =>
      config.modelType.any (startsWith "gemma") && hasQProj names with
    dividesHeads := false }

def phiAdapter : ModelFamilyAdapter :=
  { modelAdapter "phi" ["phi", "phi3", "phimoe"] fun config names =>
      config.modelType.any (startsWith "phi") &&
        (hasQProj names || names.any (contains · "transformer.h.")) with
    roots := fun names =>
      if names.contains "model.embed_tokens.weight" || names.contains "model.lm_head.weight" ||
          names.any (startsWith "model.layers.") then ("model", "model.layers")
      else ("transformer", "transformer.h")
    embeddings := ["embed_tokens", "wte"]
    finalNorms := ["norm", "ln_f"] }

/-- `AdapterRegistry::new`. -/
def adapters : List ModelFamilyAdapter :=
  [qwen2Adapter, llamaAdapter, mistralAdapter, gemmaAdapter, phiAdapter]

namespace ModelFamilyAdapter

variable (adapter : ModelFamilyAdapter)

/-- The names under which the adapter looks for each role, one after another. -/
def layerKeys (root : String) (i : ℕ) : List (CanonicalRole × List String) :=
  [(.attnNorm i, "input_layernorm"), (.q i, "self_attn.q_proj"), (.k i, "self_attn.k_proj"),
    (.v i, "self_attn.v_proj"), (.o i, "self_attn.o_proj"),
    (.mlpNorm i, "post_attention_layernorm"), (.gate i, "mlp.gate_proj"),
    (.up i, "mlp.up_proj"), (.down i, "mlp.down_proj")].map fun (role, stem) =>
      (role, [root ++ "." ++ toString i ++ "." ++ stem ++ ".weight"])

def roleKeys (config : SourceConfig) (names : List String) : List (CanonicalRole × List String) :=
  let (root, layerRoot) := adapter.roots names
  let globals := List.map fun stem => root ++ "." ++ stem ++ ".weight"
  [(.embedding, globals adapter.embeddings), (.finalNorm, globals adapter.finalNorms)] ++
    (List.range (num config.numHiddenLayers)).flatMap (layerKeys layerRoot)

/-- `normalize`, with the report that names the missing roles. -/
def normalize (config : SourceConfig) (names : List String) : Outcome Unit := do
  Outcome.assert (adapter.dividesHeads → num config.numAttentionHeads ≠ 0)
  let missing := (adapter.roleKeys config names).filter fun keys =>
    !keys.2.any names.contains
  Outcome.require (missing = [])
    ("normalization failed for family '" ++ adapter.familyName ++ "':\n  missing roles: " ++
      ", ".intercalate (missing.map (·.1.display)) ++ "\n")

def claims (config : SourceConfig) (names : List String) : Bool :=
  adapter.claimedConfigTypes.contains (config.modelType.getD "unknown") &&
    adapter.detect config names

end ModelFamilyAdapter

/-- `AdapterRegistry::select`: the first family that claims the source. -/
def select (config : SourceConfig) (names : List String) : Outcome ModelFamilyAdapter :=
  Outcome.orReport ("unsupported model_type '" ++ config.modelType.getD "unknown" ++
      "': no adapter matched. Candidates:\n  " ++
      "\n  ".intercalate (adapters.map fun adapter =>
        adapter.familyName ++ " (type_match=" ++
          toString (adapter.claimedConfigTypes.contains (config.modelType.getD "unknown")) ++
          ", detect=" ++ toString (adapter.detect config names) ++ ")"))
    (adapters.find? fun adapter => adapter.claims config names)

/-- What `load_source` checks of a source with this configuration, unless it is told not to. -/
def validateSource (config : SourceConfig) (loaded : LoadedSource) : Outcome Unit := do
  validateBindings loaded
  let adapter ← select config loaded.sourceTensors.keys
  adapter.normalize config loaded.sourceTensors.keys

/-! ## A checkpoint of the Llama family -/

def llamaConfig (layers : ℕ) : SourceConfig := ⟨some "llama", some layers, some 1, none⟩

/-- Tensors of zeros, one behind the other. -/
def viewsFrom : ℕ → List (String × String × List ℕ × ℕ) → List TensorView
  | _, [] => []
  | start, (name, dtype, shape, size) :: rest =>
    ⟨name, dtype, shape, start, List.replicate size 0⟩ :: viewsFrom (start + size) rest

/-- A matrix of four columns in words of four, with a scale and a bias for each row. -/
def packedMatrix (name : String) : List (String × String × List ℕ × ℕ) :=
  [(name ++ ".biases", "F16", [4, 1], 8), (name ++ ".scales", "F16", [4, 1], 8),
    (name ++ ".weight", "U32", [4, 1], 16)]

/-- A complete checkpoint with the tensors of one layer and the one shard with this hash, whose
configuration has layers of these kinds. -/
def llamaCheckpoint (kinds : List AttentionKind) (tied : Bool) (sha256 : String) : Checkpoint where
  config := ({ smallArchitecture kinds with
      hiddenSize := 4
      intermediateSize := 4
      headDim := 4
      tieWordEmbeddings := tied
      attentionKEqV := true
      modelType := "llama" }, some ⟨8, 4, .affine⟩,
    ⟨"", "llama", some 8, some 4, some "Affine", none, none⟩)
  shards := [⟨"model.safetensors", sha256, viewsFrom 0 <|
    -- by name, so that sorting them has nothing to do
    packedMatrix "model.embed_tokens" ++
    [("model.layers.0.input_layernorm.weight", "F16", [4], 8)] ++
    ["mlp.down_proj", "mlp.gate_proj", "mlp.up_proj"].flatMap (fun stem =>
      packedMatrix ("model.layers.0." ++ stem)) ++
    [("model.layers.0.post_attention_layernorm.weight", "F16", [4], 8)] ++
    ["self_attn.k_proj", "self_attn.o_proj", "self_attn.q_proj", "self_attn.v_proj"].flatMap
      (fun stem => packedMatrix ("model.layers.0." ++ stem)) ++
    (if tied then [] else [("model.lm_head.weight", "F16", [4, 4], 32)]) ++
    [("model.norm.weight", "F16", [4], 8)]⟩]
  tokenizerHashes := []
  auxiliaryHashes := []

end TribunusCompute.ComputeImage
