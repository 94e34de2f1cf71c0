import Mathlib.Data.List.Dedup
import Mathlib.Logic.Relation
import MlxTrainPerf.Lib.Budget
/-!
# Enabling the training path

`recurrent/wrapper.py`: the checks of `enable_gated_delta_training`, the proxy's
constructor, and the loop that puts one proxy after another in place. The constructor
has a refusal of its own, so a call can fail behind its first replacement.
-/
open Budget

namespace MlxTrainPerf.Recurrent

/-! ## The model -/

/-- What the wrapper reads of a linear-attention module and carries over. -/
structure Attrs where
  shardingGroup : Option ℕ
  noGrad : List String
  training : Bool
deriving DecidableEq, Repr

/-- A `linear_attn` object. `id` is its identity; a proxy bears that of the module it took the place of. -/
inductive LinearAttn
  | net (id : ℕ) (attrs : Attrs)
  | proxy (id : ℕ) (attrs : Attrs) (impl : String)
  | other (id : ℕ) (typeName : String)
deriving DecidableEq, Repr

/-- A decoder layer; a full-attention one has no `linear_attn`. -/
structure Layer where
  isLinear : Bool
  linearAttn : Option LinearAttn
deriving DecidableEq, Repr

/-- The text args, with their `num_experts`. -/
structure TextArgs where
  numExperts : Option ℤ
deriving DecidableEq, Repr

structure Model where
  moduleName : String
  /-- `model.language_model.model.layers`. -/
  layers : Option (List Layer)
  /-- `model.language_model.args`. -/
  args : Option TextArgs
  /-- The raw list at `model.args.text_config`. -/
  layerTypes : Option (List String)
deriving DecidableEq, Repr

/-- What the process brings along: whether mlx-lm is installed, and what `hasattr` says of a bare `nn.Module`. -/
structure Env where
  mlxLm : Bool
  moduleHas : String → Bool

/-! ## Errors -/

/-- `UnsupportedRecurrentError`, with what its text prints. -/
inductive Unsupported
  | qwen3Next
  | architecture (moduleName : String)
  | missingTrunk
  | missingArgs
  | missingNumExperts
  | moe
  | layerTypesLength (got expected : ℕ)
  | layerTypesDisagree (i : ℕ) (layerType : String) (isLinear : Bool)
  | alreadyEnabled
  | notGatedDelta (i : ℕ) (typeName : String)
  | sharded (i : ℕ)
  | noLinearLayers
  | frozenKeys (missing : List String)
deriving DecidableEq, Repr

/-- The two refusals, `RecurrentInputError` with the `impl` it prints, and what Python raises on its own. -/
inductive EnableError
  | unsupported (why : Unsupported)
  | input (impl : String)
  | importError
  | attributeError
deriving DecidableEq, Repr

/-! ## The checks -/

/-- `_VALID_IMPLS`. -/
def validImpls : List String := ["chunked", "sequential"]

/-- `_QWEN3_NEXT_MODULE`. -/
def qwen3NextModule : String := "mlx_lm.models.qwen3_next"

/-- `_QWEN35_MODULE`. -/
def qwen35Module : String := "mlx_lm.models.qwen3_5"

/-- `_require_qwen35`. -/
def requireQwen35 (model : Model) : Except EnableError Unit :=
  if model.moduleName = qwen35Module then .ok () else .error (.unsupported (.architecture model.moduleName))

/-- `text_model`, as its layers. -/
def textModel (model : Model) : Except EnableError (List Layer) := do
  requireQwen35 model
  match model.layers with
  | some layers => .ok layers
  | none => .error (.unsupported .missingTrunk)

def textArgs (model : Model) : Except EnableError TextArgs := do
  requireQwen35 model
  match model.args with
  | some args => .ok args
  | none => .error (.unsupported .missingArgs)

/-- `args.num_experts`, refused when positive. -/
def checkDense (args : TextArgs) : Except EnableError Unit :=
  match args.numExperts with
  | none => .error (.unsupported .missingNumExperts)
  | some n => if n > 0 then .error (.unsupported .moe) else .ok ()

/-- `_raw_layer_types`. -/
def rawLayerTypes (model : Model) (expectedLen : ℕ) : Except EnableError (Option (List String)) :=
  match model.layerTypes with
  | none => .ok none
  | some layerTypes =>
    if layerTypes.length ≠ expectedLen then .error (.unsupported (.layerTypesLength layerTypes.length expectedLen))
    else .ok (some layerTypes)

/-- `_gated_delta_net_class`. -/
def gatedDeltaNetClass (env : Env) : Except EnableError Unit := if env.mlxLm then .ok () else .error .importError

/-- `_check_layer_types_agree`. -/
def checkLayerTypesAgree (i : ℕ) (layer : Layer) (layerTypes : Option (List String)) : Except EnableError Unit :=
  match layerTypes with
  | none => .ok ()
  | some layerTypes =>
    let layerType := layerTypes.getD i ""
    if decide (layerType ≠ "full_attention") ≠ layer.isLinear then
      .error (.unsupported (.layerTypesDisagree i layerType layer.isLinear))
    else .ok ()

/-- `_select_linear_layer`. -/
def selectLinearLayer (i : ℕ) (layer : Layer) : Except EnableError Bool :=
  if layer.isLinear then
    match layer.linearAttn with
    | none => .error .attributeError
    | some (.proxy _ _ _) => .error (.unsupported .alreadyEnabled)
    | some (.other _ typeName) => .error (.unsupported (.notGatedDelta i typeName))
    | some (.net _ attrs) => if attrs.shardingGroup.isSome then .error (.unsupported (.sharded i)) else .ok true
  else .ok false

/-- `for i, layer in enumerate(layers)`, from layer `i` on. -/
def selectFrom (layerTypes : Option (List String)) : ℕ → List Layer → Except EnableError (List ℕ)
  | _, [] => .ok []
  | i, layer :: rest => do
    checkLayerTypesAgree i layer layerTypes
    let wanted ← selectLinearLayer i layer
    let selected ← selectFrom layerTypes (i + 1) rest
    return if wanted then i :: selected else selected

/-- Everything ahead of the replacing loop: the layers, and which of them it is to replace. -/
def checks (env : Env) (impl : String) (model : Model) : Except EnableError (List Layer × List ℕ) :=
  if impl ∉ validImpls then .error (.input impl)
  else if model.moduleName = qwen3NextModule then .error (.unsupported .qwen3Next)
  else do
    let layers ← textModel model
    let args ← textArgs model
    checkDense args
    let layerTypes ← rawLayerTypes model layers.length
    gatedDeltaNetClass env
    let selected ← selectFrom layerTypes 0 layers
    if selected = [] then .error (.unsupported .noLinearLayers) else .ok (layers, selected)

/-! ## The proxy -/

/-- The attributes the constructor copies before it looks at the frozen keys. -/
def copiedNames : List String :=
  ["in_proj_qkv", "in_proj_z", "in_proj_b", "in_proj_a", "conv1d", "norm", "out_proj", "A_log", "dt_bias",
    "num_v_heads", "num_k_heads", "head_k_dim", "head_v_dim", "key_dim", "value_dim", "conv_kernel_size", "conv_dim",
    "layer_norm_epsilon", "sharding_group"]

/-- The proxy's own methods. -/
def proxyMethods : List String := ["__init__", "_pre_norm", "__call__"]

/-- `hasattr(self, k)`, where the constructor asks. -/
def proxyHas (env : Env) (k : String) : Bool := decide (k ∈ copiedNames) || decide (k ∈ proxyMethods) || env.moduleHas k

/-- The frozen keys without an attribute on the proxy. -/
def missingKeys (env : Env) (original : Attrs) : List String := original.noGrad.filter fun k => !proxyHas env k

/-- `GatedDeltaTrainingProxy.__init__`, as what it carries over. -/
def proxyInit (env : Env) (original : Attrs) (impl : String) : Except EnableError Attrs :=
  if missingKeys env original ≠ [] then
    .error (.unsupported (.frozenKeys ((missingKeys env original).dedup.mergeSort fun a b => decide (a ≤ b))))
  else if impl = "chunked" then .ok original
  else if impl = "sequential" then if env.mlxLm then .ok original else .error .importError
  else .error (.input impl)

/-- The proxy for a layer's present `linear_attn`. -/
def proxyOf (env : Env) (impl : String) : Option LinearAttn → Except EnableError LinearAttn
  | some (.net id attrs) => (proxyInit env attrs impl).map fun carried => .proxy id carried impl
  | some (.proxy id attrs _) => (proxyInit env attrs impl).map fun carried => .proxy id carried impl
  | some (.other _ _) => .error .attributeError
  | none => .error .attributeError

/-- `for i in selected`, with the layers as far as they were replaced. -/
def replaceLayers (env : Env) (impl : String) : List ℕ → List Layer → Except EnableError Unit × List Layer
  | [], layers => (.ok (), layers)
  | i :: rest, layers =>
    match proxyOf env impl (layers.getD i ⟨false, none⟩).linearAttn with
    | .error e => (.error e, layers)
    | .ok proxy => replaceLayers env impl rest (layers.modify i fun layer => { layer with linearAttn := some proxy })

/-- `enable_gated_delta_training`: its result, and the model it leaves. -/
def enableGatedDeltaTraining (env : Env) (impl : String) (model : Model) : Except EnableError Unit × Model :=
  match checks env impl model with
  | .error e => (.error e, model)
  | .ok (layers, selected) =>
    ((replaceLayers env impl selected layers).1,
      { model with layers := some (replaceLayers env impl selected layers).2 })

end MlxTrainPerf.Recurrent
