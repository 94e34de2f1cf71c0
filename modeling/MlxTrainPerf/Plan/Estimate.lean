import MlxTrainPerf.Memfit.Model
/-!
# The fit planner

`plan/estimate.py`, the path of an estimate. Ints are exact and every float operation
rounds. A warning changes no number, so the public entry points differ from the inner
ones only in validating first.
-/
open Budget MlxTrainPerf.Memfit

namespace MlxTrainPerf.Plan

inductive Dtype
  | float32
  | bfloat16
  | float16
  | other (name : String)
deriving DecidableEq, Repr

inductive Impl
  | naive
  | chunked
  | kernel
  | other (name : String)
deriving DecidableEq, Repr

inductive Attention
  | stock
  | flash
  | other (name : String)
deriving DecidableEq, Repr

/-- `PlanInputError`, with its text or with the value it prints, the planner's
`DoesNotFitError`, and what Python raises on its own. -/
inductive PlanError
  | input (msg : String)
  | unknownDtype (name : String)
  | unknownImpl (name : String)
  | unknownAttention (name : String)
  | doesNotFit (msg : String)
  | zeroDivision
deriving DecidableEq, Repr

/-- `_CHUNK_TILE`. -/
def chunkTile : ℤ := 8192

/-- `_LORA_MODULES`. -/
def loraModules : ℤ := 2

/-- `_LORA_MATRICES`. -/
def loraMatrices : ℤ := 2

structure ModelShape where
  vocab : ℤ
  hidden : ℤ
  layers : ℤ
  intermediate : ℤ
  heads : ℤ
  kvHeads : ℤ
  tied : Bool
  quantBits : Option ℤ
  quantGroup : Option ℤ

/-- `param_count`. -/
def ModelShape.paramCount (shape : ModelShape) : Except PlanError ℤ :=
  let d := shape.hidden
  let embed := shape.vocab * d
  let head := if shape.tied then 0 else shape.vocab * d
  if shape.heads = 0 then .error .zeroDivision
  else
    let attn := (2 * d * d * (shape.heads + shape.kvHeads)).fdiv shape.heads
    let mlp := 3 * d * shape.intermediate
    let norms := 2 * d
    .ok (embed + head + shape.layers * (attn + mlp + norms) + d)

structure TrainConfig where
  batch : ℤ
  seqLen : ℤ
  dtype : Dtype
  loraRank : ℤ
  loraLayers : ℤ
  gradCheckpoint : Bool
  impl : Impl
  attention : Attention
deriving DecidableEq, Repr

structure Calibration where
  baseTransientBytes : ℚ
  actBytesPerTokenHiddenLayerCkpt : ℚ
  actBytesPerTokenHiddenLayerFull : ℚ
  attnBytesPerHeadToken2 : ℚ
  attnBytesPerHeadTokenFlashKernel : ℚ
  attnBytesPerHeadTokenFlashStock : ℚ
  optimizerBytesPerParam : ℚ
  overheadFrac : ℚ
  naiveLossBytesPerNv : ℚ
  provenance : List (String × String)

structure FitReport where
  fits : Bool
  predictedPeakBytes : ℤ
  budgetBytes : ℤ
  headroomBytes : ℤ
  components : List (String × ℤ)
  suggestion : Option TrainConfig
  isEstimate : Bool
  provenance : List (String × String)

/-! ## The terms -/

/-- `_dtype_bytes`. -/
def dtypeBytes : Dtype → Except PlanError ℤ
  | .float32 => .ok 4
  | .bfloat16 => .ok 2
  | .float16 => .ok 2
  | .other name => .error (.unknownDtype name)

section Terms
variable (R : Rounding) (shape : ModelShape) (calib : Calibration) (cfg : TrainConfig)

/-- `_weights_bytes`. -/
def weightsBytes (dtypeSize : ℤ) : Except PlanError ℤ := do
  let pTotal ← shape.paramCount
  match shape.quantBits, shape.quantGroup with
  | some bits, some group =>
    if group = 0 then .error .zeroDivision
    else .ok (Rounding.trunc (R.mul (R.ofInt pTotal) (R.add (R.div bits 8) (R.div 4 group))))
  | _, _ => .ok (pTotal * dtypeSize)

/-- `_lora_param_count`. -/
def loraParamCount : ℤ := cfg.loraLayers * loraModules * loraMatrices * cfg.loraRank * shape.hidden

/-- `_lora_bytes`. -/
def loraBytes : ℤ := loraParamCount shape cfg * 2

/-- `_optimizer_bytes`. -/
def optimizerBytes : ℤ := Rounding.trunc (R.scale calib.optimizerBytesPerParam [loraParamCount shape cfg])

/-- `_activation_bytes`. -/
def activationBytes : ℤ :=
  let aLin := if cfg.gradCheckpoint then calib.actBytesPerTokenHiddenLayerCkpt else calib.actBytesPerTokenHiddenLayerFull
  Rounding.trunc (R.scale aLin [cfg.batch, cfg.seqLen, shape.hidden, shape.layers])

/-- `_flash_saved_state_bytes`. -/
def flashSavedStateBytes : Except PlanError ℤ := do
  let size ← dtypeBytes cfg.dtype
  return cfg.batch * cfg.seqLen * shape.hidden * size + cfg.batch * shape.heads * cfg.seqLen * 4

/-- The coefficient of the loss arm. -/
def aFlash : Except PlanError ℚ :=
  match cfg.impl with
  | .kernel => .ok calib.attnBytesPerHeadTokenFlashKernel
  | .chunked => .ok calib.attnBytesPerHeadTokenFlashStock
  | .naive => .ok calib.attnBytesPerHeadTokenFlashStock
  | .other name => .error (.unknownImpl name)

/-- `_attention_bytes`. -/
def attentionBytes : Except PlanError ℤ :=
  match cfg.attention with
  | .stock => .ok (Rounding.trunc (R.scale calib.attnBytesPerHeadToken2 [cfg.batch, shape.heads, cfg.seqLen ^ 2]))
  | .flash => do
    let a ← aFlash calib cfg
    let saved ← flashSavedStateBytes shape cfg
    return Rounding.trunc (R.add (R.ofInt saved) (R.scale a [cfg.batch, shape.heads, cfg.seqLen]))
  | .other name => .error (.unknownAttention name)

/-- `_head_trainable`. -/
def headTrainable : Bool := cfg.loraRank == 0

/-- `_loss_bytes`. -/
def lossBytes : Except PlanError ℤ := do
  let n := cfg.batch * cfg.seqLen
  let base ← match cfg.impl with
    | .naive => .ok (Rounding.trunc (R.scale calib.naiveLossBytesPerNv [n, shape.vocab]))
    | .chunked => .ok (n * chunkTile * 4 * 3)
    | .kernel => .ok (3 * n * 4)
    | .other name => .error (.unknownImpl name)
  return if headTrainable cfg then base + shape.vocab * shape.hidden * 4 * 2 else base

end Terms

/-! ## The estimate -/

def loraLayersMsg (n : ℤ) : String := s!"lora_layers must be >= 0, or -1 for every layer (got {n})"

/-- `_resolve_lora_layers`. -/
def resolveLoraLayers (cfg : TrainConfig) (shape : ModelShape) : Except PlanError TrainConfig :=
  if cfg.loraLayers = -1 then .ok { cfg with loraLayers := shape.layers }
  else if cfg.loraLayers < -1 then .error (.input (loraLayersMsg cfg.loraLayers))
  else .ok cfg

/-- A field under its least value. -/
def leastMsg (field : String) (least got : ℤ) : String := s!"{field} must be >= {least} (got {got})"

/-- `_validate_cfg`. -/
def validateCfg (cfg : TrainConfig) : Except PlanError Unit :=
  if cfg.batch < 1 then .error (.input (leastMsg "batch" 1 cfg.batch))
  else if cfg.seqLen < 1 then .error (.input (leastMsg "seq_len" 1 cfg.seqLen))
  else if cfg.loraRank < 0 then .error (.input (leastMsg "lora_rank" 0 cfg.loraRank))
  else .ok ()

section Estimate
variable (R : Rounding) (shape : ModelShape) (calib : Calibration)

/-- The terms of the train step, in their order. -/
def trainStepTerms : List (String × (TrainConfig → Except PlanError Number)) :=
  [("weights", fun cfg => (dtypeBytes cfg.dtype >>= weightsBytes R shape).map .int),
    ("base", fun _ => .ok (.int (Rounding.trunc calib.baseTransientBytes))),
    ("lora", fun cfg => .ok (.int (loraBytes shape cfg))),
    ("optimizer", fun cfg => .ok (.int (optimizerBytes R shape calib cfg))),
    ("activations", fun cfg => .ok (.int (activationBytes R shape calib cfg))),
    ("attention", fun cfg => (attentionBytes R shape calib cfg).map .int),
    ("loss", fun cfg => (lossBytes R shape calib cfg).map .int)]

/-- `_train_step_model`. -/
def trainStepModel : Except (MemfitError PlanError) (MemoryModel PlanError TrainConfig) :=
  MemoryModel.mk? [⟨"train_step", trainStepTerms R shape calib⟩] calib.overheadFrac

/-- `_estimate_peak`. -/
def estimatePeak (cfg : TrainConfig) : Except (MemfitError PlanError) (ℤ × List (String × ℤ)) := do
  (validateCfg cfg).mapError .raised
  let model ← trainStepModel R shape calib
  let resolved ← (resolveLoraLayers cfg shape).mapError .raised
  let est ← estimate R model resolved
  return (est.peakBytes, (est.components.lookup "train_step").getD [])

/-- `_warned_estimate_peak`. -/
def warnedEstimatePeak (cfg : TrainConfig) : Except (MemfitError PlanError) (ℤ × List (String × ℤ)) := do
  (validateCfg cfg).mapError .raised
  estimatePeak R shape calib cfg

end Estimate

/-! ## `plan_fit` -/

/-- `batch` halved down to 1. -/
def batchRungs (batch : ℤ) : List ℤ :=
  if 1 < batch then max 1 (batch / 2) :: batchRungs (max 1 (batch / 2)) else []
termination_by batch.toNat
decreasing_by omega

/-- `seq_len` stepped down by 1024, with floor 1024. -/
def seqRungs (seqLen : ℤ) : List ℤ :=
  if 1024 < seqLen then max 1024 (seqLen - 1024) :: seqRungs (max 1024 (seqLen - 1024)) else []
termination_by seqLen.toNat
decreasing_by omega

/-- `_suggestion_candidates`. -/
def suggestionCandidates (cfg : TrainConfig) : List TrainConfig :=
  ((batchRungs cfg.batch).map fun b => { cfg with batch := b }) ++
    (seqRungs cfg.seqLen).map fun s => { cfg with batch := 1, seqLen := s }

section PlanFit
variable (R : Rounding) (shape : ModelShape) (calib : Calibration)

/-- The search of `_find_fit`. -/
def findFit (budgetBytes : ℤ) : List TrainConfig → Except (MemfitError PlanError) (Option TrainConfig)
  | [] => .ok none
  | candidate :: rest => do
    let (peak, _) ← estimatePeak R shape calib candidate
    if peak ≤ budgetBytes then return some candidate else findFit budgetBytes rest

/-- `plan_fit`, where `wired` is the device's own cap for a call without a budget. -/
def planFit (wired : ℤ) (cfg : TrainConfig) (budgetBytes : Option ℤ) : Except (MemfitError PlanError) FitReport := do
  (validateCfg cfg).mapError .raised
  let budget := budgetBytes.getD wired
  let (peak, components) ← estimatePeak R shape calib cfg
  let fits := decide (peak ≤ budget)
  let suggestion ← if fits then pure none else findFit R shape calib budget (suggestionCandidates cfg)
  return ⟨fits, peak, budget, budget - peak, components, suggestion, true, calib.provenance⟩

end PlanFit
end MlxTrainPerf.Plan
