import MlxTrainPerf.Adapters.Trunk
import MlxTrainPerf.Core.KernelLoss
import MlxTrainPerf.Recurrent.Wrapper
/-!
# The trainer's loss callables

`split_model`, and the closures `make_loss_fn` and `make_packed_loss_fn` return. A
closure resolves its implementation on its first call and keeps it; everything else
it takes from the model it is called with. Over any run of calls each loss that is
returned is that of its own call.
-/
open XReal

namespace MlxTrainPerf.Adapters

open Attention
open MlxTrainPerf.Core

/-- What the adapter raises, and what becomes of a `PackedMask` in an attention that is not wrapped. -/
inductive AdapterError
  | adapter (msg : String)
  | recurrent (msg : String)
  | attribute
  | stock (layer : ℕ) (typeName : String)
  | attention (e : AttentionError)
  | loss (e : LossError)

/-! ## `split_model` -/

/-- A quantized projection or embedding, as its module holds it. -/
structure QuantizedModule where
  mode : String
  v : ℕ
  words : ℕ
  weight : ℕ → ℕ → ℕ
  scales : ℕ → ℕ → ℝ
  biases : Option (ℕ → ℕ → ℝ)
  groupSize : ℤ
  bits : ℤ
  v_int32 : v < 2 ^ 31

/-- An output projection, or the embedding that stands in for one. -/
inductive HeadModule
  | linear (head : DenseHead) (trainable : Bool)
  | quantizedLinear (q : QuantizedModule)
  | embedding (head : DenseHead) (trainable : Bool)
  | quantizedEmbedding (q : QuantizedModule)
  | other (typeName : String)

/-- `type(module).__name__`. -/
def HeadModule.typeName : HeadModule → String
  | linear _ _ => "Linear"
  | quantizedLinear _ => "QuantizedLinear"
  | embedding _ _ => "Embedding"
  | quantizedEmbedding _ => "QuantizedEmbedding"
  | other typeName => typeName

/-- A `HeadRef`, and `trainable` of a dense one. -/
structure SplitHead where
  head : HeadRef
  trainable : Bool

def modeMsg (mode : String) : String :=
  s!"quantized head/embedding mode '{mode}' is not supported; only mode='affine' quantized heads are supported " ++
    "(the only mode this project's kernel and chunked paths implement)"

def biasesMsg : String :=
  "quantized head/embedding has no biases (mode without biases); mlx_train_perf's QuantizedHead requires biases"

def headTypeMsg (typeName : String) : String :=
  s!"unsupported head module type '{typeName}'; expected nn.Linear or nn.QuantizedLinear"

def embeddingTypeMsg (typeName : String) : String :=
  s!"unsupported embedding module type '{typeName}'; expected nn.Embedding or nn.QuantizedEmbedding"

/-- `_quantized_head`. -/
def quantizedHead (q : QuantizedModule) : Except AdapterError SplitHead :=
  if q.mode ≠ "affine" then .error (.adapter (modeMsg q.mode))
  else match q.biases with
    | none => .error (.adapter biasesMsg)
    | some biases => .ok ⟨.quantized ⟨q.v, q.words, q.weight, q.scales, biases, q.groupSize, q.bits, q.v_int32⟩, false⟩

/-- `_head_from_module`. -/
def headFromModule : HeadModule → Except AdapterError SplitHead
  | .quantizedLinear q => quantizedHead q
  | .linear head trainable => .ok ⟨.dense head, trainable⟩
  | module => .error (.adapter (headTypeMsg module.typeName))

/-- `_tied_head_from_embedding`. -/
def tiedHeadFromEmbedding : HeadModule → Except AdapterError SplitHead
  | .quantizedEmbedding q => quantizedHead q
  | .embedding head trainable => .ok ⟨.dense head, trainable⟩
  | module => .error (.adapter (embeddingTypeMsg module.typeName))

/-- A layer, wrapped or with the attention mlx-lm gave it. -/
inductive LayerModule
  | wrapped (l : Layer)
  | stock (typeName : String)

/-- What a qwen3_5 `language_model` holds: `tie_word_embeddings` of its `args`, `embed_tokens` of its `model`, and
its `lm_head`. An attribute that is missing is `none`. -/
structure LanguageModel where
  tied : Option (Option Bool)
  embedTokens : Option (Option HeadModule)
  lmHead : Option HeadModule

/-- An mlx-lm model: the tree of llama, qwen2 and qwen3, or qwen3_5's. -/
structure LmModel where
  moduleName : String
  embedTokens : ℤ → Vec
  layers : List LayerModule
  norm : Vec → Vec
  width : ℕ
  dtype : Dtype
  tied : Bool
  embedding : HeadModule
  lmHead : HeadModule
  languageModel : Option LanguageModel

/-- `_SUPPORTED_FAMILIES`, without the family that is nested differently. -/
def supportedModules : List String := ["mlx_lm.models.llama", "mlx_lm.models.qwen2", "mlx_lm.models.qwen3"]

def missingMsg (path : String) : String := s!"qwen3_5 model is missing {path}"

/-- `families.model_head`. -/
def modelHead (lm : Option LanguageModel) : Except AdapterError (HeadModule × Bool) :=
  match lm.bind LanguageModel.tied with
  | none => .error (.recurrent (missingMsg "model.language_model.args"))
  | some none => .error (.recurrent "qwen3_5 model's text args are missing tie_word_embeddings")
  | some (some true) =>
    match lm.bind LanguageModel.embedTokens with
    | none => .error (.recurrent (missingMsg "model.language_model.model"))
    | some none => .error (.recurrent (missingMsg "model.language_model.model.embed_tokens"))
    | some (some module) => .ok (module, true)
  | some (some false) =>
    match lm.bind LanguageModel.lmHead with
    | none => .error (.recurrent (missingMsg "model.language_model.lm_head"))
    | some module => .ok (module, false)

/-- The branch of `split_model` for a qwen3_5 model. -/
def splitQwen35 (m : LmModel) : Except AdapterError SplitHead :=
  match m.languageModel.bind LanguageModel.embedTokens with
  | none => .error (.recurrent (missingMsg "model.language_model.model"))
  | some _ => do
    let (module, tied) ← modelHead m.languageModel
    if tied then tiedHeadFromEmbedding module else headFromModule module

def architectureMsg (moduleName : String) : String :=
  s!"unsupported model architecture (module '{moduleName}'); mlx_train_perf's mlx-lm adapter supports: " ++
    "llama, qwen2, qwen3, qwen3_5"

/-- The head `split_model` returns. -/
def splitModel (m : LmModel) : Except AdapterError SplitHead :=
  if m.moduleName = Recurrent.qwen35Module then splitQwen35 m
  else if m.moduleName ∉ supportedModules then .error (.adapter (architectureMsg m.moduleName))
  else if m.tied then tiedHeadFromEmbedding m.embedding
  else headFromModule m.lmHead

/-! ## Construction -/

def packedQwen35Msg : String :=
  "make_packed_loss_fn does not support qwen3_5: sequence packing threads a PackedMask through the flash-attention " ++
    "wrapper's self-attention layers, and qwen3_5's recurrent GatedDelta layers are not wrapped by it"

def unwrappedMsg (layer : ℕ) (typeName : String) : String :=
  s!"make_packed_loss_fn requires enable_flash_attention(model) first; layer {layer} self_attn is '{typeName}'"

/-- The layers, or what becomes of the first that is not wrapped. -/
def wrappedLayers (refuse : ℕ → String → AdapterError) (layers : List LayerModule) : Except AdapterError (List Layer) :=
  layers.zipIdx.mapM fun lk => match lk.1 with
    | .wrapped l => .ok l
    | .stock typeName => .error (refuse lk.2 typeName)

/-- What `make_loss_fn` checks. -/
def checkModel (m : LmModel) : Except AdapterError Unit := (splitModel m).map fun _ => ()

/-- What `make_packed_loss_fn` checks. -/
def checkPackedModel (m : LmModel) : Except AdapterError Unit := do
  if m.moduleName = Recurrent.qwen35Module then .error (.adapter packedQwen35Msg)
  else
    checkModel m
    let _ ← wrappedLayers (fun i typeName => .adapter (unwrappedMsg i typeName)) m.layers
    return ()

/-! ## A call -/

/-- `loss, ntoks`. -/
structure LossOut where
  loss : XReal
  ntoks : ℕ

/-- A call: the hidden states of its model's trunk, `b` rows of `n` targets, and the mask. -/
structure Step where
  model : LmModel
  b : ℕ
  n : ℕ
  hidden : Except AdapterError Rows
  targets : ℕ → ℕ → ℤ
  mask : ℕ → ℕ → Bool

/-- The `impl` that `linear_cross_entropy` is called with. -/
def implOf : ResolvedImpl → Impl
  | .kernel => .kernel
  | .chunked => .chunked
  | .naive => .naive

/-- `if resolved_impl is None: resolved_impl = resolve_impl(..).impl`. -/
def resolveOnce (dev : Device) (impl : Impl) (allowUnverified : Bool) (head : HeadRef) (dtype : Dtype) (rows : ℕ)
    (resolved : Option ResolvedImpl) : Except LossError ResolvedImpl :=
  match resolved with
  | some r => .ok r
  | none => (resolveImpl dev.mlxVersion head dtype rows impl allowUnverified).map Resolution.impl

noncomputable section

/-- The call of `linear_cross_entropy`. -/
def Step.lossCall (s : Step) (head : HeadRef) (hidden : Rows) (impl : Impl) : LossCall where
  hidden := ⟨[s.b, s.n, s.model.width], s.model.dtype, fun row => hidden (row / s.n) (row % s.n)⟩
  head := head
  targets := ⟨[s.b, s.n], .int32, fun row => s.targets (row / s.n) (row % s.n)⟩
  impl := impl
  chunkSize := none
  reduction := .none
  validateTargets := false

/-- `nll` of the rows; the reduction is `none`. -/
def nllOf : LossValue → List XReal
  | .rows _ nll => nll
  | .scalar _ => []

/-- `mask`, row by row. -/
def Step.maskAt (s : Step) (row : ℕ) : Bool := s.mask (row / s.n) (row % s.n)

/-- `mask.sum()`. -/
def Step.ntoks (s : Step) : ℕ := ((List.range (s.b * s.n)).filter s.maskAt).length

/-- `(nll * mask).sum() / ntoks`. -/
def Step.masked (s : Step) (nll : ℕ → XReal) : LossOut where
  loss := (∑ row ∈ Finset.range (s.b * s.n), nll row * real (if s.maskAt row then 1 else 0)) * (real s.ntoks).recip
  ntoks := s.ntoks

/-- What a loss closure does with a call; a resolved implementation stays, whatever comes after. -/
def lossStep (dequantize : Dequantize) (dev : Device) (impl : Impl) (allowUnverified : Bool)
    (resolved : Option ResolvedImpl) (s : Step) : Except AdapterError LossOut × Option ResolvedImpl :=
  match splitModel s.model, s.hidden with
  | .error e, _ => (.error e, resolved)
  | .ok _, .error e => (.error e, resolved)
  | .ok split, .ok hidden =>
    match resolveOnce dev impl allowUnverified split.head s.model.dtype (s.b * s.n) resolved with
    | .error e => (.error (.loss e), resolved)
    | .ok r =>
      let out := (lossOn dequantize dev false (s.lossCall split.head hidden (implOf r))).mapError .loss
      (out.map fun value => s.masked fun row => (nllOf value).getD row nan, some r)

/-- A run of a closure. -/
def runLossFn (dequantize : Dequantize) (dev : Device) (impl : Impl) (allowUnverified : Bool) :
    Option ResolvedImpl → List Step → List (Except AdapterError LossOut)
  | _, [] => []
  | resolved, s :: steps =>
    let out := lossStep dequantize dev impl allowUnverified resolved s
    out.1 :: runLossFn dequantize dev impl allowUnverified out.2 steps

/-- A row's loss in a call. -/
def Step.nll (dequantize : Dequantize) (s : Step) (head : HeadRef) (hidden : Rows) (row : ℕ) : ℝ :=
  ((s.lossCall head hidden .naive).args dequantize).nll row

/-- What a call of a closure gives when it gives a loss: the mean, over the rows its mask keeps, of their losses. -/
def Step.IsLoss (dequantize : Dequantize) (s : Step) (out : LossOut) : Prop :=
  ∃ split hidden, splitModel s.model = .ok split ∧ s.hidden = .ok hidden ∧
    out = s.masked fun row => real (s.nll dequantize split.head hidden row)

end

/-- Packed words are `uint32`, and the targets are ids of the vocabulary: the closures do not look. -/
structure Step.Fits (s : Step) : Prop where
  words : ∀ split, splitModel s.model = .ok split → ∀ head, split.head = .quantized head → ∀ r w, head.wQ r w < 2 ^ 32
  targets : ∀ split, splitModel s.model = .ok split → ∀ row < s.b * s.n,
    0 ≤ s.targets (row / s.n) (row % s.n) ∧ s.targets (row / s.n) (row % s.n) < split.head.v

section Run
variable {dequantize : Dequantize} {dev : Device} {impl : Impl} {allowUnverified : Bool} {resolved : Option ResolvedImpl}
  {s : Step} {out : LossOut}

theorem lossCall_rows (s : Step) (head : HeadRef) (hidden : Rows) (impl : Impl) :
    (s.lossCall head hidden impl).rows = s.b * s.n := by
  simp [LossCall.rows, LossCall.leading, Step.lossCall]

/-- A call that gives a loss has split its model, walked its trunk, and resolved an implementation that it keeps. -/
theorem lossStep_eq_ok (h : (lossStep dequantize dev impl allowUnverified resolved s).1 = .ok out) :
    ∃ split hidden r value, splitModel s.model = .ok split ∧ s.hidden = .ok hidden ∧
      resolveOnce dev impl allowUnverified split.head s.model.dtype (s.b * s.n) resolved = .ok r ∧
      lossOn dequantize dev false (s.lossCall split.head hidden (implOf r)) = .ok value ∧
      out = s.masked (fun row => (nllOf value).getD row nan) ∧
      (lossStep dequantize dev impl allowUnverified resolved s).2 = some r := by
  unfold lossStep at h ⊢
  split at h
  · cases h
  · cases h
  · next split hidden hsplit hhidden =>
    cases hr : resolveOnce dev impl allowUnverified split.head s.model.dtype (s.b * s.n) resolved with
    | error e =>
      rw [hr] at h
      cases h
    | ok r =>
      rw [hr] at h
      dsimp only at h
      cases hvalue : lossOn dequantize dev false (s.lossCall split.head hidden (implOf r)) with
      | error e =>
        rw [hvalue] at h
        cases h
      | ok value =>
        rw [hvalue] at h
        exact ⟨split, hidden, r, value, hsplit, hhidden, hr, hvalue, (Except.ok.inj h).symm, by dsimp only⟩

/-- With the model it was built with, a closure does not fail in `split_model`. -/
theorem lossStep_built {e : AdapterError} (h : checkModel s.model = .ok ())
    (herror : (lossStep dequantize dev impl allowUnverified resolved s).1 = .error e) : s.hidden = .error e ∨ ∃ l, e = .loss l := by
  unfold lossStep at herror
  split at herror
  · next hsplit =>
    rw [checkModel, hsplit] at h
    cases h
  · next hhidden =>
    obtain rfl := Except.error.inj herror
    exact .inl hhidden
  · next split hidden _ _ =>
    right
    cases hr : resolveOnce dev impl allowUnverified split.head s.model.dtype (s.b * s.n) resolved with
    | error l =>
      rw [hr] at herror
      exact ⟨l, (Except.error.inj herror).symm⟩
    | ok r =>
      rw [hr] at herror
      dsimp only at herror
      cases hvalue : lossOn dequantize dev false (s.lossCall split.head hidden (implOf r)) with
      | error l =>
        rw [hvalue] at herror
        exact ⟨l, (Except.error.inj herror).symm⟩
      | ok value =>
        rw [hvalue] at herror
        cases herror

theorem masked_congr {f g : ℕ → XReal} (h : ∀ row < s.b * s.n, f row = g row) : s.masked f = s.masked g := by
  unfold Step.masked
  congr 2
  apply Finset.sum_congr rfl
  intro row hrow
  rw [h row (Finset.mem_range.1 hrow)]

/-- A call gives its own loss, whichever implementation it was resolved to and whenever that was. -/
theorem lossStep_isLoss (haffine : Affine dequantize) (hfits : s.Fits)
    (h : (lossStep dequantize dev impl allowUnverified resolved s).1 = .ok out) : s.IsLoss dequantize out := by
  obtain ⟨split, hidden, r, value, hsplit, hhidden, -, hvalue, rfl, -⟩ := lossStep_eq_ok h
  have hrange : ((s.lossCall split.head hidden (implOf r)).args dequantize).InRange := by
    intro row hrow
    exact hfits.targets split hsplit row ((lossCall_rows s split.head hidden (implOf r)).symm ▸ hrow)
  have hwords : (s.lossCall split.head hidden (implOf r)).Words := hfits.words split hsplit
  have hsize : (0 : ℤ) ≤ (none : Option ℤ).getD kernelTile := by decide
  -- The rows' exact losses, whatever was resolved; the step only masks them.
  have hloss := lossOn_ok haffine hwords (fun _ => hrange) (fun _ => hsize) hvalue
  refine ⟨split, hidden, hsplit, hhidden, masked_congr fun row hrow => ?_⟩
  rw [hloss]
  unfold reduceLoss nllOf
  dsimp only [Step.lossCall]
  exact getD_rows (lt_of_lt_of_eq hrow (lossCall_rows s split.head hidden (implOf r)).symm) _

theorem runLossFn_isLoss (haffine : Affine dequantize) {steps : List Step} (hfits : ∀ s ∈ steps, s.Fits) :
    List.Forall₂ (fun s result => ∀ out, result = .ok out → s.IsLoss dequantize out) steps
      (runLossFn dequantize dev impl allowUnverified resolved steps) := by
  -- A step may change what is resolved, so the induction is for every choice.
  induction steps generalizing resolved with
  | nil => exact .nil
  | cons s steps ih =>
    obtain ⟨hfirst, hrest⟩ := List.forall_mem_cons.1 hfits
    refine .cons ?_ (ih hrest)
    intro out hout
    exact lossStep_isLoss haffine hfirst hout

end Run

/-- A closure's run gives each call its own loss or an error, whatever the calls before it resolved. -/
theorem loss_fn_run (dequantize : Dequantize) (haffine : Affine dequantize) (dev : Device) (impl : Impl)
    (allowUnverified : Bool) (steps : List Step) (hfits : ∀ s ∈ steps, s.Fits) (resolved : Option ResolvedImpl) :
    List.Forall₂ (fun s result => ∀ out, result = .ok out → s.IsLoss dequantize out) steps
      (runLossFn dequantize dev impl allowUnverified resolved steps) := runLossFn_isLoss haffine hfits

/-- One column, one layerless row: the small call, as a closure gets it. -/
def smallModel : LmModel where
  moduleName := "mlx_lm.models.llama"
  embedTokens := fun _ _ => 1
  layers := []
  norm := id
  width := 1
  dtype := .float32
  tied := false
  embedding := .other "Embedding"
  lmHead := .linear ⟨2, 1, .float32, fun _ _ => 1, Kernel.oneRow.v_int32⟩ true
  languageModel := none

def smallStep : Step := ⟨smallModel, 1, 1, .ok fun _ _ _ => 1, fun _ _ => 0, fun _ _ => true⟩

theorem smallStep_fits : smallStep.Fits where
  words := by
    intro split hsplit head hhead
    obtain rfl := Except.ok.inj hsplit
    cases hhead
  targets := by
    intro split hsplit row _
    obtain rfl := Except.ok.inj hsplit
    exact ⟨le_refl 0, by norm_num [smallStep, HeadRef.v]⟩

theorem smallStep_value : ∃ value,
    lossOn affineRow fastDevice false (smallStep.lossCall kernelCall.head (fun _ _ _ => 1) .kernel) = .ok value := by
  obtain ⟨out, hout⟩ := kernelCall_outputs (selectVariant_rowTiles 1)
  have hkernel : kernelNll fastDevice false (smallStep.lossCall kernelCall.head (fun _ _ _ => 1) .kernel) =
      .ok (rowLoss out) := Budget.bind_eq_ok.2 ⟨_, rfl, Budget.bind_eq_ok.2 ⟨out, hout, rfl⟩⟩
  exact ⟨_, Budget.bind_eq_ok.2 ⟨(), rfl, Budget.bind_eq_ok.2 ⟨_, hkernel, rfl⟩⟩⟩

theorem smallStep_ok : ∃ out, ∀ resolved ∈ [none, some ResolvedImpl.kernel],
    lossStep affineRow fastDevice .auto false resolved smallStep = (.ok out, some .kernel) := by
  obtain ⟨value, hvalue⟩ := smallStep_value
  refine ⟨smallStep.masked fun row => (nllOf value).getD row nan, ?_⟩
  intro resolved hresolved
  have honce : resolveOnce fastDevice .auto false kernelCall.head smallStep.model.dtype (smallStep.b * smallStep.n) resolved =
      .ok .kernel := by
    rcases List.mem_cons.1 hresolved with rfl | hcached
    · rfl
    · obtain rfl := List.mem_singleton.1 hcached
      rfl
  have hsplit : splitModel smallStep.model = .ok ⟨kernelCall.head, true⟩ := rfl
  have hhidden : smallStep.hidden = .ok fun _ _ _ => 1 := rfl
  unfold lossStep
  rw [hsplit, hhidden]
  dsimp only
  rw [honce]
  dsimp only [implOf]
  rw [hvalue]
  rfl

/-- The small call twice: the second gets the kernel the first resolved. -/
theorem loss_fn_run_smallStep : ∃ out, runLossFn affineRow fastDevice .auto false none [smallStep, smallStep] = [.ok out, .ok out] ∧
    smallStep.IsLoss affineRow out := by
  obtain ⟨out, hout⟩ := smallStep_ok
  have hruns : runLossFn affineRow fastDevice .auto false none [smallStep, smallStep] = [.ok out, .ok out] := by
    unfold runLossFn
    rw [hout none (by simp)]
    unfold runLossFn
    dsimp only
    rw [hout (some .kernel) (by simp)]
    rfl
  have hrun := loss_fn_run affineRow (fun _ _ _ _ => rfl) fastDevice .auto false [smallStep, smallStep]
    (fun s hs => by obtain rfl : s = smallStep := by simpa using hs
                    exact smallStep_fits) none
  rw [hruns] at hrun
  exact ⟨out, hruns, (List.forall₂_cons.1 hrun).1 out rfl⟩

/-! ## An mlx that is not verified -/

/-- What a closure that asks for the kernel can have resolved to. -/
def KeepsKernel (resolved : Option ResolvedImpl) : Prop := ∀ r, resolved = some r → r = .kernel

section Unverified
variable {dequantize : Dequantize} {dev : Device} {impl : Impl} {allowUnverified : Bool} {resolved : Option ResolvedImpl}
  {s : Step}

theorem resolveKernel_impl {version : String} {head : HeadRef} {dtype : Dtype} {n : ℕ} {res : Resolution}
    (h : resolveKernel version head dtype n allowUnverified = .ok res) : res.impl = .kernel := by
  obtain ⟨-, -, h⟩ := Budget.bind_eq_ok.1 h
  obtain ⟨-, -, h⟩ := Budget.bind_eq_ok.1 h
  obtain rfl := (Except.ok.inj h).symm
  rfl

theorem resolveOnce_kernel {head : HeadRef} {dtype : Dtype} {rows : ℕ} {r : ResolvedImpl} (himpl : impl = .auto ∨ impl = .kernel)
    (hkeeps : KeepsKernel resolved) (h : resolveOnce dev impl allowUnverified head dtype rows resolved = .ok r) :
    r = .kernel := by
  -- The cached choice, or the first call's: `auto` takes the kernel's branch too.
  cases resolved with
  | some r' =>
    obtain rfl := Except.ok.inj h
    exact hkeeps _ rfl
  | none =>
    unfold resolveOnce at h
    dsimp only at h
    cases hres : resolveImpl dev.mlxVersion head dtype rows impl allowUnverified with
    | error e =>
      rw [hres] at h
      cases h
    | ok res =>
      rw [hres] at h
      obtain rfl := (Except.ok.inj h).symm
      unfold resolveImpl at hres
      split at hres
      · cases hres
      · obtain rfl | rfl := himpl
        · exact resolveKernel_impl hres
        · exact resolveKernel_impl hres

theorem lossStep_keepsKernel (himpl : impl = .auto ∨ impl = .kernel) (hkeeps : KeepsKernel resolved) :
    KeepsKernel (lossStep dequantize dev impl allowUnverified resolved s).2 := by
  unfold lossStep
  split
  · exact hkeeps
  · exact hkeeps
  · next split hidden hsplit hhidden =>
    cases hr : resolveOnce dev impl allowUnverified split.head s.model.dtype (s.b * s.n) resolved with
    | error e => exact hkeeps
    | ok r =>
      intro r' hr'
      obtain rfl := Option.some.inj hr'
      exact resolveOnce_kernel himpl hkeeps hr

/-- The kernel's branch looks the version up again, and is not told that it was allowed. -/
theorem lossOn_unverified {c : LossCall} (hversion : dev.mlxVersion ∉ verifiedMlxVersions) (himpl : c.impl = .kernel)
    (value : LossValue) : lossOn dequantize dev false c ≠ .ok value := by
  intro h
  -- Down to `check_mlx_verified` in the kernel's branch, which is not told of the caller's flag.
  obtain ⟨-, -, h⟩ := Budget.bind_eq_ok.1 h
  rw [himpl] at h
  obtain ⟨nll, hnll, -⟩ := Budget.bind_eq_ok.1 h
  obtain ⟨res, hres, -⟩ := Budget.bind_eq_ok.1 hnll
  obtain ⟨-, -, hres⟩ := Budget.bind_eq_ok.1 hres
  obtain ⟨⟨⟩, hverified, -⟩ := Budget.bind_eq_ok.1 hres
  unfold checkMlxVerified at hverified
  rw [if_neg (not_or.2 ⟨hversion, by decide⟩)] at hverified
  cases hverified

theorem lossStep_unverified {out : LossOut} (hversion : dev.mlxVersion ∉ verifiedMlxVersions)
    (himpl : impl = .auto ∨ impl = .kernel) (hkeeps : KeepsKernel resolved) :
    (lossStep dequantize dev impl allowUnverified resolved s).1 ≠ .ok out := by
  intro h
  obtain ⟨split, hidden, r, value, -, -, hr, hvalue, -, -⟩ := lossStep_eq_ok h
  obtain rfl := resolveOnce_kernel himpl hkeeps hr
  exact lossOn_unverified hversion rfl value hvalue

theorem runLossFn_unverified (hversion : dev.mlxVersion ∉ verifiedMlxVersions) (himpl : impl = .auto ∨ impl = .kernel)
    (steps : List Step) (hkeeps : KeepsKernel resolved) :
    ∀ result ∈ runLossFn dequantize dev impl allowUnverified resolved steps, ∀ out, result ≠ .ok out := by
  induction steps generalizing resolved with
  | nil => exact fun _ h => absurd h List.not_mem_nil
  | cons s steps ih =>
    intro result hresult out
    rcases List.mem_cons.1 hresult with rfl | hlater
    · exact lossStep_unverified hversion himpl hkeeps
    · exact ih (lossStep_keepsKernel himpl hkeeps) result hlater out

end Unverified

/-- Under an mlx that is not verified a closure that asks for `auto` or the kernel never gives a loss, not even
where `allow_unverified_mlx` resolves its kernel. -/
theorem loss_fn_unverified (dequantize : Dequantize) (dev : Device) (impl : Impl) (allowUnverified : Bool)
    (hversion : dev.mlxVersion ∉ verifiedMlxVersions) (himpl : impl = .auto ∨ impl = .kernel) (steps : List Step) :
    ∀ result ∈ runLossFn dequantize dev impl allowUnverified none steps, ∀ out, result ≠ .ok out :=
  runLossFn_unverified hversion himpl steps fun _ h => nomatch h

/-- An older mlx, which the caller allowed. -/
theorem loss_fn_unverified_smallStep : "0.30.0" ∉ verifiedMlxVersions ∧ ∀ out,
    (lossStep affineRow { fastDevice with mlxVersion := "0.30.0" } .auto true none smallStep).1 ≠ .ok out := by
  have hversion : "0.30.0" ∉ verifiedMlxVersions := by decide
  exact ⟨hversion, loss_fn_unverified affineRow { fastDevice with mlxVersion := "0.30.0" } .auto true hversion (Or.inl rfl)
    [smallStep] _ (List.mem_singleton_self _)⟩

end MlxTrainPerf.Adapters
