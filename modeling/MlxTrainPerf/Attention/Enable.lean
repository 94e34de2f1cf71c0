import MlxTrainPerf.Attention.RateCache
import MlxTrainPerf.Attention.Wrapper
import MlxTrainPerf.Recurrent.Wrapper
/-!
# `enable_flash_attention`

The model's checks, the wrapping of every layer, and the pre-warm: one forward, or two
with `packed`, at the shape that training is to run at, which fills the rate caches. A
compiled step must not calibrate. Whatever is called in between, no call of a wrapper at
a hinted shape does.
-/
open XReal

namespace MlxTrainPerf.Attention

open Launch (Shape)
open MlxTrainPerf.Core (Dtype)
open Kernel

/-! ## The model -/

/-- A Python value, by its text and its truth. -/
structure PyValue where
  text : String
  truthy : Bool

/-- A decoder layer: the submodules of its `self_attn`, and the `impl` of the wrapper that holds them, if one does. -/
structure DecoderLayer where
  selfAttn : AttentionModule
  wrapper : Option AttentionImpl
  useSliding : Bool

/-- What `enable_flash_attention` reads of a model. An attribute that is missing, or `None`, is `none`. -/
structure FlashModel where
  moduleName : String
  layerTypes : Option (List String)
  attentionDropout : Option PyValue
  headDim : Option ℕ
  hiddenSize : ℕ
  numAttentionHeads : ℕ
  normDtype : Dtype
  layers : List DecoderLayer

/-- What `enable_flash_attention` raises. -/
inductive EnableError
  | unsupported (msg : String)
  | zeroDivision
  | indexError
  | attention (e : AttentionError)
deriving DecidableEq

/-! ## Checks -/

/-- `_SUPPORTED_FAMILIES`. -/
def supportedFamilies : List String := ["mlx_lm.models.llama", "mlx_lm.models.qwen2", "mlx_lm.models.qwen3"]

def familyMsg (moduleName : String) : String :=
  s!"unsupported model architecture (module '{moduleName}'); enable_flash_attention supports: " ++
    ", ".intercalate supportedFamilies

/-- What the message adds for a qwen3_5 model. -/
def qwen35Hint : String :=
  ". qwen3_5's attention block is structurally different (a gated output, partial RoPE, head_dim 256 outside this kernel's " ++
    "supported \x7b64, 96, 128\x7d) and its linear-attention layers have no full-attention block at all -- see " ++
    "enable_gated_delta_training for the qwen3_5 training path instead"

/-- The `repr` of a list of names. -/
def namesRepr (names : List String) : String := "[" ++ ", ".intercalate (names.map fun name => s!"'{name}'") ++ "]"

def layerTypesMsg (offending : List String) : String :=
  s!"enable_flash_attention supports full-attention models only; model declares non-full-attention layer_types " ++
    namesRepr offending ++ " -- sliding-window / mixed attention is out of scope"

def slidingMsg : String :=
  "enable_flash_attention supports full-attention models only; model has a sliding-window attention block " ++
    "-- sliding-window attention is out of scope"

def dropoutMsg (dropout : PyValue) : String :=
  s!"enable_flash_attention does not support attention dropout (attention_dropout={dropout.text}); it must be 0"

def modelHeadDimMsg (headDim : ℕ) : String :=
  s!"enable_flash_attention supports head_dim in (64, 96, 128); model has head_dim={headDim}"

/-- `sorted({lt for lt in layer_types if lt != "full_attention"})`. -/
def offendingTypes (layerTypes : List String) : List String :=
  (layerTypes.filter fun lt => decide (lt ≠ "full_attention")).dedup.mergeSort fun a b => decide (a ≤ b)

/-- `_head_dim`. -/
def modelHeadDim (m : FlashModel) : Except EnableError ℕ :=
  match m.headDim with
  | some (d + 1) => .ok (d + 1)
  | _ => if m.numAttentionHeads = 0 then .error .zeroDivision else .ok (m.hiddenSize / m.numAttentionHeads)

/-- The checks, in order; the head dim of a model that passes. -/
def checkFlashModel (m : FlashModel) : Except EnableError ℕ :=
  if m.moduleName ∉ supportedFamilies then
    if m.moduleName = Recurrent.qwen35Module then .error (.unsupported (familyMsg m.moduleName ++ qwen35Hint))
    else .error (.unsupported (familyMsg m.moduleName))
  else if offendingTypes (m.layerTypes.getD []) ≠ [] then
    .error (.unsupported (layerTypesMsg (offendingTypes (m.layerTypes.getD []))))
  else if m.layers.any DecoderLayer.useSliding then .error (.unsupported slidingMsg)
  else match m.attentionDropout.filter PyValue.truthy with
    | some dropout => .error (.unsupported (dropoutMsg dropout))
    | none => do
      let headDim ← modelHeadDim m
      if headDim ∉ kernelHeadDims then .error (.unsupported (modelHeadDimMsg headDim)) else .ok headDim

/-! ## Wrapping and warming -/

/-- `FlashAttentionWrapper(layer.self_attn, impl=impl)`, of an attention or of a wrapper: the submodules stay. -/
def DecoderLayer.wrap (impl : AttentionImpl) (l : DecoderLayer) : DecoderLayer := { l with wrapper := some impl }

def FlashModel.wrapAll (m : FlashModel) (impl : AttentionImpl) : FlashModel :=
  { m with layers := m.layers.map (DecoderLayer.wrap impl) }

noncomputable section

/-- A call on zeros at the hinted shape; a packed one has a single segment. -/
def zerosCall (attn : AttentionModule) (dtype : Dtype) (impl : AttentionImpl) (seqLen batchSize headDim : ℕ) (packed : Bool) :
    AttentionCall where
  qShape := [batchSize, attn.nHeads, seqLen, headDim]
  kShape := [batchSize, attn.nKvHeads, seqLen, headDim]
  vShape := [batchSize, attn.nKvHeads, seqLen, headDim]
  dtype := dtype
  q := fun _ _ _ _ => 0
  k := fun _ _ _ _ => 0
  v := fun _ _ _ _ => 0
  scale := attn.scale
  causal := true
  impl := impl
  segments := if packed then some ⟨fun _ _ => 0, fun _ _ => 0⟩ else none

/-- `_prewarm_rate_caches`, on a model whose layers are wrapped. -/
def prewarmRateCaches (gpu : Gpu) (mem memPacked : Memory) (m : FlashModel) (impl : AttentionImpl)
    (seqLen batchSize headDim : ℕ) (packed : Bool) : RateProg EnableError Unit :=
  match m.layers.head? with
  | none => throw .indexError
  | some l => do
    let warm := zerosCall l.selfAttn m.normDtype impl seqLen batchSize headDim
    let _ ← ExceptT.adapt .attention (flashAttentionCached gpu mem (warm false))
    if packed then
      let _ ← ExceptT.adapt .attention (flashAttentionCached gpu memPacked (warm true))
      return ()
    else return ()

/-- What a caller hints of its training. -/
structure Hints where
  impl : AttentionImpl
  seqLen : Option ℕ
  batchSize : ℕ
  packed : Bool

/-- `enable_flash_attention`: the model is changed in place before the caches are warmed. -/
def enableFlashAttention (gpu : Gpu) (mem memPacked : Memory) (hints : Hints) : Memo.Prog (FlashModel × RateTable) EnableError Unit :=
  fun (m, t) =>
    match checkFlashModel m with
    | .error e => (.error e, (m, t))
    | .ok headDim =>
      let m' := m.wrapAll hints.impl
      match hints.seqLen with
      | none => (.ok (), (m', t))
      | some seqLen =>
        if hints.impl = .auto ∨ hints.impl = .kernel then
          let warmed := prewarmRateCaches gpu mem memPacked m' hints.impl seqLen hints.batchSize headDim hints.packed t
          (warmed.1, (m', warmed.2))
        else (.ok (), (m', t))

/-- `FlashAttentionWrapper.__call__`, through the caches. -/
def wrapperCallCached (gpu : Gpu) (mem : Memory) (impl : AttentionImpl) (m : AttentionModule) (b n : ℕ) (x : Rows) (mask : Mask)
    (cache : Bool) : RateProg AttentionError Rows :=
  if cache then throw (.input cacheMsg)
  else do
    let segments ← resolveMask mask
    let output ← flashAttentionCached gpu mem (m.call impl b n x segments)
    return fun b i => m.oProj (m.merge output b i)

end

/-- mlx-lm builds every attention of a model from the same `args`. -/
structure FlashModel.Uniform (m : FlashModel) : Prop where
  heads : ∀ l ∈ m.layers, ∀ l' ∈ m.layers, l.selfAttn.nHeads = l'.selfAttn.nHeads
  headDim : ∀ l ∈ m.layers, ∀ d, modelHeadDim m = .ok d → l.selfAttn.headDim = d
  dtype : ∀ l ∈ m.layers, l.selfAttn.dtype = m.normDtype

/-! ## What enabling does -/

section Enable
variable {gpu : Gpu} {mem memPacked : Memory} {hints : Hints} {m m' : FlashModel} {t t' : RateTable}

theorem checkFlashModel_ok {headDim : ℕ} (h : checkFlashModel m = .ok headDim) :
    m.moduleName ∈ supportedFamilies ∧ modelHeadDim m = .ok headDim ∧ headDim ∈ kernelHeadDims := by
  unfold checkFlashModel at h
  split_ifs at h with hfamily _ _ _
  split at h
  · cases h
  · obtain ⟨d, hd, hdim⟩ := Budget.bind_eq_ok.1 h
    split_ifs at hdim with hmem
    obtain rfl := Except.ok.inj hdim
    exact ⟨hfamily, hd, hmem⟩

/-- Enabling is refused with nothing done, or wraps every layer: what it does next only warms the caches. -/
theorem enableFlashAttention_cases (gpu : Gpu) (mem memPacked : Memory) (hints : Hints) (m : FlashModel) (t : RateTable) :
    (∃ e, checkFlashModel m = .error e ∧ enableFlashAttention gpu mem memPacked hints (m, t) = (.error e, (m, t))) ∨
    ∃ headDim out, checkFlashModel m = .ok headDim ∧
      enableFlashAttention gpu mem memPacked hints (m, t) = (out.1, (m.wrapAll hints.impl, out.2)) ∧
      ((∃ seqLen, hints.seqLen = some seqLen ∧ (hints.impl = .auto ∨ hints.impl = .kernel) ∧
        out = prewarmRateCaches gpu mem memPacked (m.wrapAll hints.impl) hints.impl seqLen hints.batchSize headDim hints.packed t) ∨
      ((hints.seqLen = none ∨ ¬(hints.impl = .auto ∨ hints.impl = .kernel)) ∧ out = (.ok (), t))) := by
  unfold enableFlashAttention
  dsimp only
  cases hcheck : checkFlashModel m with
  | error e => exact .inl ⟨e, rfl, rfl⟩
  | ok headDim =>
    refine .inr ⟨headDim, ?_⟩
    cases hseq : hints.seqLen with
    | none => exact ⟨(.ok (), t), rfl, rfl, .inr ⟨.inl rfl, rfl⟩⟩
    | some seqLen =>
      dsimp only
      by_cases himpl : hints.impl = .auto ∨ hints.impl = .kernel
      · rw [if_pos himpl]
        exact ⟨_, rfl, rfl, .inl ⟨seqLen, rfl, himpl, rfl⟩⟩
      · rw [if_neg himpl]
        exact ⟨(.ok (), t), rfl, rfl, .inr ⟨.inr himpl, rfl⟩⟩

/-- The keys that a warmed shape holds, on the kernels of the causal mask or of the packed one. -/
def WarmKeys (l : DecoderLayer) (dtype : Dtype) (seqLen batchSize headDim : ℕ) (packed : Bool) (t : RateTable) : Prop :=
  ∀ kernel, ∃ rate, t.entries.lookup
    (callKey (zerosCall l.selfAttn dtype .auto seqLen batchSize headDim packed) ⟨seqLen, headDim, batchSize, l.selfAttn.nHeads,
      l.selfAttn.nKvHeads⟩ kernel) = some rate

theorem warm_held {l : DecoderLayer} {dtype : Dtype} {impl : AttentionImpl} {seqLen batchSize headDim : ℕ} {packed : Bool}
    {o : Tensor XReal} (himpl : impl = .auto ∨ impl = .kernel)
    (h : flashAttentionCached gpu mem (zerosCall l.selfAttn dtype impl seqLen batchSize headDim packed) t = (.ok o, t')) :
    WarmKeys l dtype seqLen batchSize headDim packed t' := by
  obtain ⟨s, hshapes, hheld⟩ := flashAttentionCached_held himpl h
  obtain rfl := validateShapes_heads hshapes
  exact hheld

/-- A pre-warm that returns leaves both masks' keys held, or the causal one's. -/
theorem prewarm_held {impl : AttentionImpl} {seqLen batchSize headDim : ℕ} {packed : Bool}
    (himpl : impl = .auto ∨ impl = .kernel)
    (h : prewarmRateCaches gpu mem memPacked m impl seqLen batchSize headDim packed t = (.ok (), t')) :
    ∃ l ∈ m.layers, WarmKeys l m.normDtype seqLen batchSize headDim false t' ∧
      (packed = true → WarmKeys l m.normDtype seqLen batchSize headDim true t') := by
  unfold prewarmRateCaches at h
  cases hhead : m.layers.head? with
  | none =>
    rw [hhead] at h
    exact nomatch (Prod.mk.inj h).1
  | some l =>
    rw [hhead] at h
    obtain ⟨o, t₁, hcausal, h₁⟩ := Memo.adapt_bind_eq_ok h
    have hwarm := warm_held himpl hcausal
    refine ⟨l, List.mem_of_mem_head? hhead, ?_⟩
    cases packed with
    | false =>
      obtain rfl : t₁ = t' := (Prod.mk.inj h₁).2
      exact ⟨hwarm, fun h => nomatch h⟩
    | true =>
      obtain ⟨o', t₂, hpacked, h₂⟩ := Memo.adapt_bind_eq_ok h₁
      obtain rfl : t₂ = t' := (Prod.mk.inj h₂).2
      have hext : Memo.Extends t₁ t₂ := by
        have hclient : RateClient gpu (fun _ => True) (flashAttentionCached gpu memPacked
            (zerosCall l.selfAttn m.normDtype impl seqLen batchSize headDim true)) :=
          flashAttentionCached_client (fun _ _ _ _ => trivial) memPacked
        have hext := (hclient t₁).extends
        rwa [hpacked] at hext
      refine ⟨fun kernel => ?_, fun _ => warm_held himpl hpacked⟩
      obtain ⟨rate, hrate⟩ := hwarm kernel
      exact ⟨rate, hext.kept _ _ hrate⟩

end Enable

/-! ## Training after it -/

/-- A call of a wrapper: its submodules and `impl`, and what it is called on. -/
structure WrapperStep where
  attn : AttentionModule
  impl : AttentionImpl
  b : ℕ
  n : ℕ
  x : Rows
  mask : Mask
  cache : Bool
  mem : Memory

noncomputable def WrapperStep.run (gpu : Gpu) (w : WrapperStep) : RateProg AttentionError Rows :=
  wrapperCallCached gpu w.mem w.impl w.attn w.b w.n w.x w.mask w.cache

/-- A call of one of a model's wrappers at the hinted shape. -/
structure WrapperStep.Hinted (w : WrapperStep) (m : FlashModel) (hints : Hints) (seqLen : ℕ) : Prop where
  layer : ∃ l ∈ m.layers, l.selfAttn = w.attn ∧ l.wrapper = some w.impl
  batch : w.b = hints.batchSize
  bucket : nBucket w.n = nBucket seqLen
  packed : ∀ segments, w.mask = .packed segments → hints.packed = true

section Train
variable {gpu : Gpu} {m : FlashModel} {hints : Hints} {w : WrapperStep} {seqLen headDim : ℕ} {t : RateTable}

theorem resolveMask_some {mask : Mask} {segments : SegBuffers} (h : resolveMask mask = .ok (some segments)) :
    mask = .packed segments := by
  unfold resolveMask at h
  split at h
  · rw [Option.some.inj (Except.ok.inj h)]
  · split at h <;> cases h
  · cases h
  · cases h

/-- A hinted call looks up the keys that were warmed. -/
theorem hinted_quiet {l : DecoderLayer} (huniform : m.Uniform) (hdim : modelHeadDim m = .ok headDim) (hl : l ∈ m.layers)
    (hcausal : WarmKeys l m.normDtype seqLen hints.batchSize headDim false t)
    (hpacked : hints.packed = true → WarmKeys l m.normDtype seqLen hints.batchSize headDim true t)
    (hw : w.Hinted (m.wrapAll hints.impl) hints seqLen) :
    Memo.Quiet (fun key => ∃ rate, t.entries.lookup key = some rate) (w.run gpu) := by
  obtain ⟨⟨lw, hlw, hattn, -⟩, hbatch, hbucket, hmask⟩ := hw
  obtain ⟨l', hl', rfl⟩ := List.mem_map.1 hlw
  have hheads : w.attn.nHeads = l.selfAttn.nHeads := hattn ▸ huniform.heads l' hl' l hl
  have hhead : w.attn.headDim = headDim := hattn ▸ huniform.headDim l' hl' headDim hdim
  have hdtype : w.attn.dtype = m.normDtype := hattn ▸ huniform.dtype l' hl'
  unfold WrapperStep.run wrapperCallCached
  split_ifs
  · exact fun _ _ => rfl
  · refine .lift_bind fun segments hsegments => .bind ?_ fun _ => .pure _
    refine flashAttentionCached_quiet ?_ w.mem
    intro s hshapes kernel
    obtain rfl := validateShapes_heads hshapes
    have hkey : ∀ packed, segments.isSome = packed →
        callKey (w.attn.call w.impl w.b w.n w.x segments) ⟨w.n, w.attn.headDim, w.b, w.attn.nHeads, w.attn.nKvHeads⟩ kernel =
          callKey (zerosCall l.selfAttn m.normDtype .auto seqLen hints.batchSize headDim packed)
            ⟨seqLen, headDim, hints.batchSize, l.selfAttn.nHeads, l.selfAttn.nKvHeads⟩ kernel := by
      rintro packed rfl
      unfold callKey rateArgs RateArgs.key AttentionModule.call zerosCall
      dsimp only
      rw [hheads, hhead, hdtype, hbatch, hbucket]
      cases segments <;> rfl
    cases segments with
    | none =>
      rw [hkey false rfl]
      exact hcausal kernel
    | some segs =>
      have hhint : hints.packed = true := hmask segs (resolveMask_some hsegments)
      rw [hkey true rfl]
      exact hpacked hhint kernel

end Train

/-- Once a model is enabled with hints, no call of its wrappers at the hinted shape calibrates anything, whatever other
calls were made in between and however they and these end: the caches stay as they find them. -/
theorem enabled_steps_calibrate_nothing (gpu : Gpu) (mem memPacked : Memory) (hints : Hints) (m m' : FlashModel)
    (t t' : RateTable) (seqLen : ℕ) (hseq : hints.seqLen = some seqLen) (himpl : hints.impl = .auto ∨ hints.impl = .kernel)
    (huniform : m.Uniform) (h : enableFlashAttention gpu mem memPacked hints (m, t) = (.ok (), (m', t')))
    (others : List AttentionStep) (steps : List WrapperStep) (hsteps : ∀ w ∈ steps, w.Hinted m' hints seqLen) :
    let found := Memo.after t' (others.map fun step => flashPassCached gpu step.mem step.call step.dO)
    Memo.after found (steps.map (WrapperStep.run gpu)) = found := by
  obtain ⟨e, -, he⟩ | ⟨headDim, out, hcheck, hout, hwarm⟩ := enableFlashAttention_cases gpu mem memPacked hints m t
  · cases (Prod.mk.inj (he.symm.trans h)).1
  obtain ⟨hok, hstate⟩ := Prod.mk.inj (hout.symm.trans h)
  obtain ⟨rfl, htable⟩ := Prod.mk.inj hstate
  obtain ⟨seqLen', hseq', -, rfl⟩ | ⟨hnone | hnot, -⟩ := hwarm
  · obtain rfl : seqLen' = seqLen := Option.some.inj (hseq'.symm.trans hseq)
    obtain ⟨lw, hlw, hcausal, hpacked⟩ := prewarm_held himpl (Prod.ext hok htable)
    obtain ⟨l, hl, rfl⟩ := List.mem_map.1 hlw
    intro found
    have hext : Memo.Extends t' found := steps_extend gpu others t'
    have hkept : ∀ {packed}, WarmKeys l m.normDtype seqLen' hints.batchSize headDim packed t' →
        WarmKeys l m.normDtype seqLen' hints.batchSize headDim packed found := by
      intro packed hkeys kernel
      obtain ⟨rate, hrate⟩ := hkeys kernel
      exact ⟨rate, hext.kept _ _ hrate⟩
    have hquiet : ∀ p ∈ steps.map (WrapperStep.run gpu), Memo.Quiet (fun key => ∃ rate, found.entries.lookup key = some rate) p := by
      intro p hp
      obtain ⟨w, hw, rfl⟩ := List.mem_map.1 hp
      exact hinted_quiet huniform (checkFlashModel_ok hcheck).2.1 hl (hkept hcausal) (fun hp => hkept (hpacked hp)) (hsteps w hw)
    exact Memo.after_quiet hquiet fun _ hheld => hheld
  · cases hnone.symm.trans hseq
  · exact absurd himpl hnot

/-- An attention of two heads over one kv head, whose projections do nothing. -/
def plainAttention : AttentionModule where
  qProj := id
  kProj := id
  vProj := id
  oProj := id
  qkNorm := none
  rope := fun _ => id
  nHeads := 2
  nKvHeads := 1
  headDim := 64
  scale := 1
  dtype := .float32

/-- A llama of two layers. -/
def twoLayers : FlashModel :=
  ⟨"mlx_lm.models.llama", none, none, some 64, 128, 2, .float32, [⟨plainAttention, none, false⟩, ⟨plainAttention, none, false⟩]⟩

def twoTokens : Hints := ⟨.auto, some 2, 1, false⟩

theorem twoLayers_uniform : twoLayers.Uniform := by
  have hplain : ∀ l ∈ twoLayers.layers, l.selfAttn = plainAttention := by
    simp [twoLayers]
  constructor
  · intro l hl l' hl'
    rw [hplain l hl, hplain l' hl']
  · intro l hl d hd
    rw [hplain l hl]
    exact Except.ok.inj hd
  · intro l hl
    rw [hplain l hl]
    rfl

/-- Enabling it warms the caches as a first call of `autoCall` does. -/
theorem twoLayers_enabled : enableFlashAttention steadyGpu nanMemory nanMemory twoTokens (twoLayers, .empty) =
    (.ok (), (twoLayers.wrapAll .auto, steadyTable)) := by
  let warm := zerosCall plainAttention .float32 .auto 2 1 64 false
  obtain ⟨r, hr⟩ := @twoHeads_pass 384000 576000 768000 warm.q warm.k warm.v (fun _ _ _ _ => 0) 1 nanMemory
    (by decide +kernel) (by decide +kernel) (by decide +kernel)
  obtain ⟨out, hout, -⟩ := Budget.bind_eq_ok.1 hr
  have hcore : coreForward warm nanMemory twoHeads (some steadyResolved) = .ok out.1 :=
    congrArg (fun x => (x.map Prod.fst).mapError AttentionError.kernel) hout
  have hcall : resolveCallCached steadyGpu warm .empty = (.ok (twoHeads, some steadyResolved), steadyTable) := steady_first
  have hflash : flashAttentionCached steadyGpu nanMemory warm .empty = (.ok out.1, steadyTable) := by
    refine (Memo.bind_ok hcall).trans ?_
    exact Prod.ext hcore rfl
  have hwarm : prewarmRateCaches steadyGpu nanMemory nanMemory (twoLayers.wrapAll .auto) .auto 2 1 64 false .empty =
      (.ok (), steadyTable) := Memo.bind_ok (Memo.adapt_ok _ hflash)
  have hcheck : checkFlashModel twoLayers = .ok 64 := by
    have hnone : offendingTypes (twoLayers.layerTypes.getD []) = [] := List.mergeSort_nil
    unfold checkFlashModel
    rw [hnone]
    rfl
  unfold enableFlashAttention
  dsimp only
  rw [hcheck]
  exact congrArg (fun out => (out.1, (twoLayers.wrapAll .auto, out.2))) hwarm

/-- A call on three tokens. -/
noncomputable def threeTokens : WrapperStep := ⟨plainAttention, .auto, 1, 3, fun _ _ _ => 0, .str "causal", false, nanMemory⟩

/-- Three tokens are served by what two were calibrated with. -/
theorem enabled_steps_calibrate_nothing_twoLayers :
    Memo.after steadyTable [threeTokens.run steadyGpu] = steadyTable := by
  refine enabled_steps_calibrate_nothing steadyGpu nanMemory nanMemory twoTokens twoLayers _ _ _ 2 rfl (.inl rfl)
    twoLayers_uniform twoLayers_enabled [] [threeTokens] ?_
  intro w hw
  obtain rfl := List.mem_singleton.1 hw
  refine ⟨?_, rfl, show nBucket 3 = nBucket 2 by decide, fun _ h => nomatch h⟩
  exact ⟨⟨plainAttention, some .auto, false⟩, List.mem_cons_self, rfl, rfl⟩

end MlxTrainPerf.Attention
