import MlxTrainPerf.Plan.Estimate
/-!
# The estimate grows

With positive dimensions and coefficients that are not negative, no term falls when
the batch or the sequence length grows, and one that returns keeps returning. So the
predicted peak does not fall either.
-/
open Budget MlxTrainPerf.Memfit

namespace MlxTrainPerf.Plan

/-- Every dimension is positive. -/
structure ModelShape.Positive (shape : ModelShape) : Prop where
  vocab : 0 < shape.vocab
  hidden : 0 < shape.hidden
  layers : 0 < shape.layers
  intermediate : 0 < shape.intermediate
  heads : 0 < shape.heads
  kvHeads : 0 < shape.kvHeads

/-- No coefficient is negative. -/
structure Calibration.NonNeg (calib : Calibration) : Prop where
  base : 0 ≤ calib.baseTransientBytes
  actCkpt : 0 ≤ calib.actBytesPerTokenHiddenLayerCkpt
  actFull : 0 ≤ calib.actBytesPerTokenHiddenLayerFull
  attn : 0 ≤ calib.attnBytesPerHeadToken2
  flashKernel : 0 ≤ calib.attnBytesPerHeadTokenFlashKernel
  flashStock : 0 ≤ calib.attnBytesPerHeadTokenFlashStock
  optimizer : 0 ≤ calib.optimizerBytesPerParam
  overhead : 0 ≤ calib.overheadFrac
  naive : 0 ≤ calib.naiveLossBytesPerNv

/-- One configuration at a larger batch or sequence length. -/
structure TrainConfig.Below (cfg cfg' : TrainConfig) : Prop where
  batch_pos : 1 ≤ cfg.batch
  batch_le : cfg.batch ≤ cfg'.batch
  seqLen_pos : 1 ≤ cfg.seqLen
  seqLen_le : cfg.seqLen ≤ cfg'.seqLen
  rest : cfg' = { cfg with batch := cfg'.batch, seqLen := cfg'.seqLen }

section Growth
variable {R : Rounding} {shape : ModelShape} {calib : Calibration} {cfg cfg' : TrainConfig}

namespace TrainConfig.Below

theorem batch_nonneg (h : cfg.Below cfg') : 0 ≤ cfg.batch := zero_le_one.trans h.batch_pos

theorem seqLen_nonneg (h : cfg.Below cfg') : 0 ≤ cfg.seqLen := zero_le_one.trans h.seqLen_pos

theorem tokens_nonneg (h : cfg.Below cfg') : 0 ≤ cfg.batch * cfg.seqLen := mul_nonneg h.batch_nonneg h.seqLen_nonneg

theorem tokens_le (h : cfg.Below cfg') : cfg.batch * cfg.seqLen ≤ cfg'.batch * cfg'.seqLen :=
  mul_le_mul h.batch_le h.seqLen_le h.seqLen_nonneg (h.batch_nonneg.trans h.batch_le)

end TrainConfig.Below

/-! ## Term by term -/

theorem activationBytes_mono (hs : shape.Positive) (hc : calib.NonNeg) (h : cfg.Below cfg') :
    activationBytes R shape calib cfg ≤ activationBytes R shape calib cfg' := by
  have hcoeff : cfg'.gradCheckpoint = cfg.gradCheckpoint := by rw [h.rest]
  have hfactors : List.Forall₂ (fun m n : ℤ => 0 ≤ m ∧ m ≤ n) [cfg.batch, cfg.seqLen, shape.hidden, shape.layers]
      [cfg'.batch, cfg'.seqLen, shape.hidden, shape.layers] := by
    simp [h.batch_nonneg, h.seqLen_nonneg, h.batch_le, h.seqLen_le, hs.hidden.le, hs.layers.le]
  unfold activationBytes
  rw [hcoeff]
  refine Rounding.trunc_mono (Rounding.scale_mono ?_ le_rfl hfactors)
  split
  · exact hc.actCkpt
  · exact hc.actFull

theorem flashSavedStateBytes_grows (hs : shape.Positive) (h : cfg.Below cfg') :
    Grows (flashSavedStateBytes shape cfg) (flashSavedStateBytes shape cfg') := by
  have hdtype : cfg'.dtype = cfg.dtype := by rw [h.rest]
  unfold flashSavedStateBytes
  rw [hdtype]
  intro a ha
  obtain ⟨size, hsize, hsum⟩ := bind_eq_ok.1 ha
  obtain rfl := Except.ok.inj hsum
  have hpos : 0 ≤ size := by
    cases hd : cfg.dtype <;> simp [hd, dtypeBytes] at hsize <;> omega
  have hout : cfg.batch * cfg.seqLen * shape.hidden * size ≤ cfg'.batch * cfg'.seqLen * shape.hidden * size :=
    mul_le_mul_of_nonneg_right (mul_le_mul_of_nonneg_right h.tokens_le hs.hidden.le) hpos
  have hlse : cfg.batch * shape.heads * cfg.seqLen * 4 ≤ cfg'.batch * shape.heads * cfg'.seqLen * 4 := by
    rw [mul_right_comm cfg.batch, mul_right_comm cfg'.batch]
    exact mul_le_mul_of_nonneg_right (mul_le_mul_of_nonneg_right h.tokens_le hs.heads.le) zero_le_four
  exact ⟨_, bind_eq_ok.2 ⟨size, hsize, rfl⟩, add_le_add hout hlse⟩

theorem aFlash_nonneg {a : ℚ} (hc : calib.NonNeg) (h : aFlash calib cfg = .ok a) : 0 ≤ a := by
  unfold aFlash at h
  split at h
  · exact Except.ok.inj h ▸ hc.flashKernel
  · exact Except.ok.inj h ▸ hc.flashStock
  · exact Except.ok.inj h ▸ hc.flashStock
  · cases h

theorem attentionBytes_grows (hs : shape.Positive) (hc : calib.NonNeg) (h : cfg.Below cfg') :
    Grows (attentionBytes R shape calib cfg) (attentionBytes R shape calib cfg') := by
  have hattention : cfg'.attention = cfg.attention := by rw [h.rest]
  have harm : aFlash calib cfg' = aFlash calib cfg := by rw [h.rest]; rfl
  unfold attentionBytes
  rw [hattention, harm]
  split
  · have hfactors : List.Forall₂ (fun m n : ℤ => 0 ≤ m ∧ m ≤ n) [cfg.batch, shape.heads, cfg.seqLen ^ 2]
        [cfg'.batch, shape.heads, cfg'.seqLen ^ 2] := by
      have hsq := pow_le_pow_left₀ h.seqLen_nonneg h.seqLen_le 2
      simp [h.batch_nonneg, h.batch_le, hs.heads.le, sq_nonneg, hsq]
    exact .of_le (Rounding.trunc_mono (Rounding.scale_mono hc.attn le_rfl hfactors))
  · intro n hn
    simp only [bind_eq_ok] at hn ⊢
    obtain ⟨a, ha, saved, hsaved, hsum⟩ := hn
    obtain rfl := Except.ok.inj hsum
    obtain ⟨saved', hsaved', hle⟩ := flashSavedStateBytes_grows hs h saved hsaved
    have hfactors : List.Forall₂ (fun m n : ℤ => 0 ≤ m ∧ m ≤ n) [cfg.batch, shape.heads, cfg.seqLen]
        [cfg'.batch, shape.heads, cfg'.seqLen] := by
      simp [h.batch_nonneg, h.batch_le, hs.heads.le, h.seqLen_nonneg, h.seqLen_le]
    have hscale := Rounding.scale_mono (R := R) (aFlash_nonneg hc ha) le_rfl hfactors
    exact ⟨_, ⟨a, ha, saved', hsaved', rfl⟩, Rounding.trunc_mono (Rounding.add_mono (Rounding.ofInt_mono hle) hscale)⟩
  · exact .refl _

theorem lossBytes_grows (hs : shape.Positive) (hc : calib.NonNeg) (h : cfg.Below cfg') :
    Grows (lossBytes R shape calib cfg) (lossBytes R shape calib cfg') := by
  have himpl : cfg'.impl = cfg.impl := by rw [h.rest]
  have hhead : headTrainable cfg' = headTrainable cfg := by rw [h.rest]; rfl
  have hn := h.tokens_le
  have hadd : ∀ m n : ℤ, m ≤ n → (if headTrainable cfg then m + shape.vocab * shape.hidden * 4 * 2 else m) ≤
      if headTrainable cfg then n + shape.vocab * shape.hidden * 4 * 2 else n := by
    intro m n hmn
    split <;> omega
  unfold lossBytes
  rw [himpl, hhead]
  cases cfg.impl with
  | naive =>
    have hfactors : List.Forall₂ (fun m n : ℤ => 0 ≤ m ∧ m ≤ n) [cfg.batch * cfg.seqLen, shape.vocab]
        [cfg'.batch * cfg'.seqLen, shape.vocab] := by
      simp [h.tokens_nonneg, hn, hs.vocab.le]
    exact .of_le (hadd _ _ (Rounding.trunc_mono (Rounding.scale_mono hc.naive le_rfl hfactors)))
  | chunked => exact .of_le (hadd _ _ (by unfold chunkTile; omega))
  | kernel => exact .of_le (hadd _ _ (by omega))
  | other name => exact .refl _

/-! ## The estimate -/

theorem termGrows_int {f : TrainConfig → ℤ} (h : f cfg ≤ f cfg') :
    TermGrows (ε := PlanError) cfg cfg' fun c => .ok (.int (f c)) := by
  intro x hx hval
  obtain rfl := Except.ok.inj hx
  exact ⟨_, rfl, hval.trans (Int.cast_le.2 h), fun R => Rounding.ofInt_mono h⟩

theorem termGrows_map {f : TrainConfig → Except PlanError ℤ} (h : Grows (f cfg) (f cfg')) :
    TermGrows cfg cfg' fun c => (f c).map .int := by
  intro x hx hval
  cases hf : f cfg with
  | error e => simp [hf, Except.map] at hx
  | ok n =>
    obtain rfl : Number.int n = x := by simpa [hf, Except.map] using hx
    obtain ⟨n', hn', hle⟩ := h n hf
    refine ⟨.int n', ?_, hval.trans (Int.cast_le.2 hle), fun R => Rounding.ofInt_mono hle⟩
    simp [hn', Except.map]

theorem trainStepTerms_grow (hs : shape.Positive) (hc : calib.NonNeg) (h : cfg.Below cfg') :
    ∀ t ∈ trainStepTerms R shape calib, TermGrows cfg cfg' t.2 := by
  have hdtype : cfg'.dtype = cfg.dtype := by rw [h.rest]
  have hparams : loraParamCount shape cfg' = loraParamCount shape cfg := by rw [h.rest]; rfl
  simp only [trainStepTerms, List.forall_mem_cons]
  refine ⟨termGrows_map ?_, termGrows_int le_rfl, termGrows_int ?_, termGrows_int ?_,
    termGrows_int (activationBytes_mono hs hc h), termGrows_map (attentionBytes_grows hs hc h),
    termGrows_map (lossBytes_grows hs hc h), by simp⟩
  · rw [hdtype]
    exact .refl _
  · rw [loraBytes, loraBytes, hparams]
  · rw [optimizerBytes, optimizerBytes, hparams]

theorem resolveLoraLayers_below {r : TrainConfig} (h : cfg.Below cfg') (hr : resolveLoraLayers cfg shape = .ok r) :
    ∃ r', resolveLoraLayers cfg' shape = .ok r' ∧ r.Below r' := by
  have hlayers : cfg'.loraLayers = cfg.loraLayers := by rw [h.rest]
  unfold resolveLoraLayers at hr ⊢
  rw [hlayers]
  split at hr
  · next hall =>
    obtain rfl := Except.ok.inj hr
    rw [if_pos hall]
    exact ⟨_, rfl, h.batch_pos, h.batch_le, h.seqLen_pos, h.seqLen_le, by rw [h.rest]⟩
  · next hall =>
    split at hr
    · cases hr
    · next hneg =>
      obtain rfl := Except.ok.inj hr
      rw [if_neg hall, if_neg hneg]
      exact ⟨cfg', rfl, h⟩

theorem validateCfg_below (h : cfg.Below cfg') (hv : validateCfg cfg = .ok ()) : validateCfg cfg' = .ok () := by
  have hrank : cfg'.loraRank = cfg.loraRank := by rw [h.rest]
  have hb := h.batch_pos.trans h.batch_le
  have hq := h.seqLen_pos.trans h.seqLen_le
  unfold validateCfg at hv ⊢
  rw [hrank, if_neg (not_lt.2 hb), if_neg (not_lt.2 hq)]
  rwa [if_neg (not_lt.2 h.batch_pos), if_neg (not_lt.2 h.seqLen_pos)] at hv

/-- The predicted peak does not fall, and an estimate that returns keeps returning. -/
theorem estimatePeak_grows {r : ℤ × List (String × ℤ)} (hs : shape.Positive) (hc : calib.NonNeg) (h : cfg.Below cfg')
    (hr : estimatePeak R shape calib cfg = .ok r) :
    ∃ r', estimatePeak R shape calib cfg' = .ok r' ∧ r.1 ≤ r'.1 := by
  simp only [estimatePeak, bind_eq_ok, mapError_eq_ok] at hr ⊢
  obtain ⟨_, hvalid, model, hmodel, resolved, hresolved, est, hest, hpeak⟩ := hr
  obtain rfl := Except.ok.inj hpeak
  obtain ⟨resolved', hresolved', hbelow⟩ := resolveLoraLayers_below h hresolved
  have hterms : ∀ ph ∈ model.phases, ∀ t ∈ ph.terms, TermGrows resolved resolved' t.2 := by
    rw [MemoryModel.phases_of_mk? hmodel]
    simpa using trainStepTerms_grow hs hc hbelow
  obtain ⟨est', hest', hle⟩ := estimate_grows hterms hest
  exact ⟨_, ⟨(), validateCfg_below h hvalid, model, hmodel, resolved', hresolved', est', hest', rfl⟩, hle⟩

end Growth
end MlxTrainPerf.Plan
