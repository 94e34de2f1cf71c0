import MlxTrainPerf.Plan.Inverse
/-!
# What `plan_fit` suggests

`ladder` is the documented search order in closed form. The generator yields exactly
it, the search takes the first rung that fits, and the peak falls along it, so nothing
on it fits when the bottom rung does not.
-/
open Budget MlxTrainPerf.Memfit

namespace MlxTrainPerf.Plan

/-! ## The ladder -/

/-- The batch halved down to 1; then, at batch 1, the sequence length stepped down by
1024 with floor 1024. -/
def ladder (cfg : TrainConfig) : List TrainConfig :=
  ((List.range (Nat.log 2 cfg.batch.toNat)).map fun k => { cfg with batch := cfg.batch / 2 ^ (k + 1) }) ++
    (List.range ((cfg.seqLen - 1) / 1024).toNat).map fun k =>
      { cfg with batch := 1, seqLen := max 1024 (cfg.seqLen - 1024 * (k + 1)) }

/-- Batch 1 and the least sequence length the ladder comes to. -/
def bottomRung (cfg : TrainConfig) : TrainConfig := { cfg with batch := 1, seqLen := min cfg.seqLen 1024 }

theorem batchRungs_eq (b : ℤ) : batchRungs b = (List.range (Nat.log 2 b.toNat)).map fun k => b / 2 ^ (k + 1) := by
  fun_induction batchRungs b with
  | case1 b hlt ih =>
    have hhalf : max 1 (b / 2) = b / 2 := max_eq_right (by omega)
    have hcount : Nat.log 2 b.toNat = Nat.log 2 (b / 2).toNat + 1 := by
      have hdiv : (b / 2).toNat = b.toNat / 2 := by omega
      rw [hdiv, Nat.log_of_one_lt_of_le one_lt_two (by omega)]
    rw [hhalf] at ih ⊢
    rw [ih, hcount, List.range_succ_eq_map, List.map_cons, List.map_map, zero_add, pow_one]
    refine congrArg _ (List.map_congr_left fun k _ => ?_)
    rw [Function.comp_apply, Int.ediv_ediv_of_nonneg zero_le_two, ← pow_succ']
  | case2 b hle =>
    rw [Nat.log_of_lt (by omega)]
    rfl

theorem seqRungs_eq (s : ℤ) : seqRungs s =
    (List.range ((s - 1) / 1024).toNat).map fun k : ℕ => max 1024 (s - 1024 * (k + 1)) := by
  fun_induction seqRungs s with
  | case1 s hlt ih =>
    have hcount : ((s - 1) / 1024).toNat = ((max 1024 (s - 1024) - 1) / 1024).toNat + 1 := by omega
    rw [ih, hcount, List.range_succ_eq_map, List.map_cons, List.map_map]
    refine congrArg₂ _ (by simp) (List.map_congr_left fun k _ => ?_)
    simp only [Function.comp_apply, Nat.cast_succ]
    omega
  | case2 s hle =>
    rw [Int.toNat_eq_zero.2 (by omega)]
    rfl

/-- The generator yields the ladder. -/
theorem suggestionCandidates_eq (cfg : TrainConfig) : suggestionCandidates cfg = ladder cfg := by
  unfold suggestionCandidates ladder
  rw [batchRungs_eq, seqRungs_eq, List.map_map, List.map_map]
  rfl

theorem batchRungs_le {b : ℤ} : ∀ c ∈ batchRungs b, c ≤ b := by
  fun_induction batchRungs b with
  | case1 b hlt ih =>
    intro c hmem
    rcases List.mem_cons.1 hmem with rfl | hmem
    · omega
    · have := ih c hmem
      omega
  | case2 => simp

theorem seqRungs_le {s : ℤ} : ∀ c ∈ seqRungs s, 1024 ≤ c ∧ c ≤ s := by
  fun_induction seqRungs s with
  | case1 s hlt ih =>
    intro c hmem
    rcases List.mem_cons.1 hmem with rfl | hmem
    · omega
    · have := ih c hmem
      omega
  | case2 => simp

theorem one_mem_batchRungs {b : ℤ} (h : 1 < b) : 1 ∈ batchRungs b := by
  fun_induction batchRungs b with
  | case1 b hlt ih =>
    rcases eq_or_lt_of_le (le_max_left 1 (b / 2)) with heq | hlt'
    · rw [← heq]
      exact List.mem_cons_self
    · exact List.mem_cons_of_mem _ (ih hlt')
  | case2 b hle => exact absurd h hle

theorem floor_mem_seqRungs {s : ℤ} (h : 1024 < s) : 1024 ∈ seqRungs s := by
  fun_induction seqRungs s with
  | case1 s hlt ih =>
    rcases eq_or_lt_of_le (le_max_left 1024 (s - 1024)) with heq | hlt'
    · rw [← heq]
      exact List.mem_cons_self
    · exact List.mem_cons_of_mem _ (ih hlt')
  | case2 s hle => exact absurd h hle

/-- A rung lies between the bottom one and the request. -/
structure IsRung (cfg c : TrainConfig) : Prop where
  above_bottom : (bottomRung cfg).Below c
  below_request : c.Below cfg

theorem isRung_of_mem {cfg c : TrainConfig} (hb : 1 ≤ cfg.batch) (hq : 1 ≤ cfg.seqLen)
    (h : c ∈ suggestionCandidates cfg) : IsRung cfg c := by
  have hbottom : 1 ≤ (bottomRung cfg).seqLen := le_min hq (by omega)
  rcases List.mem_append.1 h with h | h
  · obtain ⟨b, hmem, rfl⟩ := List.mem_map.1 h
    have h₁ := mem_batchRungs b hmem
    exact ⟨⟨le_rfl, h₁, hbottom, min_le_left _ _, rfl⟩, ⟨h₁, batchRungs_le b hmem, hq, le_rfl, rfl⟩⟩
  · obtain ⟨s, hmem, rfl⟩ := List.mem_map.1 h
    obtain ⟨hfloor, hle⟩ := seqRungs_le s hmem
    exact ⟨⟨le_rfl, le_rfl, hbottom, (min_le_right _ _).trans hfloor, rfl⟩,
      ⟨le_rfl, hb, (show (1 : ℤ) ≤ 1024 by omega).trans hfloor, hle, rfl⟩⟩

/-- A ladder with any rung comes down to the bottom one. -/
theorem bottomRung_mem {cfg : TrainConfig} (h : suggestionCandidates cfg ≠ []) :
    bottomRung cfg ∈ suggestionCandidates cfg := by
  unfold suggestionCandidates bottomRung at *
  by_cases hs : 1024 < cfg.seqLen
  · rw [min_eq_right hs.le]
    exact List.mem_append_right _ (List.mem_map_of_mem (floor_mem_seqRungs hs))
  · have hseq : seqRungs cfg.seqLen = [] := by rw [seqRungs, if_neg hs]
    have hb : 1 < cfg.batch := by
      by_contra hle
      rw [hseq, batchRungs, if_neg hle] at h
      exact h rfl
    rw [min_eq_left (not_lt.1 hs)]
    exact List.mem_append_left _ (List.mem_map_of_mem (one_mem_batchRungs hb))

/-! ## A rung's estimate returns when the request's does -/

section Returns
variable {R : Rounding} {shape : ModelShape} {calib : Calibration} {cfg cfg' : TrainConfig}

theorem termReturns_map {f : TrainConfig → Except PlanError ℤ} :
    TermReturns cfg (fun c => (f c).map Number.int) ↔ ∃ n, f cfg = .ok n ∧ 0 ≤ n := by
  unfold TermReturns
  constructor
  · rintro ⟨x, hx, hval⟩
    cases hf : f cfg with
    | error e => simp [hf, Except.map] at hx
    | ok n =>
      obtain rfl : Number.int n = x := by simpa [hf, Except.map] using hx
      exact ⟨n, rfl, Int.cast_nonneg_iff.1 hval⟩
  · rintro ⟨n, hn, hle⟩
    exact ⟨.int n, by simp [hn, Except.map], Int.cast_nonneg hle⟩

theorem termReturns_int {f : TrainConfig → ℤ} :
    TermReturns cfg (fun c => (.ok (.int (f c)) : Except PlanError Number)) ↔ 0 ≤ f cfg := by
  constructor
  · rintro ⟨x, hx, hval⟩
    obtain rfl := Except.ok.inj hx
    exact Int.cast_nonneg_iff.1 hval
  · exact fun hle => ⟨_, rfl, Int.cast_nonneg hle⟩

theorem attentionBytes_returns (hs : shape.Positive) (hc : calib.NonNeg) (h : cfg.Below cfg')
    (hr : ∃ n, attentionBytes R shape calib cfg' = .ok n ∧ 0 ≤ n) :
    ∃ n, attentionBytes R shape calib cfg = .ok n ∧ 0 ≤ n := by
  have hattention : cfg'.attention = cfg.attention := by rw [h.rest]
  have harm : aFlash calib cfg' = aFlash calib cfg := by rw [h.rest]; rfl
  have hdtype : cfg'.dtype = cfg.dtype := by rw [h.rest]
  unfold attentionBytes flashSavedStateBytes at hr ⊢
  rw [hattention, harm, hdtype] at hr
  cases ha : cfg.attention with
  | stock =>
    have hfactors : ∀ n ∈ [cfg.batch, shape.heads, cfg.seqLen ^ 2], 0 ≤ n := by
      simp [h.batch_nonneg, hs.heads.le, sq_nonneg]
    exact ⟨_, rfl, Rounding.trunc_nonneg (Rounding.scale_nonneg hc.attn hfactors)⟩
  | flash =>
    simp only [ha, bind_eq_ok] at hr ⊢
    obtain ⟨_, ⟨a, harm, saved, ⟨size, hsize, -⟩, -⟩, -⟩ := hr
    have hsize_nonneg : 0 ≤ size := by
      cases hd : cfg.dtype <;> simp [hd, dtypeBytes] at hsize <;> omega
    have hout : 0 ≤ cfg.batch * cfg.seqLen * shape.hidden * size :=
      mul_nonneg (mul_nonneg h.tokens_nonneg hs.hidden.le) hsize_nonneg
    have hlse : 0 ≤ cfg.batch * shape.heads * cfg.seqLen * 4 :=
      mul_nonneg (mul_nonneg (mul_nonneg h.batch_nonneg hs.heads.le) h.seqLen_nonneg) zero_le_four
    have hfactors : ∀ n ∈ [cfg.batch, shape.heads, cfg.seqLen], 0 ≤ n := by
      simp [h.batch_nonneg, hs.heads.le, h.seqLen_nonneg]
    have hscale := Rounding.scale_nonneg (R := R) (aFlash_nonneg hc harm) hfactors
    exact ⟨_, ⟨a, harm, _, ⟨size, hsize, rfl⟩, rfl⟩,
      Rounding.trunc_nonneg (Rounding.add_nonneg (Rounding.ofInt_nonneg (add_nonneg hout hlse)) hscale)⟩
  | other name =>
    simp only [ha] at hr
    obtain ⟨n, hn, -⟩ := hr
    cases hn

theorem lossBytes_returns (hs : shape.Positive) (hc : calib.NonNeg) (h : cfg.Below cfg')
    (hr : ∃ n, lossBytes R shape calib cfg' = .ok n ∧ 0 ≤ n) : ∃ n, lossBytes R shape calib cfg = .ok n ∧ 0 ≤ n := by
  have himpl : cfg'.impl = cfg.impl := by rw [h.rest]
  have hn := h.tokens_nonneg
  have hhead : 0 ≤ shape.vocab * shape.hidden * 4 * 2 :=
    mul_nonneg (mul_nonneg (mul_nonneg hs.vocab.le hs.hidden.le) zero_le_four) zero_le_two
  have hbase : ∀ n : ℤ, 0 ≤ n → 0 ≤ if headTrainable cfg then n + shape.vocab * shape.hidden * 4 * 2 else n := by
    intro n hle
    split <;> omega
  unfold lossBytes at hr ⊢
  rw [himpl] at hr
  cases hi : cfg.impl with
  | naive =>
    have hfactors : ∀ n ∈ [cfg.batch * cfg.seqLen, shape.vocab], 0 ≤ n := by simp [hn, hs.vocab.le]
    exact ⟨_, rfl, hbase _ (Rounding.trunc_nonneg (Rounding.scale_nonneg hc.naive hfactors))⟩
  | chunked => exact ⟨_, rfl, hbase _ (by unfold chunkTile; omega)⟩
  | kernel => exact ⟨_, rfl, hbase _ (by omega)⟩
  | other name =>
    simp only [hi] at hr
    obtain ⟨n, hn, -⟩ := hr
    cases hn

theorem trainStepTerms_return (hs : shape.Positive) (hc : calib.NonNeg) (h : cfg.Below cfg')
    (hr : ∀ t ∈ trainStepTerms R shape calib, TermReturns cfg' t.2) :
    ∀ t ∈ trainStepTerms R shape calib, TermReturns cfg t.2 := by
  have hdtype : cfg'.dtype = cfg.dtype := by rw [h.rest]
  have hparams : loraParamCount shape cfg' = loraParamCount shape cfg := by rw [h.rest]; rfl
  have hfactors : ∀ n ∈ [cfg.batch, cfg.seqLen, shape.hidden, shape.layers], 0 ≤ n := by
    simp [h.batch_nonneg, h.seqLen_nonneg, hs.hidden.le, hs.layers.le]
  simp only [trainStepTerms, List.forall_mem_cons] at hr ⊢
  obtain ⟨hweights, hbase, hlora, hoptimizer, -, hattention, hloss, -⟩ := hr
  refine ⟨?_, hbase, ?_, ?_, ?_, ?_, ?_, List.forall_mem_nil _⟩
  · rw [termReturns_map] at hweights ⊢
    rwa [hdtype] at hweights
  · rw [termReturns_int, loraBytes, hparams] at hlora
    exact termReturns_int.2 hlora
  · rw [termReturns_int, optimizerBytes, hparams] at hoptimizer
    exact termReturns_int.2 hoptimizer
  · refine termReturns_int.2 (Rounding.trunc_nonneg (Rounding.scale_nonneg ?_ hfactors))
    split
    · exact hc.actCkpt
    · exact hc.actFull
  · exact termReturns_map.2 (attentionBytes_returns hs hc h (termReturns_map.1 hattention))
  · exact termReturns_map.2 (lossBytes_returns hs hc h (termReturns_map.1 hloss))

theorem resolveLoraLayers_above {r' : TrainConfig} (h : cfg.Below cfg') (hr : resolveLoraLayers cfg' shape = .ok r') :
    ∃ r, resolveLoraLayers cfg shape = .ok r ∧ r.Below r' := by
  have hlayers : cfg'.loraLayers = cfg.loraLayers := by rw [h.rest]
  have hret : ∃ r, resolveLoraLayers cfg shape = .ok r := by
    unfold resolveLoraLayers at hr ⊢
    rw [hlayers] at hr
    split at hr
    · next hall => exact ⟨_, if_pos hall⟩
    · next hall =>
      split at hr
      · cases hr
      · next hneg => exact ⟨cfg, by rw [if_neg hall, if_neg hneg]⟩
  obtain ⟨r, hr₁⟩ := hret
  obtain ⟨r'', hr₂, hbelow⟩ := resolveLoraLayers_below h hr₁
  obtain rfl := Except.ok.inj (hr₂.symm.trans hr)
  exact ⟨r, hr₁, hbelow⟩

theorem validateCfg_above (h : cfg.Below cfg') (hv : validateCfg cfg' = .ok ()) : validateCfg cfg = .ok () := by
  have hrank : cfg'.loraRank = cfg.loraRank := by rw [h.rest]
  have hb := h.batch_pos.trans h.batch_le
  have hq := h.seqLen_pos.trans h.seqLen_le
  unfold validateCfg at hv ⊢
  rw [if_neg (not_lt.2 h.batch_pos), if_neg (not_lt.2 h.seqLen_pos)]
  rwa [hrank, if_neg (not_lt.2 hb), if_neg (not_lt.2 hq)] at hv

/-- Where the larger estimate returns, the smaller one does. -/
theorem estimatePeak_returns (hs : shape.Positive) (hc : calib.NonNeg) (h : cfg.Below cfg')
    (hr : ∃ r', estimatePeak R shape calib cfg' = .ok r') : ∃ r, estimatePeak R shape calib cfg = .ok r := by
  obtain ⟨r', hr⟩ := hr
  simp only [estimatePeak, bind_eq_ok, mapError_eq_ok] at hr ⊢
  obtain ⟨_, hvalid, model, hmodel, resolved', hresolved', est', hest', -⟩ := hr
  obtain ⟨resolved, hresolved, hbelow⟩ := resolveLoraLayers_above h hresolved'
  have hphases := MemoryModel.phases_of_mk? hmodel
  obtain ⟨est, hest⟩ : ∃ est, estimate R model resolved = .ok est := by
    have hterms := estimate_returns_iff.1 ⟨est', hest'⟩
    rw [estimate_returns_iff, hphases]
    rw [hphases] at hterms
    simp only [List.forall_mem_singleton] at hterms ⊢
    exact trainStepTerms_return hs hc hbelow hterms
  exact ⟨_, (), validateCfg_above h hvalid, model, hmodel, resolved, hresolved, est, hest, rfl⟩

end Returns

/-! ## The suggestion -/

/-- The estimate of a configuration returns, and is within the budget or over it. -/
def Fits (R : Rounding) (shape : ModelShape) (calib : Calibration) (budget : ℤ) (cfg : TrainConfig) : Prop :=
  ∃ r, estimatePeak R shape calib cfg = .ok r ∧ r.1 ≤ budget

def Exceeds (R : Rounding) (shape : ModelShape) (calib : Calibration) (budget : ℤ) (cfg : TrainConfig) : Prop :=
  ∃ r, estimatePeak R shape calib cfg = .ok r ∧ budget < r.1

section Suggestion
variable {R : Rounding} {shape : ModelShape} {calib : Calibration} {wired budget : ℤ} {cfg cfg' c : TrainConfig}
  {budgetBytes : Option ℤ}

theorem fits_iff_le {r : ℤ × List (String × ℤ)} (hr : estimatePeak R shape calib cfg = .ok r) :
    Fits R shape calib budget cfg ↔ r.1 ≤ budget := by
  refine ⟨?_, fun hle => ⟨r, hr, hle⟩⟩
  rintro ⟨r', hr', hle⟩
  obtain rfl := Except.ok.inj (hr.symm.trans hr')
  exact hle

theorem not_fits_and_exceeds (hf : Fits R shape calib budget cfg) (he : Exceeds R shape calib budget cfg) : False := by
  obtain ⟨r, hr, hlt⟩ := he
  exact absurd ((fits_iff_le hr).1 hf) (not_le.2 hlt)

theorem Fits.of_below (hs : shape.Positive) (hc : calib.NonNeg) (h : cfg.Below cfg')
    (hf : Fits R shape calib budget cfg') : Fits R shape calib budget cfg := by
  obtain ⟨r', hr', hle⟩ := hf
  obtain ⟨r, hr⟩ := estimatePeak_returns hs hc h ⟨r', hr'⟩
  obtain ⟨r'', hr'', hgrow⟩ := estimatePeak_grows hs hc h hr
  obtain rfl := Except.ok.inj (hr'.symm.trans hr'')
  exact ⟨r, hr, hgrow.trans hle⟩

/-- The search returns the first candidate that fits. -/
theorem findFit_first (budget : ℤ) {candidates : List TrainConfig}
    (h : ∀ c ∈ candidates, ∃ r, estimatePeak R shape calib c = .ok r) :
    (findFit R shape calib budget candidates = .ok none ∧ ∀ c ∈ candidates, Exceeds R shape calib budget c) ∨
      ∃ before c after, findFit R shape calib budget candidates = .ok (some c) ∧ candidates = before ++ c :: after ∧
        Fits R shape calib budget c ∧ ∀ d ∈ before, Exceeds R shape calib budget d := by
  induction candidates with
  | nil => exact .inl ⟨rfl, List.forall_mem_nil _⟩
  | cons c rest ih =>
    obtain ⟨⟨r, hr⟩, hrest⟩ := List.forall_mem_cons.1 h
    simp only [findFit, hr, bind, Except.bind]
    by_cases hfit : r.1 ≤ budget
    · rw [if_pos hfit]
      exact .inr ⟨[], c, rest, rfl, rfl, ⟨r, hr, hfit⟩, List.forall_mem_nil _⟩
    · rw [if_neg hfit]
      have hover : Exceeds R shape calib budget c := ⟨r, hr, not_le.1 hfit⟩
      rcases ih hrest with ⟨hnone, hall⟩ | ⟨before, c', after, hsome, rfl, hfits, hbefore⟩
      · exact .inl ⟨hnone, List.forall_mem_cons.2 ⟨hover, hall⟩⟩
      · exact .inr ⟨c :: before, c', after, hsome, rfl, hfits, List.forall_mem_cons.2 ⟨hover, hbefore⟩⟩

/-- What `plan_fit` reports, from its estimate and its search. -/
theorem planFit_eq {r : ℤ × List (String × ℤ)} {suggestion : Option TrainConfig}
    (hr : estimatePeak R shape calib cfg = .ok r)
    (hsearch : findFit R shape calib (budgetBytes.getD wired) (suggestionCandidates cfg) = .ok suggestion) :
    ∃ report, planFit R shape calib wired cfg budgetBytes = .ok report ∧
      report.fits = decide (r.1 ≤ budgetBytes.getD wired) ∧ (report.fits = false → report.suggestion = suggestion) := by
  have hvalid : validateCfg cfg = .ok () := by
    simp only [estimatePeak, bind_eq_ok, mapError_eq_ok] at hr
    obtain ⟨_, hvalid, -⟩ := hr
    exact hvalid
  simp only [planFit, hvalid, hr, bind, Except.bind, Except.mapError]
  by_cases hfit : r.1 ≤ budgetBytes.getD wired
  · simp [hfit, pure, Except.pure]
  · simp [hfit, hsearch, pure, Except.pure]

theorem estimatePeak_of_planFit {report : FitReport} (h : planFit R shape calib wired cfg budgetBytes = .ok report) :
    ∃ r, estimatePeak R shape calib cfg = .ok r := by
  simp only [planFit, bind_eq_ok, mapError_eq_ok] at h
  obtain ⟨_, -, r, hr, -⟩ := h
  exact ⟨r, hr⟩

theorem one_le_of_estimatePeak {r : ℤ × List (String × ℤ)} (h : estimatePeak R shape calib cfg = .ok r) :
    1 ≤ cfg.batch ∧ 1 ≤ cfg.seqLen := by
  simp only [estimatePeak, bind_eq_ok, mapError_eq_ok] at h
  obtain ⟨_, hvalid, -⟩ := h
  unfold validateCfg at hvalid
  split_ifs at hvalid
  omega

/-- A candidate is a rung below the request, so it can be priced as the request was. -/
theorem candidate_spec (hs : shape.Positive) (hc : calib.NonNeg) {r : ℤ × List (String × ℤ)}
    (hr : estimatePeak R shape calib cfg = .ok r) :
    ∀ c ∈ suggestionCandidates cfg, IsRung cfg c ∧ ∃ r, estimatePeak R shape calib c = .ok r := by
  intro c hmem
  obtain ⟨hb, hq⟩ := one_le_of_estimatePeak hr
  have hrung := isRung_of_mem hb hq hmem
  exact ⟨hrung, estimatePeak_returns hs hc hrung.below_request ⟨r, hr⟩⟩

/-- A priced request is planned. -/
theorem planFit_returns (hs : shape.Positive) (hc : calib.NonNeg) (wired : ℤ) (budgetBytes : Option ℤ)
    {r : ℤ × List (String × ℤ)} (hr : estimatePeak R shape calib cfg = .ok r) : ∃ suggestion report,
      findFit R shape calib (budgetBytes.getD wired) (suggestionCandidates cfg) = .ok suggestion ∧
      planFit R shape calib wired cfg budgetBytes = .ok report ∧
      report.fits = decide (r.1 ≤ budgetBytes.getD wired) ∧ (report.fits = false → report.suggestion = suggestion) := by
  obtain ⟨suggestion, hfound⟩ : ∃ suggestion,
      findFit R shape calib (budgetBytes.getD wired) (suggestionCandidates cfg) = .ok suggestion :=
    findFit_returns fun c hmem => (candidate_spec hs hc hr c hmem).2
  obtain ⟨report, h⟩ := planFit_eq hr hfound
  exact ⟨suggestion, report, hfound, h⟩

end Suggestion

/-- `plan_fit` returns whenever the request can be priced. When the request does not fit, it
suggests the first rung of the ladder that does, and nothing exactly when the ladder has no
rung or its bottom one does not fit. -/
theorem plan_fit_suggestion (R : Rounding) (shape : ModelShape) (calib : Calibration) (wired : ℤ) (cfg : TrainConfig)
    (budgetBytes : Option ℤ) (hs : shape.Positive) (hc : calib.NonNeg) :
    ((∃ report, planFit R shape calib wired cfg budgetBytes = .ok report) ↔
        ∃ r, estimatePeak R shape calib cfg = .ok r) ∧
      ∀ report, planFit R shape calib wired cfg budgetBytes = .ok report →
        (report.fits = true ↔ Fits R shape calib (budgetBytes.getD wired) cfg) ∧
        (report.fits = false →
          (∀ c, report.suggestion = some c → Fits R shape calib (budgetBytes.getD wired) c ∧ c.batch ≤ cfg.batch ∧
            c.seqLen ≤ cfg.seqLen ∧ ∃ before after, ladder cfg = before ++ c :: after ∧
              ∀ d ∈ before, Exceeds R shape calib (budgetBytes.getD wired) d) ∧
          (report.suggestion = none ↔
            ladder cfg = [] ∨ Exceeds R shape calib (budgetBytes.getD wired) (bottomRung cfg))) := by
  refine ⟨⟨fun ⟨report, h⟩ => estimatePeak_of_planFit h, fun ⟨r, hr⟩ => ?_⟩, fun report h => ?_⟩
  · obtain ⟨_, report, -, hplan, -⟩ := planFit_returns hs hc wired budgetBytes hr
    exact ⟨report, hplan⟩
  · obtain ⟨r, hr⟩ := estimatePeak_of_planFit h
    have hsearch := candidate_spec hs hc hr
    obtain ⟨suggestion, report', hfound, hplan, hfits, hsame⟩ := planFit_returns hs hc wired budgetBytes hr
    obtain rfl := Except.ok.inj (h.symm.trans hplan)
    have hverdict : report.fits = true ↔ Fits R shape calib (budgetBytes.getD wired) cfg := by
      rw [hfits, decide_eq_true_iff, fits_iff_le hr]
    refine ⟨hverdict, fun hno => ?_⟩
    rw [hsame hno, ← suggestionCandidates_eq]
    rcases findFit_first (budgetBytes.getD wired) fun c hmem => (hsearch c hmem).2 with
      ⟨hnone, hall⟩ | ⟨before, c, after, hsome, hsplit, hfitsc, hbefore⟩
    · obtain rfl := Except.ok.inj (hfound.symm.trans hnone)
      refine ⟨fun c hnone => (by cases hnone), iff_of_true rfl ?_⟩
      by_cases hempty : suggestionCandidates cfg = []
      · exact .inl hempty
      · exact .inr (hall _ (bottomRung_mem hempty))
    · obtain rfl := Except.ok.inj (hfound.symm.trans hsome)
      have hmem : c ∈ suggestionCandidates cfg := hsplit ▸ List.mem_append_right _ List.mem_cons_self
      have hrung := (hsearch c hmem).1
      constructor
      · rintro c' hc'
        obtain rfl := Option.some.inj hc'
        exact ⟨hfitsc, hrung.below_request.batch_le, hrung.below_request.seqLen_le, before, after, hsplit, hbefore⟩
      · refine iff_of_false nofun ?_
        rintro (hempty | hover)
        · exact List.ne_nil_of_mem hmem hempty
        · exact not_fits_and_exceeds (hfitsc.of_below hs hc hrung.above_bottom) hover

/-- A request over the budget, which fits at a quarter of its batch. -/
theorem plan_fit_suggestion_small :
    ∃ report c, planFit .exact smallShape smallCalibration 0 { smallConfig with batch := 8, seqLen := 2000 }
        (some 600000000) = .ok report ∧ report.suggestion = some c ∧ c.batch = 2 ∧
      Fits .exact smallShape smallCalibration 600000000 c := by
  have hshape : smallShape.Positive := by constructor <;> decide
  have hcalib : smallCalibration.NonNeg := by constructor <;> decide +kernel
  have hrun : (planFit .exact smallShape smallCalibration 0 { smallConfig with batch := 8, seqLen := 2000 }
      (some 600000000)).toOption.map (fun report => (report.fits, report.suggestion)) =
      some (false, some { smallConfig with batch := 2, seqLen := 2000 }) := by decide +kernel
  obtain ⟨report, hreport, hpair⟩ := Option.map_eq_some_iff.1 hrun
  rw [Prod.mk.injEq] at hpair
  have hplan := eq_ok_of_toOption hreport
  obtain ⟨-, hsuggest⟩ := (plan_fit_suggestion .exact smallShape smallCalibration 0
    { smallConfig with batch := 8, seqLen := 2000 } (some 600000000) hshape hcalib).2 report hplan
  exact ⟨report, _, hplan, hpair.2, rfl, ((hsuggest hpair.1).1 _ hpair.2).1⟩

end MlxTrainPerf.Plan
