import MlxTrainPerf.Plan.Growth
/-!
# The planner and its inverses

`plan/inverse.py`. Both searches are one search over a field of the configuration.
It prices what `plan_fit` prices, so its result is the threshold of `plan_fit`'s
verdict.
-/
open Budget MlxTrainPerf.Memfit

namespace MlxTrainPerf.Plan

section Inverse
variable (R : Rounding) (shape : ModelShape) (calib : Calibration) (wired : ℤ) (cfg : TrainConfig)

/-- `_peak`. -/
def peak : Except (MemfitError PlanError) ℤ := do
  return (← warnedEstimatePeak R shape calib cfg).1

/-- `_resolve_budget_bytes`, where `wired` is the device's own cap. -/
def resolveBudgetBytes (budgetBytes : Option ℤ) : ℤ := budgetBytes.getD wired

def floorMsg (field : String) (budget floorPeak : ℤ) : String :=
  s!"no {field} >= 1 fits budget_bytes={budget} (predicted peak at {field}=1 " ++ s!"is {floorPeak} bytes)"

/-- The search over one field: `place` sets it. -/
def maxForBudget (field ceilingField : String) (place : ℤ → TrainConfig) (budgetBytes : Option ℤ) (ceiling : ℤ) :
    Except (MemfitError PlanError) ℤ :=
  if ceiling < 1 then .error (.raised (.input (leastMsg ceilingField 1 ceiling)))
  else do
    let budget := resolveBudgetBytes wired budgetBytes
    let floorPeak ← peak R shape calib (place 1)
    if floorPeak > budget then .error (.raised (.doesNotFit (floorMsg field budget floorPeak)))
    else
      let model ← trainStepModel R shape calib
      maxIntWithinBudget R model (fun v => (resolveLoraLayers (place v) shape).mapError .raised) 1 ceiling budget

/-- `max_seq_len_for_budget`. -/
def maxSeqLenForBudget (budgetBytes : Option ℤ) (seqCeiling : ℤ) : Except (MemfitError PlanError) ℤ :=
  maxForBudget R shape calib wired "seq_len" "seq_ceiling" (fun s => { cfg with seqLen := s }) budgetBytes seqCeiling

/-- `max_batch_for_budget`. -/
def maxBatchForBudget (budgetBytes : Option ℤ) (batchCeiling : ℤ) : Except (MemfitError PlanError) ℤ :=
  maxForBudget R shape calib wired "batch" "batch_ceiling" (fun b => { cfg with batch := b }) budgetBytes batchCeiling

/-- The predicted peak at a batch and a sequence length, when the terms return. -/
def cost (batch seqLen : ℤ) : ℤ :=
  match estimatePeak R shape calib { cfg with batch := batch, seqLen := seqLen } with
  | .ok r => r.1
  | .error _ => 0

/-- The terms do not raise: not at the least batch and sequence length, and so at no
other (`estimatePeak_cost`). -/
def TermsReturn : Prop := ∃ r, estimatePeak R shape calib { cfg with batch := 1, seqLen := 1 } = .ok r

end Inverse

/-- Either class of `DoesNotFitError`. -/
def RaisesDoesNotFit (x : Except (MemfitError PlanError) ℤ) : Prop :=
  ∃ msg, x = .error (.doesNotFit msg) ∨ x = .error (.raised (.doesNotFit msg))

/-- What a search is to find: the largest value within the budget, or that not even 1
is. -/
def IsThreshold (x : Except (MemfitError PlanError) ℤ) (costAt : ℤ → ℤ) (ceiling budget : ℤ) : Prop :=
  (budget < costAt 1 ∧ RaisesDoesNotFit x) ∨
    costAt 1 ≤ budget ∧ ∃ m, x = .ok m ∧ IsGreatest (allowed costAt 1 ceiling budget) m

section Threshold
variable {x : Except (MemfitError PlanError) ℤ} {costAt : ℤ → ℤ} {ceiling budget s : ℤ}

theorem not_raises_ok {m : ℤ} : ¬ RaisesDoesNotFit (.ok m) := by
  rintro ⟨msg, h | h⟩
  · cases h
  · cases h

theorem IsThreshold.raises_iff (h : IsThreshold x costAt ceiling budget) : RaisesDoesNotFit x ↔ budget < costAt 1 := by
  rcases h with ⟨hover, hraises⟩ | ⟨hfit, m, rfl, -⟩
  · exact iff_of_true hraises hover
  · exact iff_of_false not_raises_ok (not_lt.2 hfit)

/-- The values up to the result are the ones within the budget. -/
theorem IsThreshold.le_iff (h : IsThreshold x costAt ceiling budget) (hmono : MonotoneOn costAt (Set.Icc 1 ceiling))
    (hs : s ∈ Set.Icc 1 ceiling) : (∃ m, x = .ok m ∧ s ≤ m) ↔ costAt s ≤ budget := by
  rcases h with ⟨hover, hraises⟩ | ⟨-, m, rfl, hm⟩
  · refine iff_of_false ?_ ?_
    · rintro ⟨m, rfl, -⟩
      exact not_raises_ok hraises
    · have hle := hmono ⟨le_rfl, hs.1.trans hs.2⟩ hs hs.1
      exact not_le.2 (hover.trans_le hle)
  · rw [← le_iff_of_isGreatest hmono hm hs]
    constructor
    · rintro ⟨m', hm', hle⟩
      obtain rfl := Except.ok.inj hm'
      exact hle
    · exact fun hle => ⟨m, rfl, hle⟩

end Threshold

section Agree
variable {R : Rounding} {shape : ModelShape} {calib : Calibration} {wired : ℤ} {cfg : TrainConfig}
  {budgetBytes : Option ℤ} {b b' s s' ceiling : ℤ}

/-! ## The cost -/

theorem estimatePeak_cost (hs : shape.Positive) (hc : calib.NonNeg) (hterms : TermsReturn R shape calib cfg)
    (hb : 1 ≤ b) (hq : 1 ≤ s) :
    ∃ components, estimatePeak R shape calib { cfg with batch := b, seqLen := s } =
      .ok (cost R shape calib cfg b s, components) := by
  obtain ⟨r, hr⟩ := hterms
  have hbelow : TrainConfig.Below { cfg with batch := 1, seqLen := 1 } { cfg with batch := b, seqLen := s } :=
    ⟨le_rfl, hb, le_rfl, hq, rfl⟩
  obtain ⟨r', hr', -⟩ := estimatePeak_grows hs hc hbelow hr
  refine ⟨r'.2, ?_⟩
  rw [cost, hr']

theorem cost_mono (hs : shape.Positive) (hc : calib.NonNeg) (hterms : TermsReturn R shape calib cfg)
    (hb : 1 ≤ b) (hbb : b ≤ b') (hq : 1 ≤ s) (hss : s ≤ s') :
    cost R shape calib cfg b s ≤ cost R shape calib cfg b' s' := by
  obtain ⟨components, hr⟩ := estimatePeak_cost hs hc hterms hb hq
  have hbelow : TrainConfig.Below { cfg with batch := b, seqLen := s } { cfg with batch := b', seqLen := s' } :=
    ⟨hb, hbb, hq, hss, rfl⟩
  obtain ⟨r', hr', hle⟩ := estimatePeak_grows hs hc hbelow hr
  rw [cost, cost, hr']
  rwa [hr]

/-! ## The forward verdict -/

/-- The candidates halve the batch or shorten the sequence, and stay at least 1. -/
theorem mem_batchRungs : ∀ c ∈ batchRungs b, 1 ≤ c := by
  fun_induction batchRungs b with
  | case1 b hlt ih =>
    intro c hmem
    rcases List.mem_cons.1 hmem with rfl | hmem
    · exact le_max_left 1 _
    · exact ih c hmem
  | case2 => simp

theorem mem_seqRungs : ∀ c ∈ seqRungs s, 1 ≤ c := by
  fun_induction seqRungs s with
  | case1 s hlt ih =>
    intro c hmem
    rcases List.mem_cons.1 hmem with rfl | hmem
    · omega
    · exact ih c hmem
  | case2 => simp

theorem mem_suggestionCandidates {c : TrainConfig} (hq : 1 ≤ cfg.seqLen) (h : c ∈ suggestionCandidates cfg) :
    ∃ b s, 1 ≤ b ∧ 1 ≤ s ∧ c = { cfg with batch := b, seqLen := s } := by
  rcases List.mem_append.1 h with h | h
  · obtain ⟨b, hb, rfl⟩ := List.mem_map.1 h
    exact ⟨b, cfg.seqLen, mem_batchRungs b hb, hq, rfl⟩
  · obtain ⟨s, hs, rfl⟩ := List.mem_map.1 h
    exact ⟨1, s, le_rfl, mem_seqRungs s hs, rfl⟩

theorem findFit_returns {budget : ℤ} {candidates : List TrainConfig}
    (h : ∀ c ∈ candidates, ∃ r, estimatePeak R shape calib c = .ok r) :
    ∃ suggestion, findFit R shape calib budget candidates = .ok suggestion := by
  induction candidates with
  | nil => exact ⟨none, rfl⟩
  | cons c rest ih =>
    obtain ⟨r, hr⟩ := h c (by simp)
    simp only [findFit, hr, bind, Except.bind]
    split
    · exact ⟨some c, rfl⟩
    · exact ih fun d hd => h d (by simp [hd])

/-- `plan_fit` returns, and its verdict compares the cost with the budget. -/
theorem planFit_fits (hs : shape.Positive) (hc : calib.NonNeg) (hterms : TermsReturn R shape calib cfg)
    (hb : 1 ≤ b) (hq : 1 ≤ s) :
    ∃ report, planFit R shape calib wired { cfg with batch := b, seqLen := s } budgetBytes = .ok report ∧
      (report.fits = true ↔ cost R shape calib cfg b s ≤ budgetBytes.getD wired) := by
  obtain ⟨components, hr⟩ := @estimatePeak_cost R shape calib cfg b s hs hc hterms hb hq
  have hcandidates : ∀ c ∈ suggestionCandidates { cfg with batch := b, seqLen := s },
      ∃ r, estimatePeak R shape calib c = .ok r := by
    intro c hmem
    obtain ⟨b', s', hb', hs', rfl⟩ := mem_suggestionCandidates hq hmem
    obtain ⟨components', hr'⟩ := @estimatePeak_cost R shape calib cfg b' s' hs hc hterms hb' hs'
    exact ⟨_, hr'⟩
  obtain ⟨suggestion, hsuggestion⟩ := @findFit_returns R shape calib (budgetBytes.getD wired) _ hcandidates
  have hvalid : validateCfg { cfg with batch := b, seqLen := s } = .ok () := by
    simp only [estimatePeak, bind_eq_ok, mapError_eq_ok] at hr
    obtain ⟨_, hvalid, -⟩ := hr
    exact hvalid
  simp only [planFit, hvalid, hr, bind, Except.bind, Except.mapError]
  by_cases hfit : cost R shape calib cfg b s ≤ budgetBytes.getD wired
  · simp [hfit, pure, Except.pure]
  · simp [hfit, hsuggestion, pure, Except.pure]

/-! ## The inverses -/

/-- One search finds the threshold of the cost. -/
theorem maxForBudget_isThreshold {field ceilingField : String} {place : ℤ → TrainConfig} {costAt : ℤ → ℤ}
    (hceiling : 1 ≤ ceiling) (hmono : MonotoneOn costAt (Set.Icc 1 ceiling))
    (hcost : ∀ v, 1 ≤ v → ∃ components, estimatePeak R shape calib (place v) = .ok (costAt v, components)) :
    IsThreshold (maxForBudget R shape calib wired field ceilingField place budgetBytes ceiling) costAt ceiling
      (budgetBytes.getD wired) := by
  have hsplit : ∀ v, 1 ≤ v → ∃ model, trainStepModel R shape calib = .ok model ∧ validateCfg (place v) = .ok () ∧
      peakAt R model (fun v => (resolveLoraLayers (place v) shape).mapError .raised) v = .ok (costAt v) := by
    intro v hv
    obtain ⟨components, hr⟩ := hcost v hv
    simp only [estimatePeak, bind_eq_ok, mapError_eq_ok] at hr
    obtain ⟨_, hvalid, model, hmodel, resolved, hresolved, est, hest, hpeak⟩ := hr
    refine ⟨model, hmodel, hvalid, ?_⟩
    simp only [peakAt, bind_eq_ok, mapError_eq_ok]
    exact ⟨resolved, hresolved, est, hest, congrArg Except.ok (congrArg Prod.fst (Except.ok.inj hpeak))⟩
  obtain ⟨model, hmodel, hvalid, -⟩ := hsplit 1 le_rfl
  obtain ⟨components, hr⟩ := hcost 1 le_rfl
  have hfloor : peak R shape calib (place 1) = .ok (costAt 1) := by
    simp only [peak, warnedEstimatePeak, hvalid, hr, bind, Except.bind, Except.mapError]
    rfl
  have hpeak : ∀ v ∈ Set.Icc 1 ceiling,
      peakAt R model (fun v => (resolveLoraLayers (place v) shape).mapError .raised) v = .ok (costAt v) := by
    intro v hv
    obtain ⟨model', hmodel', -, hat⟩ := hsplit v hv.1
    obtain rfl := Except.ok.inj (hmodel.symm.trans hmodel')
    exact hat
  unfold IsThreshold maxForBudget resolveBudgetBytes
  rw [if_neg (not_lt.2 hceiling)]
  simp only [hfloor, hmodel, bind, Except.bind]
  by_cases hfit : costAt 1 > budgetBytes.getD wired
  · rw [if_pos hfit]
    exact .inl ⟨hfit, _, .inr rfl⟩
  · rw [if_neg hfit]
    rcases @maxIntWithinBudget_eq _ _ R model _ costAt 1 ceiling (budgetBytes.getD wired) zero_le_one hceiling hpeak hmono
      with ⟨hover, -⟩ | h
    · exact absurd hover hfit
    · exact .inr h

theorem monotoneOn_seqLen (hs : shape.Positive) (hc : calib.NonNeg) (hterms : TermsReturn R shape calib cfg)
    (hb : 1 ≤ b) : MonotoneOn (cost R shape calib cfg b) (Set.Icc 1 ceiling) :=
  fun _ hq _ _ hle => cost_mono hs hc hterms hb le_rfl hq.1 hle

theorem monotoneOn_batch (hs : shape.Positive) (hc : calib.NonNeg) (hterms : TermsReturn R shape calib cfg)
    (hq : 1 ≤ s) : MonotoneOn (fun b => cost R shape calib cfg b s) (Set.Icc 1 ceiling) :=
  fun _ hb _ _ hle => cost_mono hs hc hterms hb.1 hle hq le_rfl

theorem maxSeqLen_isThreshold (hs : shape.Positive) (hc : calib.NonNeg) (hterms : TermsReturn R shape calib cfg)
    (hb : 1 ≤ b) (hceiling : 1 ≤ ceiling) :
    IsThreshold (maxSeqLenForBudget R shape calib wired { cfg with batch := b } budgetBytes ceiling)
      (cost R shape calib cfg b) ceiling (budgetBytes.getD wired) :=
  maxForBudget_isThreshold hceiling (monotoneOn_seqLen hs hc hterms hb)
    fun _ hv => estimatePeak_cost hs hc hterms hb hv

theorem maxBatch_isThreshold (hs : shape.Positive) (hc : calib.NonNeg) (hterms : TermsReturn R shape calib cfg)
    (hq : 1 ≤ s) (hceiling : 1 ≤ ceiling) :
    IsThreshold (maxBatchForBudget R shape calib wired { cfg with seqLen := s } budgetBytes ceiling)
      (fun b => cost R shape calib cfg b s) ceiling (budgetBytes.getD wired) :=
  maxForBudget_isThreshold hceiling (monotoneOn_batch hs hc hterms hq)
    fun _ hv => estimatePeak_cost hs hc hterms hv hq

end Agree

/-- Below the ceilings, each inverse is the threshold of `plan_fit`'s verdict, so the
two are a Galois pair; and each raises `DoesNotFitError` exactly when 1 does not fit. -/
theorem planner_inverses_agree (R : Rounding) (shape : ModelShape) (calib : Calibration) (wired : ℤ) (cfg : TrainConfig)
    (budgetBytes : Option ℤ) (seqCeiling batchCeiling : ℤ) (hs : shape.Positive) (hc : calib.NonNeg)
    (hterms : TermsReturn R shape calib cfg) (hseq : 1 ≤ seqCeiling) (hbatch : 1 ≤ batchCeiling) :
    (∀ b, 1 ≤ b → ∀ s, 1 ≤ s → s ≤ seqCeiling →
      ∃ report, planFit R shape calib wired { cfg with batch := b, seqLen := s } budgetBytes = .ok report ∧
        (report.fits = true ↔
          ∃ m, maxSeqLenForBudget R shape calib wired { cfg with batch := b } budgetBytes seqCeiling = .ok m ∧ s ≤ m)) ∧
    (∀ s, 1 ≤ s → ∀ b, 1 ≤ b → b ≤ batchCeiling →
      ∃ report, planFit R shape calib wired { cfg with batch := b, seqLen := s } budgetBytes = .ok report ∧
        (report.fits = true ↔
          ∃ m, maxBatchForBudget R shape calib wired { cfg with seqLen := s } budgetBytes batchCeiling = .ok m ∧ b ≤ m)) ∧
    (∀ b s, 1 ≤ b → b ≤ batchCeiling → 1 ≤ s → s ≤ seqCeiling →
      ((∃ m, maxBatchForBudget R shape calib wired { cfg with seqLen := s } budgetBytes batchCeiling = .ok m ∧ b ≤ m) ↔
        ∃ m, maxSeqLenForBudget R shape calib wired { cfg with batch := b } budgetBytes seqCeiling = .ok m ∧ s ≤ m)) ∧
    (∀ b, 1 ≤ b →
      ∃ report, planFit R shape calib wired { cfg with batch := b, seqLen := 1 } budgetBytes = .ok report ∧
        (RaisesDoesNotFit (maxSeqLenForBudget R shape calib wired { cfg with batch := b } budgetBytes seqCeiling) ↔
          report.fits = false)) ∧
    ∀ s, 1 ≤ s →
      ∃ report, planFit R shape calib wired { cfg with batch := 1, seqLen := s } budgetBytes = .ok report ∧
        (RaisesDoesNotFit (maxBatchForBudget R shape calib wired { cfg with seqLen := s } budgetBytes batchCeiling) ↔
          report.fits = false) := by
  have hlong : ∀ b, 1 ≤ b → ∀ s, 1 ≤ s → s ≤ seqCeiling →
      ((∃ m, maxSeqLenForBudget R shape calib wired { cfg with batch := b } budgetBytes seqCeiling = .ok m ∧ s ≤ m) ↔
        cost R shape calib cfg b s ≤ budgetBytes.getD wired) := fun b hb s h₁ h₂ =>
    (maxSeqLen_isThreshold hs hc hterms hb hseq).le_iff (monotoneOn_seqLen hs hc hterms hb) ⟨h₁, h₂⟩
  have hwide : ∀ s, 1 ≤ s → ∀ b, 1 ≤ b → b ≤ batchCeiling →
      ((∃ m, maxBatchForBudget R shape calib wired { cfg with seqLen := s } budgetBytes batchCeiling = .ok m ∧ b ≤ m) ↔
        cost R shape calib cfg b s ≤ budgetBytes.getD wired) := fun s hq b h₁ h₂ =>
    (maxBatch_isThreshold hs hc hterms hq hbatch).le_iff (monotoneOn_batch hs hc hterms hq) ⟨h₁, h₂⟩
  refine ⟨fun b hb s h₁ h₂ => ?_, fun s hq b h₁ h₂ => ?_, fun b s h₁ h₂ h₃ h₄ => ?_, fun b hb => ?_, fun s hq => ?_⟩
  · obtain ⟨report, hreport, hfits⟩ := planFit_fits hs hc hterms hb h₁
    exact ⟨report, hreport, hfits.trans (hlong b hb s h₁ h₂).symm⟩
  · obtain ⟨report, hreport, hfits⟩ := planFit_fits hs hc hterms h₁ hq
    exact ⟨report, hreport, hfits.trans (hwide s hq b h₁ h₂).symm⟩
  · exact (hwide s h₃ b h₁ h₂).trans (hlong b h₁ s h₃ h₄).symm
  · obtain ⟨report, hreport, hfits⟩ := planFit_fits hs hc hterms hb le_rfl
    refine ⟨report, hreport, (maxSeqLen_isThreshold hs hc hterms hb hseq).raises_iff.trans ?_⟩
    rw [← not_le, ← hfits, Bool.not_eq_true]
  · obtain ⟨report, hreport, hfits⟩ := planFit_fits hs hc hterms le_rfl hq
    refine ⟨report, hreport, (maxBatch_isThreshold hs hc hterms hq hbatch).raises_iff.trans ?_⟩
    rw [← not_le, ← hfits, Bool.not_eq_true]

/-- A small model, a calibration and a configuration for it. -/
def smallShape : ModelShape := ⟨32, 8, 2, 16, 4, 2, false, some 4, some 64⟩

def smallCalibration : Calibration := ⟨100, 1 / 4, 1, 1 / 2, 2, 3, 8, 1 / 10, 12, []⟩

def smallConfig : TrainConfig := ⟨4, 128, .bfloat16, 8, -1, true, .chunked, .flash⟩

theorem planner_inverses_agree_small :
    ∃ report, planFit .exact smallShape smallCalibration 0 { smallConfig with batch := 4, seqLen := 300 } (some 40000000) =
        .ok report ∧ (report.fits = true ↔ ∃ m, maxSeqLenForBudget .exact smallShape smallCalibration 0
          { smallConfig with batch := 4 } (some 40000000) 512 = .ok m ∧ 300 ≤ m) := by
  have hshape : smallShape.Positive := by constructor <;> decide
  have hcalib : smallCalibration.NonNeg := by constructor <;> decide +kernel
  have hok : (estimatePeak .exact smallShape smallCalibration { smallConfig with batch := 1, seqLen := 1 }).isOk = true := by
    decide +kernel
  have hterms : TermsReturn .exact smallShape smallCalibration smallConfig := by
    unfold TermsReturn
    revert hok
    cases estimatePeak .exact smallShape smallCalibration { smallConfig with batch := 1, seqLen := 1 } with
    | error e => simp [Except.isOk, Except.toBool]
    | ok r => exact fun _ => ⟨r, rfl⟩
  exact (planner_inverses_agree .exact smallShape smallCalibration 0 smallConfig (some 40000000) 512 64 hshape hcalib hterms
    (by decide) (by decide)).1 4 (by decide) 300 (by decide) (by decide)

end MlxTrainPerf.Plan
