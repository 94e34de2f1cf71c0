import MlxTrainPerf.Plan.Refit
/-!
# The fit inverts the prediction

On peaks that the model itself predicts, in exact arithmetic, `fit_memory_coeffs` finds the
coefficients they were predicted with. Each stage leaves the next one a residual on a line:
the analytic terms go first, then the stock plane through the checkpointed points, the
slope of the other ones, and the slope of each flash arm against the prior's base.
-/
open Budget LeastSquares Matrix

namespace MlxTrainPerf.Plan

/-! ## What the points measure -/

section Truth
variable (prior : Calibration) (p : FitPoint)

/-- The terms that are subtracted before the fit. -/
def analyticBytes : Except PlanError ℤ := do
  let loss ← lossBytes .exact p.shape prior p.cfg
  return loraBytes p.shape p.cfg + optimizerBytes .exact p.shape prior p.cfg + loss

/-- The marginal peak of a stock point under the coefficients `c`. -/
def stockMarginal (c : StockCoeffs) : Except PlanError ℚ := do
  let analytic ← analyticBytes prior p
  let aLin := if p.cfg.gradCheckpoint then c.aLinCkpt else c.aLinFull
  return c.base + aLin * xLin .exact p + c.aQuad * xQuad .exact p + analytic

/-- The marginal peak of a flash point: the base and the linear term are the prior's. -/
def flashMarginal (truth : MemoryCoeffs) : Except PlanError ℚ := do
  let analytic ← analyticBytes prior p
  let saved ← flashSavedStateBytes p.shape p.cfg
  let aLin := if p.cfg.gradCheckpoint then prior.actBytesPerTokenHiddenLayerCkpt else prior.actBytesPerTokenHiddenLayerFull
  return prior.baseTransientBytes + aLin * xLin .exact p + saved + truth.flash p.lossArm * xFlash .exact p + analytic

end Truth

/-- A kernel-impl point of a loss arm the fit takes, with positive sizes. -/
structure FitPoint.WellFormed (p : FitPoint) : Prop where
  kernel : p.cfg.impl = .kernel
  arm : p.lossArm = .kernel ∨ p.lossArm = .stock ∧ p.cfg.attention = .flash
  hidden : 0 < p.shape.hidden
  layers : 0 < p.shape.layers
  heads : 0 < p.shape.heads
  batch : 1 ≤ p.cfg.batch
  seqLen : 1 ≤ p.cfg.seqLen

/-- `(1, x_lin, x_quad)` of the checkpointed ones. -/
def designRows (points : List FitPoint) : List (List ℚ) := stockRows .exact points

/-- What numpy promises on these rows, without rounding: their rank, and for every
right-hand side a least-squares solution. -/
structure ExactNumpy (N : Numerics) (rows : List (List ℚ)) : Prop where
  sum : N.sum = List.sum
  rank : N.matrixRank rows = .ok (rowsMatrix rows).rank
  lstsq : ∀ b, b.length = rows.length → ∃ x, N.lstsq rows b = .ok x ∧
    IsLeastSquares (rowsMatrix rows) (fun i => b.getD i 0) ![x.1, x.2.1, x.2.2]

/-! ## The residuals -/

section Residuals
variable {prior : Calibration} {truth : MemoryCoeffs} {c : StockCoeffs} {p : FitPoint}

theorem residual_eq_ok {r : ℚ} : residual .exact prior p = .ok r ↔
    ∃ analytic, analyticBytes prior p = .ok analytic ∧ r = p.marginalPeakBytes - analytic := by
  simp only [residual, analyticBytes, bind_eq_ok, mapError_eq_ok]
  constructor
  · rintro ⟨loss, hloss, hret⟩
    exact ⟨_, ⟨loss, hloss, rfl⟩, (Except.ok.inj hret).symm⟩
  · rintro ⟨analytic, ⟨loss, hloss, hret⟩, rfl⟩
    obtain rfl := Except.ok.inj hret
    exact ⟨loss, hloss, rfl⟩

/-- Without the analytic terms a stock point lies on the plane. -/
theorem residual_of_stock (h : stockMarginal prior p c = .ok p.marginalPeakBytes) : residual .exact prior p =
    .ok (c.base + (if p.cfg.gradCheckpoint then c.aLinCkpt else c.aLinFull) * xLin .exact p + c.aQuad * xQuad .exact p) := by
  obtain ⟨analytic, hanalytic, hret⟩ := bind_eq_ok.1 h
  refine residual_eq_ok.2 ⟨analytic, hanalytic, ?_⟩
  rw [← Except.ok.inj hret]
  ring

/-- Without the prior's terms and the saved state either, a flash point lies on its arm's line. -/
theorem flashResidual_of_flash (h : flashMarginal prior p truth = .ok p.marginalPeakBytes) :
    flashResidual .exact prior p = .ok (truth.flash p.lossArm * xFlash .exact p) := by
  obtain ⟨analytic, hanalytic, h⟩ := bind_eq_ok.1 h
  obtain ⟨saved, hsaved, hret⟩ := bind_eq_ok.1 h
  refine bind_eq_ok.2 ⟨_, residual_eq_ok.2 ⟨analytic, hanalytic, rfl⟩, bind_eq_ok.2 ⟨saved, mapError_eq_ok.2 hsaved, ?_⟩⟩
  refine congrArg Except.ok ?_
  rw [← Except.ok.inj hret]
  simp only [sub, Rounding.mul, Rounding.ofInt, Rounding.exact, id_eq]
  ring

theorem FitPoint.WellFormed.checked (h : p.WellFormed) : checkPoint p = .ok () := by
  unfold checkPoint
  rw [if_neg (not_not.2 h.kernel)]
  rcases h.arm with harm | ⟨harm, hflash⟩
  · rw [harm]
  · rw [harm]
    exact if_neg (not_not.2 hflash)

theorem FitPoint.WellFormed.xLin_pos (h : p.WellFormed) : 0 < xLin .exact p := by
  have hbatch := h.batch
  have hseq := h.seqLen
  have hhidden := h.hidden
  have hlayers := h.layers
  exact Int.cast_pos.2 (by positivity)

theorem FitPoint.WellFormed.xFlash_pos (h : p.WellFormed) : 0 < xFlash .exact p := by
  have hbatch := h.batch
  have hseq := h.seqLen
  have hheads := h.heads
  exact Int.cast_pos.2 (by positivity)

end Residuals

/-! ## The stages -/

section Stages
variable {N : Numerics} {prior : Calibration} {truth : MemoryCoeffs} {c : StockCoeffs} {points arm : List FitPoint} {fit : FlashFit}

/-- The plane through the checkpointed points is the solution that numpy finds. -/
theorem lstsq_eq (hN : ExactNumpy N (designRows points)) (hrank : (rowsMatrix (designRows points)).rank = 3) :
    N.lstsq (designRows points)
      ((ckptPoints points).map fun p => c.base + c.aLinCkpt * xLin .exact p + c.aQuad * xQuad .exact p) =
        .ok (c.base, c.aLinCkpt, c.aQuad) := by
  obtain ⟨x, hx, hleast⟩ := hN.lstsq
    ((ckptPoints points).map fun p => c.base + c.aLinCkpt * xLin .exact p + c.aQuad * xQuad .exact p)
    (by rw [designRows, stockRows, List.length_map, List.length_map])
  have hplane : rowsMatrix (designRows points) *ᵥ ![c.base, c.aLinCkpt, c.aQuad] = fun i : Fin _ =>
      ((ckptPoints points).map fun p => c.base + c.aLinCkpt * xLin .exact p + c.aQuad * xQuad .exact p).getD i 0 := by
    funext i
    have hi : i.val < (ckptPoints points).length := by simpa [designRows, stockRows] using i.isLt
    have hrow : (designRows points).get i =
        [1, xLin .exact ((ckptPoints points)[i.val]), xQuad .exact ((ckptPoints points)[i.val])] := List.getElem_map _
    rw [mulVec, dotProduct, Fin.sum_univ_three, List.getD_eq_getElem _ _ (by rwa [List.length_map]), List.getElem_map]
    simp only [rowsMatrix, hrow]
    change 1 * c.base + xLin .exact _ * c.aLinCkpt + xQuad .exact _ * c.aQuad = _
    ring
  have heq := hleast.eq (hrank.trans (Fintype.card_fin 3).symm) hplane
  have hbase : x.1 = c.base := congrFun heq 0
  have hlin : x.2.1 = c.aLinCkpt := congrFun heq 1
  have hquad : x.2.2 = c.aQuad := congrFun heq 2
  rw [hx, ← hbase, ← hlin, ← hquad]

/-- Both fits of an arm on a line find its slope. -/
theorem fitFlashArm_eq {a priorCoeff : ℚ} (hsum : N.sum = List.sum) (hne : arm ≠ []) (hpos : ∀ p ∈ arm, 0 < xFlash .exact p)
    (hline : ∀ p ∈ arm, flashResidual .exact prior p = .ok (a * xFlash .exact p)) :
    fitFlashArm N .exact prior fit arm priorCoeff = .ok a := by
  have hempty : ¬arm.isEmpty = true := by simpa using hne
  obtain ⟨q, hq⟩ := List.exists_mem_of_ne_nil arm hne
  have hsome : ∃ p ∈ arm, xFlash .exact p ≠ 0 := ⟨q, hq, (hpos q hq).ne'⟩
  have hden := sum_sq_pos hsome
  unfold fitFlashArm
  simp only [hempty, hsum, Rounding.exact_mul, Rounding.exact_round, not_le.2 hden, if_false, Bool.false_eq_true]
  cases fit with
  | ols =>
    have hterms : (arm.mapM fun p => do
        let r ← flashResidual .exact prior p
        return r * xFlash .exact p) = .ok (arm.map fun p => a * xFlash .exact p * xFlash .exact p) := by
      refine mapM_eq_map fun p hp => ?_
      rw [hline p hp]
      rfl
    refine bind_eq_ok.2 ⟨_, hterms, ?_⟩
    rw [slope_eq a hsome]
    rfl
  | envelope =>
    have hratios : arm.mapM (flashRatio .exact prior) = .ok (arm.map fun _ => a) := by
      refine mapM_eq_map fun p hp => ?_
      rw [flashRatio, hline p hp]
      refine congrArg Except.ok ?_
      exact mul_div_cancel_right₀ a (hpos p hp).ne'
    have hmax : maxOf (arm.map fun _ => a) = a := by
      have hmem := (@maxOf_spec (arm.map fun _ => a) (by simpa using hne)).1
      obtain ⟨_, -, heq⟩ := List.mem_map.1 hmem
      exact heq.symm
    refine bind_eq_ok.2 ⟨(), guardEnvelope_eq_ok.2 hpos, bind_eq_ok.2 ⟨_, hratios, congrArg Except.ok hmax⟩⟩

theorem mem_ckptPoints {p : FitPoint} :
    p ∈ ckptPoints points ↔ p ∈ points ∧ p.cfg.attention = .stock ∧ p.cfg.gradCheckpoint = true := by
  simp [ckptPoints, and_comm]

theorem mem_fullPoints {p : FitPoint} :
    p ∈ fullPoints points ↔ p ∈ points ∧ p.cfg.attention = .stock ∧ p.cfg.gradCheckpoint = false := by
  simp [fullPoints, and_comm]

/-- The residuals of the checkpointed points. -/
theorem ckptResiduals_eq (hstock : ∀ p ∈ points, p.cfg.attention = .stock → stockMarginal prior p c = .ok p.marginalPeakBytes) :
    (ckptPoints points).mapM (residual .exact prior) =
      .ok ((ckptPoints points).map fun p => c.base + c.aLinCkpt * xLin .exact p + c.aQuad * xQuad .exact p) := by
  refine mapM_eq_map fun p hp => ?_
  obtain ⟨hp, hattention, hgc⟩ := mem_ckptPoints.1 hp
  rw [residual_of_stock (hstock p hp hattention), if_pos hgc]

/-- The terms of the slope through the other points: base and quadratic part are known by then. -/
theorem fullTerms_eq (hstock : ∀ p ∈ points, p.cfg.attention = .stock → stockMarginal prior p c = .ok p.marginalPeakBytes) :
    (fullPoints points).mapM (fun p => do
      let r ← residual .exact prior p
      return Rounding.exact.mul (sub .exact (sub .exact r c.base) (Rounding.exact.mul c.aQuad (xQuad .exact p))) (xLin .exact p)) =
      .ok ((fullPoints points).map fun p => c.aLinFull * xLin .exact p * xLin .exact p) := by
  refine mapM_eq_map fun p hp => ?_
  obtain ⟨hp, hattention, hgc⟩ := mem_fullPoints.1 hp
  rw [residual_of_stock (hstock p hp hattention), hgc]
  refine congrArg Except.ok ?_
  simp only [sub, Rounding.exact_mul, Rounding.exact_round, if_false, Bool.false_eq_true]
  ring

theorem fitStock_eq (hN : ExactNumpy N (designRows points)) (hpoints : ∀ p ∈ points, p.WellFormed)
    (hstock : ∀ p ∈ points, p.cfg.attention = .stock → stockMarginal prior p c = .ok p.marginalPeakBytes)
    (hfull : ∃ p ∈ points, p.cfg.attention = .stock ∧ p.cfg.gradCheckpoint = false)
    (hrank : (rowsMatrix (designRows points)).rank = 3) : fitStock N .exact prior points = .ok c := by
  obtain ⟨q, hq⟩ := hfull
  have hfull := mem_fullPoints.2 hq
  have hsome : ∃ p ∈ fullPoints points, xLin .exact p ≠ 0 := ⟨q, hfull, (hpoints q hq.1).xLin_pos.ne'⟩
  have hstockNe : ¬(points.filter fun p => p.cfg.attention = .stock).isEmpty = true := by
    rw [List.isEmpty_iff]
    exact List.ne_nil_of_mem (List.mem_filter.1 hfull).1
  have hfullNe : ¬(fullPoints points).isEmpty = true := by
    rw [List.isEmpty_iff]
    exact List.ne_nil_of_mem hfull
  rw [fitStock]
  dsimp only
  rw [if_neg hstockNe]
  refine bind_eq_ok.2 ⟨3, hN.rank.trans (by rw [hrank]), ?_⟩
  rw [if_neg (lt_irrefl 3)]
  refine bind_eq_ok.2 ⟨_, ckptResiduals_eq hstock, bind_eq_ok.2 ⟨_, lstsq_eq hN hrank, ?_⟩⟩
  refine (if_neg hfullNe).trans (bind_eq_ok.2 ⟨_, fullTerms_eq hstock, ?_⟩)
  have hslope : (if N.sum ((fullPoints points).map fun p => xLin .exact p * xLin .exact p) ≠ 0 then
      N.sum ((fullPoints points).map fun p => c.aLinFull * xLin .exact p * xLin .exact p) /
        N.sum ((fullPoints points).map fun p => xLin .exact p * xLin .exact p)
      else prior.actBytesPerTokenHiddenLayerFull) = c.aLinFull := by
    rw [hN.sum, if_pos (sum_sq_pos hsome).ne', slope_eq _ hsome]
  exact congrArg (fun a => Except.ok (StockCoeffs.mk c.base c.aLinCkpt a c.aQuad)) hslope

/-- On peaks that the model predicts, the fit returns the coefficients they were predicted
with, least squares and envelope alike; an arm without points keeps the prior's. -/
theorem fit_memory_coeffs_inverts (N : Numerics) (prior : Calibration) (truth : MemoryCoeffs) (points : List FitPoint)
    (hN : ExactNumpy N (designRows points)) (hpoints : ∀ p ∈ points, p.WellFormed)
    (hstock : ∀ p ∈ points, p.cfg.attention = .stock → stockMarginal prior p truth.stock = .ok p.marginalPeakBytes)
    (hflash : ∀ p ∈ points, p.cfg.attention = .flash → flashMarginal prior p truth = .ok p.marginalPeakBytes)
    (hfull : ∃ p ∈ points, p.cfg.attention = .stock ∧ p.cfg.gradCheckpoint = false)
    (hrank : (rowsMatrix (designRows points)).rank = 3) :
    ∀ fit, fitMemoryCoeffs N .exact prior fit points = .ok
      ⟨truth.stock, if armPoints points .kernel = [] then prior.attnBytesPerHeadTokenFlashKernel else truth.flashKernel,
        if armPoints points .stock = [] then prior.attnBytesPerHeadTokenFlashStock else truth.flashStock⟩ := by
  intro fit
  have harm : ∀ (arm : LossArm) priorCoeff, fitFlashArm N .exact prior fit (armPoints points arm) priorCoeff =
      .ok (if armPoints points arm = [] then priorCoeff else truth.flash arm) := by
    intro arm priorCoeff
    by_cases hnil : armPoints points arm = []
    · rw [hnil, if_pos rfl]
      rfl
    · rw [if_neg hnil]
      refine fitFlashArm_eq hN.sum hnil (fun p hp => (hpoints p (mem_armPoints.1 hp).1).xFlash_pos) fun p hp => ?_
      obtain ⟨hin, hattention, rfl⟩ := mem_armPoints.1 hp
      exact flashResidual_of_flash (hflash p hin hattention)
  refine bind_eq_ok.2 ⟨(), forM_eq_ok.2 fun p hp => (hpoints p hp).checked, bind_eq_ok.2
    ⟨_, fitStock_eq hN hpoints hstock hfull hrank, bind_eq_ok.2 ⟨_, harm .kernel _, bind_eq_ok.2 ⟨_, harm .stock _, rfl⟩⟩⟩⟩

end Stages

/-! ## Three lengths, one point without checkpoints and a flash point -/

section Witness

theorem exactNumpy_cramer {a b c d e f g h i : ℚ} (hdet : det3 [[a, b, c], [d, e, f], [g, h, i]] ≠ 0) :
    (rowsMatrix [[a, b, c], [d, e, f], [g, h, i]]).rank = 3 ∧ ExactNumpy exactNumerics [[a, b, c], [d, e, f], [g, h, i]] := by
  obtain ⟨hrank, hsolves⟩ := cramer_solves hdet
  refine ⟨hrank, rfl, ?_, ?_⟩
  · rw [hrank]
    exact congrArg Except.ok (if_pos hdet)
  · intro rhs hlength
    obtain ⟨x, hx, hleast⟩ := hsolves rhs hlength
    exact ⟨x, hx, hleast⟩

/-- A point of a model with one head and one layer. -/
def tinyPoint (attention : Attention) (gradCheckpoint : Bool) (seqLen : ℤ) (marginalPeakBytes : ℚ) : FitPoint :=
  ⟨⟨1, 1, 1, 1, 1, 1, true, none, none⟩, ⟨1, seqLen, .bfloat16, 1, 0, gradCheckpoint, .kernel, attention⟩, marginalPeakBytes, .kernel⟩

def tinyPoints : List FitPoint :=
  [tinyPoint .stock true 1 122, tinyPoint .stock true 2 150, tinyPoint .flash true 2 1073741872, tinyPoint .stock true 3 184,
    tinyPoint .stock false 2 158]

/-- No point ran the stock loss, so its coefficient is still the prior's. -/
theorem fit_memory_coeffs_inverts_tiny :
    fitMemoryCoeffs exactNumerics .exact tinyPrior .ols tinyPoints = .ok ⟨⟨100, 7, 11, 3⟩, 5, 0⟩ ∧
    fitMemoryCoeffs exactNumerics .exact tinyPrior .envelope tinyPoints = .ok ⟨⟨100, 7, 11, 3⟩, 5, 0⟩ := by
  have hrows : designRows tinyPoints = [[1, 1, 1], [1, 2, 4], [1, 3, 9]] := by decide +kernel
  obtain ⟨hrank, hexact⟩ := @exactNumpy_cramer 1 1 1 1 2 4 1 3 9 (by norm_num [det3])
  have hstock : ∀ p ∈ tinyPoints, p.cfg.attention = .stock →
      (stockMarginal tinyPrior p ⟨100, 7, 11, 3⟩).toOption = some p.marginalPeakBytes := by decide +kernel
  have hflash : ∀ p ∈ tinyPoints, p.cfg.attention = .flash →
      (flashMarginal tinyPrior p ⟨⟨100, 7, 11, 3⟩, 5, 9⟩).toOption = some p.marginalPeakBytes := by decide +kernel
  have hwellFormed : ∀ p ∈ tinyPoints, p.WellFormed := by
    intro p hp
    simp only [tinyPoints, List.mem_cons, List.not_mem_nil, or_false] at hp
    rcases hp with rfl | rfl | rfl | rfl | rfl <;>
      exact ⟨rfl, .inl rfl, by decide, by decide, by decide, by decide, by decide⟩
  have hfit := fit_memory_coeffs_inverts exactNumerics tinyPrior ⟨⟨100, 7, 11, 3⟩, 5, 9⟩ tinyPoints (by rwa [hrows]) hwellFormed
    (fun p hp h => eq_ok_of_toOption (hstock p hp h)) (fun p hp h => eq_ok_of_toOption (hflash p hp h))
    ⟨tinyPoint .stock false 2 158, by simp [tinyPoints], rfl, rfl⟩ (by rwa [hrows])
  exact ⟨hfit .ols, hfit .envelope⟩

end Witness

end MlxTrainPerf.Plan
