import MlxTrainPerf.Plan.Estimate
/-!
# Fitting a calibration

`fit_memory_coeffs` of `plan/estimate.py`, and `scripts/fit_calibration.py` around it:
the least-squares candidate, its check against the flash anchors, the envelope when
the check fails, and the calibration that is written. numpy and the sum of floats are
given (`Numerics`). A manifest's entries come with their config and artifact read, and
the prior calibration with its file.
-/
open Budget MlxTrainPerf.Memfit

namespace MlxTrainPerf.Plan

inductive LossArm
  | kernel
  | stock
  | other (name : String)
deriving DecidableEq, Repr

structure FitPoint where
  shape : ModelShape
  cfg : TrainConfig
  marginalPeakBytes : ℚ
  lossArm : LossArm

inductive FlashFit
  | ols
  | envelope
deriving DecidableEq, Repr

/-- What the script raises: `ValueError` for an artifact that is not `ok`, the
`PlanInputError`s of the fit with what their texts print, one of the planner's terms, the
estimate, or numpy. -/
inductive FitError
  | badStatus (artifact : String) (status : Option String)
  | notKernel (impl : Impl)
  | unknownLossArm (arm : LossArm) (seqLen batch : ℤ)
  | stockLossArm (seqLen batch : ℤ) (attention : Attention)
  | rankDeficient (points distinct : ℕ)
  | emptyFlashDesign
  | degeneratePoint (seqLen batch : ℤ) (xFlash : ℚ)
  | plan (e : PlanError)
  | estimate (e : MemfitError PlanError)
  | numpy

/-- `sum` on floats, `matrix_rank` and `lstsq`. -/
structure Numerics where
  sum : List ℚ → ℚ
  matrixRank : List (List ℚ) → Except FitError ℕ
  lstsq : List (List ℚ) → List ℚ → Except FitError (ℚ × ℚ × ℚ)

/-! ## `fit_memory_coeffs` -/

/-- `a - b`. -/
def sub (R : Rounding) (a b : ℚ) : ℚ := R.round (a - b)

/-- The coefficients of the stock branch. -/
structure StockCoeffs where
  base : ℚ
  aLinCkpt : ℚ
  aLinFull : ℚ
  aQuad : ℚ
deriving DecidableEq

structure MemoryCoeffs where
  stock : StockCoeffs
  flashKernel : ℚ
  flashStock : ℚ
deriving DecidableEq

/-- The stock coefficients that a calibration holds. -/
def Calibration.stock (calib : Calibration) : StockCoeffs :=
  ⟨calib.baseTransientBytes, calib.actBytesPerTokenHiddenLayerCkpt, calib.actBytesPerTokenHiddenLayerFull,
    calib.attnBytesPerHeadToken2⟩

/-- What a point must be. -/
def checkPoint (p : FitPoint) : Except FitError Unit :=
  if p.cfg.impl ≠ .kernel then .error (.notKernel p.cfg.impl)
  else
    match p.lossArm with
    | .kernel => .ok ()
    | .stock => if p.cfg.attention ≠ .flash then .error (.stockLossArm p.cfg.seqLen p.cfg.batch p.cfg.attention) else .ok ()
    | .other name => .error (.unknownLossArm (.other name) p.cfg.seqLen p.cfg.batch)

section Fit
variable (N : Numerics) (R : Rounding) (calib : Calibration)

def xLin (p : FitPoint) : ℚ := R.ofInt (p.cfg.batch * p.cfg.seqLen * p.shape.hidden * p.shape.layers)

def xQuad (p : FitPoint) : ℚ := R.ofInt (p.cfg.batch * p.shape.heads * p.cfg.seqLen ^ 2)

def xFlash (p : FitPoint) : ℚ := R.ofInt (p.cfg.batch * p.shape.heads * p.cfg.seqLen)

def residual (p : FitPoint) : Except FitError ℚ := do
  let loss ← (lossBytes R p.shape calib p.cfg).mapError .plan
  let analytic := loraBytes p.shape p.cfg + optimizerBytes R p.shape calib p.cfg + loss
  return sub R p.marginalPeakBytes (R.ofInt analytic)

/-- The stock branch: a full-rank least-squares fit, or the prior coefficients when there
are no stock points. -/
def fitStock (points : List FitPoint) : Except FitError StockCoeffs :=
  let stockPoints := points.filter fun p => p.cfg.attention = .stock
  if stockPoints.isEmpty then .ok calib.stock
  else do
    let ckpt := stockPoints.filter fun p => p.cfg.gradCheckpoint
    let full := stockPoints.filter fun p => !p.cfg.gradCheckpoint
    let aMat := ckpt.map fun p => [1, xLin R p, xQuad R p]
    let rank ← N.matrixRank aMat
    if rank < 3 then .error (.rankDeficient ckpt.length (ckpt.map fun p => p.cfg.seqLen).dedup.length)
    else
      let bVec ← ckpt.mapM (residual R calib)
      let (base, aLinCkpt, aQuad) ← N.lstsq aMat bVec
      if full.isEmpty then return ⟨base, aLinCkpt, calib.actBytesPerTokenHiddenLayerFull, aQuad⟩
      else
        let terms ← full.mapM fun p => do
          let r ← residual R calib p
          return R.mul (sub R (sub R r base) (R.mul aQuad (xQuad R p))) (xLin R p)
        let den := N.sum (full.map fun p => R.mul (xLin R p) (xLin R p))
        let aLinFull := if den ≠ 0 then R.round (N.sum terms / den) else calib.actBytesPerTokenHiddenLayerFull
        return ⟨base, aLinCkpt, aLinFull, aQuad⟩

/-- `flash_residual`, against the prior's base and linear coefficients. -/
def flashResidual (p : FitPoint) : Except FitError ℚ := do
  let aLin := if p.cfg.gradCheckpoint then calib.actBytesPerTokenHiddenLayerCkpt else calib.actBytesPerTokenHiddenLayerFull
  let r ← residual R calib p
  let saved ← (flashSavedStateBytes p.shape p.cfg).mapError .plan
  return sub R (sub R (sub R r calib.baseTransientBytes) (R.mul aLin (xLin R p))) (R.ofInt saved)

/-- `flash_residual(p) / x_flash(p)`. -/
def flashRatio (p : FitPoint) : Except FitError ℚ := do
  let r ← flashResidual R calib p
  return R.round (r / xFlash R p)

/-- `_guard_envelope_x_flash_positive`. -/
def guardEnvelope (arm : List FitPoint) : Except FitError Unit :=
  match arm.find? fun p => xFlash R p ≤ 0 with
  | some p => .error (.degeneratePoint p.cfg.seqLen p.cfg.batch (xFlash R p))
  | none => .ok ()

/-- `max(...)` of at least one value. -/
def maxOf (xs : List ℚ) : ℚ := xs.tail.foldl max (xs.headD 0)

/-- `fit_flash_arm`. -/
def fitFlashArm (fit : FlashFit) (arm : List FitPoint) (prior : ℚ) : Except FitError ℚ :=
  if arm.isEmpty then .ok prior
  else
    let den := N.sum (arm.map fun p => R.mul (xFlash R p) (xFlash R p))
    if den ≤ 0 then .error .emptyFlashDesign
    else
      match fit with
      | .envelope => do
        guardEnvelope R arm
        let ratios ← arm.mapM (flashRatio R calib)
        return maxOf ratios
      | .ols => do
        let terms ← arm.mapM fun p => do
          let r ← flashResidual R calib p
          return R.mul r (xFlash R p)
        return R.round (N.sum terms / den)

/-- The flash points of one loss arm. -/
def armPoints (points : List FitPoint) (arm : LossArm) : List FitPoint :=
  (points.filter fun p => p.cfg.attention = .flash).filter fun p => p.lossArm = arm

/-- `fit_memory_coeffs`. -/
def fitMemoryCoeffs (fit : FlashFit) (points : List FitPoint) : Except FitError MemoryCoeffs := do
  points.forM checkPoint
  let stock ← fitStock N R calib points
  let flashKernel ← fitFlashArm N R calib fit (armPoints points .kernel) calib.attnBytesPerHeadTokenFlashKernel
  let flashStock ← fitFlashArm N R calib fit (armPoints points .stock) calib.attnBytesPerHeadTokenFlashStock
  return ⟨stock, flashKernel, flashStock⟩

end Fit

/-! ## The script -/

section Script
variable (N : Numerics) (R : Rounding)

/-- `cfg_eval`. -/
def FitPoint.cfgEval (p : FitPoint) : TrainConfig := if p.lossArm = .kernel then p.cfg else { p.cfg with impl := .chunked }

/-- `measured_total`, less the tolerance of 1e-6. -/
def leastTotal (weights : ℤ) (p : FitPoint) : ℚ :=
  R.mul (R.add (R.ofInt weights) p.marginalPeakBytes) (sub R (R.ofInt 1) (R.round (1 / 1000000)))

def FlashFit.name : FlashFit → String
  | .ols => "ols"
  | .envelope => "envelope"

end Script
end MlxTrainPerf.Plan
