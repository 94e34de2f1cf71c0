import MlxTrainPerf.Plan.FitCalibration
/-!
# Does the written calibration cover its anchors?

The envelope is fitted against the prior's base and linear coefficients, and shipped
with those of the stock refit. Its check is not repeated. So an anchor is covered when
the refit takes no more bytes from it than its arm's coefficient has to spare.
-/
open Budget MlxTrainPerf.Memfit

namespace MlxTrainPerf.Plan

section Terms
variable (R : Rounding) (calib : Calibration) (p : FitPoint) (r : TrainConfig)

/-- What the estimate makes of a term. -/
def asBytes (n : ℤ) : ℤ := Rounding.trunc (R.ofInt n)

/-- What the estimate makes of a sum of terms, without a cushion. -/
def uncushioned (n : ℤ) : ℤ := Rounding.trunc (R.mul (R.ofInt n) (R.add (R.ofInt 1) 0))

/-- The terms of an anchor that no fit touches. -/
structure FixedTerms (weights loss saved : ℤ) : Prop where
  valid : validateCfg p.cfgEval = .ok ()
  resolved : resolveLoraLayers p.cfgEval p.shape = .ok r
  weights_eq : (dtypeBytes r.dtype >>= weightsBytes R p.shape) = .ok weights
  loss_eq : lossBytes R p.shape calib r = .ok loss
  saved_eq : flashSavedStateBytes p.shape r = .ok saved
  nonneg : 0 ≤ weights ∧ 0 ≤ loraBytes p.shape r ∧ 0 ≤ optimizerBytes R p.shape calib r ∧ 0 ≤ loss

def fixedBytes (weights loss : ℤ) : ℤ :=
  asBytes R weights + asBytes R (loraBytes p.shape r) + asBytes R (optimizerBytes R p.shape calib r) + asBytes R loss

/-- The base and activation bytes of an anchor. -/
def stockBytes : ℤ := asBytes R (Rounding.trunc calib.baseTransientBytes) + asBytes R (activationBytes R p.shape calib r)

/-- The attention term with the flash coefficient `a`. -/
def flashTerm (saved : ℤ) (a : ℚ) : ℤ := Rounding.trunc (R.add (R.ofInt saved) (R.scale a [r.batch, p.shape.heads, r.seqLen]))

end Terms

section Covers
variable {R : Rounding} {calib : Calibration} {p : FitPoint}

theorem resolveLoraLayers_eq {cfg r : TrainConfig} {shape : ModelShape} (h : resolveLoraLayers cfg shape = .ok r) :
    r = { cfg with loraLayers := r.loraLayers } := by
  unfold resolveLoraLayers at h
  split at h
  · obtain rfl := Except.ok.inj h
    rfl
  · split at h
    · cases h
    · obtain rfl := Except.ok.inj h
      rfl

section Eval
variable {phase name : String} {r : TrainConfig} {rest : List (String × (TrainConfig → Except PlanError Number))}
  {values : List (String × ℤ)}

end Eval

end Covers

/-! ## The check -/

section Check
variable {N : Numerics} {R : Rounding} {calib prior : Calibration} {p : FitPoint} {points : List FitPoint} {coeffs : MemoryCoeffs}
  {fit : FlashFit}

end Check

/-! ## The envelope -/

section Envelope
variable {N : Numerics} {R : Rounding} {prior refit : Calibration} {p : FitPoint} {arm points : List FitPoint} {a b : ℚ}

theorem foldl_max_spec (xs : List ℚ) (x : ℚ) : xs.foldl max x ∈ x :: xs ∧ ∀ y ∈ x :: xs, y ≤ xs.foldl max x := by
  induction xs generalizing x with
  | nil => simp
  | cons z xs ih =>
    obtain ⟨hmem, hle⟩ := ih (max x z)
    rw [List.foldl_cons]
    refine ⟨?_, fun y hy => ?_⟩
    · rcases List.mem_cons.1 hmem with h | h
      · rw [h]
        rcases max_choice x z with h' | h'
        · simp [h']
        · simp [h']
      · simp [h]
    · have htop := hle (max x z) (.head _)
      rcases List.mem_cons.1 hy with rfl | hy
      · exact (le_max_left _ _).trans htop
      · rcases List.mem_cons.1 hy with rfl | hy
        · exact (le_max_right _ _).trans htop
        · exact hle y (.tail _ hy)

theorem maxOf_spec {xs : List ℚ} (hne : xs ≠ []) : maxOf xs ∈ xs ∧ ∀ y ∈ xs, y ≤ maxOf xs := by
  obtain ⟨x, xs, rfl⟩ := List.exists_cons_of_ne_nil hne
  exact foldl_max_spec xs x

/-- The guard lets an arm pass when every anchor has a positive `x_flash`. -/
theorem guardEnvelope_eq_ok : guardEnvelope R arm = .ok () ↔ ∀ q ∈ arm, 0 < xFlash R q := by
  have hfind : (∀ q ∈ arm, 0 < xFlash R q) ↔ arm.find? (fun q => xFlash R q ≤ 0) = none := by
    rw [List.find?_eq_none]
    simp
  rw [hfind]
  unfold guardEnvelope
  split
  · next hsome => simp [hsome]
  · next hnone => simp [hnone]

end Envelope

/-! ## What the refit takes, and what the envelope has to spare -/

/-- The prior with the stock coefficients of the refit. -/
def Calibration.refit (prior : Calibration) (stock : StockCoeffs) : Calibration :=
  { prior with
    baseTransientBytes := stock.base
    actBytesPerTokenHiddenLayerCkpt := stock.aLinCkpt
    actBytesPerTokenHiddenLayerFull := stock.aLinFull
    attnBytesPerHeadToken2 := stock.aQuad }

/-- The bytes that a refit takes from the base and the activations of an anchor. -/
def refitDrop (R : Rounding) (prior refit : Calibration) (p : FitPoint) (r : TrainConfig) : ℤ :=
  stockBytes R prior p r - stockBytes R refit p r

/-- With the flash coefficient `a`, the prior's prediction for the anchor has the bytes to
spare that the refit takes. -/
def Spared (R : Rounding) (prior refit : Calibration) (p : FitPoint) (a : ℚ) : Prop :=
  ∃ r weights loss saved, FixedTerms R prior p r weights loss saved ∧ 0 ≤ Rounding.trunc refit.baseTransientBytes ∧
    0 ≤ activationBytes R p.shape refit r ∧ 0 ≤ flashTerm R p r saved a ∧
    leastTotal R (asBytes R weights) p ≤ uncushioned R
      (fixedBytes R prior p r weights loss + stockBytes R prior p r + asBytes R (flashTerm R p r saved a) - refitDrop R prior refit p r)

/-- The flash coefficient of a loss arm. -/
def MemoryCoeffs.flash (coeffs : MemoryCoeffs) : LossArm → ℚ
  | .kernel => coeffs.flashKernel
  | _ => coeffs.flashStock

section Spare
variable {N : Numerics} {R : Rounding} {env : FitEnv} {prior refit : Calibration} {p : FitPoint} {points : List FitPoint}
  {coeffs : MemoryCoeffs} {a b : ℚ} {n : ℕ} {fit : FlashFit}

theorem uncushioned_mono {m n : ℤ} (h : m ≤ n) : uncushioned R m ≤ uncushioned R n := by
  have hone : 0 ≤ R.add (R.ofInt 1) 0 := Rounding.add_nonneg (Rounding.ofInt_nonneg zero_le_one) le_rfl
  exact Rounding.trunc_mono (R.mono (mul_le_mul_of_nonneg_right (Rounding.ofInt_mono h) hone))

theorem asBytes_mono {m n : ℤ} (h : m ≤ n) : asBytes R m ≤ asBytes R n := Rounding.trunc_mono (Rounding.ofInt_mono h)

/-- The evaluated config of an anchor keeps its size. -/
theorem FixedTerms.size {r : TrainConfig} {weights loss saved : ℤ} (h : FixedTerms R prior p r weights loss saved) :
    r.batch = p.cfg.batch ∧ r.seqLen = p.cfg.seqLen ∧ 1 ≤ r.batch ∧ 1 ≤ r.seqLen := by
  have hcfg : p.cfgEval.batch = p.cfg.batch ∧ p.cfgEval.seqLen = p.cfg.seqLen := by
    unfold FitPoint.cfgEval
    split
    · exact ⟨rfl, rfl⟩
    · exact ⟨rfl, rfl⟩
  have hvalid := h.valid
  unfold validateCfg at hvalid
  split_ifs at hvalid with hbatch hseq
  rw [resolveLoraLayers_eq h.resolved]
  exact ⟨hcfg.1, hcfg.2, not_lt.1 hbatch, not_lt.1 hseq⟩

/-- A larger coefficient spares as much. -/
theorem Spared.mono (hx : 0 < xFlash R p) (hab : a ≤ b) (h : Spared R prior refit p a) : Spared R prior refit p b := by
  obtain ⟨r, weights, loss, saved, hfixed, hbase, hact, hterm, hle⟩ := h
  obtain ⟨hbatch, hseq, hbatch₁, hseq₁⟩ := hfixed.size
  have hheads : 0 ≤ p.shape.heads := by
    have hprod := Rounding.pos_of_ofInt_pos hx
    rw [← hbatch, ← hseq] at hprod
    exact (pos_of_mul_pos_right (pos_of_mul_pos_left hprod (by omega)) (by omega)).le
  have hflash : flashTerm R p r saved a ≤ flashTerm R p r saved b := by
    refine Rounding.trunc_mono (Rounding.add_mono le_rfl (Rounding.scale_mono_left hab ?_))
    rw [List.forall_mem_cons, List.forall_mem_cons, List.forall_mem_singleton]
    exact ⟨zero_le_one.trans hbatch₁, hheads, zero_le_one.trans hseq₁⟩
  refine ⟨r, weights, loss, saved, hfixed, hbase, hact, hterm.trans hflash, hle.trans ?_⟩
  have hbytes := asBytes_mono (R := R) hflash
  exact_mod_cast uncushioned_mono (sub_le_sub_right (add_le_add_right hbytes _) _)

theorem mem_armPoints {arm : LossArm} : p ∈ armPoints points arm ↔ p ∈ points ∧ p.cfg.attention = .flash ∧ p.lossArm = arm := by
  simp [armPoints, and_comm]

end Spare

end MlxTrainPerf.Plan
