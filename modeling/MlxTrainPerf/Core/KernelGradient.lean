import MlxTrainPerf.Core.KernelLoss
/-!
# The gradient of the kernel's loss

The backward runs the chunk loop on the logsumexps that the forward saved. What it
returns is the gradient of the rows' losses the same forward returned, with respect to
the hidden state, and to a dense weight that trains.
-/
open Loops XReal OnlineSoftmax Vjp

namespace MlxTrainPerf.Core

noncomputable section

/-! ## A call by its entries -/

/-- The entries of `hidden` and of the weights. -/
def DenseArgs.entries (x : DenseArgs) : HeadIndex x.n x.d x.v → ℝ :=
  Sum.elim (fun p => x.hidden p.1 p.2) fun p => x.w p.1 p.2

/-- The call with the logsumexps its rows have. -/
def DenseArgs.bwd (x : DenseArgs) (ct : ℕ → ℝ) : BwdArgs :=
  ⟨x, fun i => logSumExp (Finset.range x.v) (x.logit i), ct⟩

/-- The weights train: a dense head that is trainable. -/
def LossCall.trainsWeight (c : LossCall) (trainable : Bool) : Bool :=
  match c.head with
  | .dense _ => trainable
  | .quantized _ => false

end

section Entries
variable {x : DenseArgs} {ct : ℕ → ℝ} {i k c : ℕ}

theorem matrixOf_entries {a b : ℕ} (f : ℕ → ℕ → ℝ) (hi : i < a) (hk : k < b) :
    matrixOf (fun p : Fin a × Fin b => f p.1 p.2) i k = f i k := dif_pos ⟨hi, hk⟩

theorem logit_entries (hi : i < x.n) (hc : c < x.v) : (headArgs x.targets x.v_int32 x.entries).logit i c = x.logit i c := by
  apply Finset.sum_congr rfl
  intro k hk
  exact congrArg₂ (· * ·) (matrixOf_entries x.hidden hi (Finset.mem_range.1 hk))
    (matrixOf_entries x.w hc (Finset.mem_range.1 hk))

theorem logSumExp_entries (hi : i < x.n) :
    logSumExp (Finset.range x.v) ((headArgs x.targets x.v_int32 x.entries).logit i) =
      logSumExp (Finset.range x.v) (x.logit i) := by
  apply congrArg Real.log
  apply Finset.sum_congr rfl
  intro c hc
  exact congrArg Real.exp (logit_entries hi (Finset.mem_range.1 hc))

/-- The coefficients read the call's own entries only. -/
theorem coeff_entries (hi : i < x.n) (hc : c < x.v) :
    (headBwd x.targets x.v_int32 ct x.entries).coeff i c = (x.bwd ct).coeff i c := by
  unfold BwdArgs.coeff headBwd DenseArgs.bwd
  dsimp only
  rw [logit_entries hi hc, logSumExp_entries hi]
  rfl

theorem nll_entries (hrange : x.InRange) (hi : i < x.n) : (headArgs x.targets x.v_int32 x.entries).nll i = x.nll i :=
  congrArg₂ (· - ·) (logSumExp_entries hi) (logit_entries hi (hrange.target_lt hi))

theorem dHidden_entries (hi : i < x.n) (hk : k < x.d) :
    (headBwd x.targets x.v_int32 ct x.entries).dHidden i k = (x.bwd ct).dHidden i k := by
  apply Finset.sum_congr rfl
  intro c hc
  exact congrArg₂ (· * ·) (coeff_entries hi (Finset.mem_range.1 hc)) (matrixOf_entries x.w (Finset.mem_range.1 hc) hk)

theorem dWeight_entries (hc : c < x.v) (hk : k < x.d) :
    (headBwd x.targets x.v_int32 ct x.entries).dWeight c k = (x.bwd ct).dWeight c k := by
  apply Finset.sum_congr rfl
  intro i hi
  exact congrArg₂ (· * ·) (coeff_entries (Finset.mem_range.1 hi) hc) (matrixOf_entries x.hidden (Finset.mem_range.1 hi) hk)

end Entries

/-! ## The chunk loop on the saved logsumexps -/

section Saved
variable {n v : ℕ} {hidden : ℕ → ℕ → XReal} {mm : MatmulChunk} {wChunk : WChunk} {targets : ℕ → ℤ}
  {lse lse' ct : ℕ → XReal} {chunkSize : ℤ} {trainable : Bool}

/-- A row of the backward reads its own logsumexp, `d_w` those of the rows there are. -/
theorem chunkedBackward_congr {dHidden' : ℕ → ℕ → XReal} {dW : Option (List (ℕ → XReal))} (hlse : ∀ i < n, lse i = lse' i)
    (h : chunkedBackward n hidden mm wChunk targets lse' ct v chunkSize trainable = .ok (dHidden', dW)) :
    ∃ dHidden, chunkedBackward n hidden mm wChunk targets lse ct v chunkSize trainable = .ok (dHidden, dW) ∧
      ∀ i < n, ∀ k, dHidden i k = dHidden' i k := by
  have hgrad : ∀ i < n, ∀ r j, chunkGrad mm targets lse ct r i j = chunkGrad mm targets lse' ct r i j := by
    intro i hi r j
    unfold chunkGrad
    rw [hlse i hi]
  have hdW : ∀ r m, chunkDw n hidden (chunkGrad mm targets lse ct r) m = chunkDw n hidden (chunkGrad mm targets lse' ct r) m := by
    intro r m
    apply List.map_congr_left
    intro j _
    funext k
    apply Finset.sum_congr rfl
    intro i hi
    rw [hgrad i (Finset.mem_range.1 hi)]
  unfold chunkedBackward at h ⊢
  obtain ⟨rs, hrs, h⟩ := Budget.bind_eq_ok.1 h
  rw [hrs]
  dsimp only [bind, Except.bind] at h ⊢
  simp only [hdW]
  split at h
  · next htrains =>
    split at h
    · cases h
    · next hne =>
      obtain ⟨rfl, rfl⟩ := Prod.mk.inj (Except.ok.inj h)
      rw [if_pos htrains, if_neg hne]
      refine ⟨_, rfl, fun i hi k => ?_⟩
      simp only [hgrad i hi]
  · next hfrozen =>
    obtain ⟨rfl, rfl⟩ := Prod.mk.inj (Except.ok.inj h)
    rw [if_neg hfrozen]
    refine ⟨_, rfl, fun i hi k => ?_⟩
    simp only [hgrad i hi]

/-- From logsumexps that are saved for the call's own rows, the chunk loop returns the gradient the call's losses have. -/
theorem chunkedBackward_saved (x : DenseArgs) {saved : ℕ → XReal} (hv : 1 ≤ x.v)
    (hsaved : ∀ i < x.n, saved i = real (logSumExp (Finset.range x.v) (x.logit i))) (ct : ℕ → ℝ) (hchunk : 1 ≤ chunkSize)
    (trainable : Bool) :
    ∃ dHidden dW, chunkedBackward x.n (fun i k => real (x.hidden i k)) (denseMatmul x) (denseChunk x) x.targets saved
        (fun i => real (ct i)) x.v chunkSize trainable =
        .ok (dHidden, if trainable then some dW else none) ∧
      (∀ i < x.n, ∀ k, dHidden i k = real ((x.bwd ct).dHidden i k)) ∧
      dW = (List.range x.v).map fun c k => real ((x.bwd ct).dWeight c k) := by
  obtain ⟨rs, htiles, hok⟩ := chunks_pos x.v hchunk
  obtain ⟨dHidden', hrun, hrows⟩ := chunkedBackward_ok (x.bwd ct) hok htiles (htiles.ne_nil hv) trainable
  obtain ⟨dHidden, hsame, hcongr⟩ := chunkedBackward_congr hsaved hrun
  refine ⟨dHidden, _, hsame, fun i hi k => ?_, @flatMap_chunkRows (x.bwd ct) rs htiles⟩
  rw [hcongr i hi k, hrows]

end Saved

/-! ## The kernel's backward -/

/-- A returned gradient holds `g` at the entries of `hidden`, and of the weights where they train. -/
structure Returns {n d v : ℕ} (trains : Bool) (dHidden : ℕ → ℕ → XReal) (dW : Option (List (ℕ → XReal)))
    (g : HeadIndex n d v → ℝ) : Prop where
  hidden : ∀ i k, dHidden (i : Fin n) (k : Fin d) = real (g (.inl (i, k)))
  frozen : trains = false → dW = none
  weight : trains = true → ∃ rows, dW = some rows ∧ ∀ c k, rows.getD (c : Fin v) (fun _ => nan) (k : Fin d) = real (g (.inr (c, k)))

theorem kernelVjp_eq {dequantize : Dequantize} {c : LossCall} {trainable : Bool} {lse : List XReal} {ct : ℕ → ℝ} :
    kernelVjp dequantize c trainable lse ct = chunkedBackward c.rows (fun i k => real ((c.args dequantize).hidden i k))
      (denseMatmul (c.args dequantize)) (denseChunk (c.args dequantize)) (c.args dequantize).targets
      (fun i => lse.getD i nan) (fun i => real (ct i)) (c.args dequantize).v kernelTile (c.trainsWeight trainable) := by
  obtain ⟨hidden, head, targets, impl, size, reduction, validate⟩ := c
  cases head with
  | dense head => rfl
  | quantized head => rfl

/-- What the kernel saves in its forward gives, in its backward, the gradient of the losses it returned. -/
theorem kernel_loss_gradient (dequantize : Dequantize) (haffine : Affine dequantize) (dev : Device) (c : LossCall)
    (hwords : c.Words) (hcheck : checkCall c = .ok ()) (hrange : c.validateTargets = false → (c.args dequantize).InRange)
    (rowTiles : ℤ) (out : List XReal × List XReal) (hout : kernelOutputs dev c rowTiles = .ok out) (trainable : Bool)
    (ct : ℕ → ℝ) :
    let x := c.args dequantize
    (∀ i < c.rows, rowLoss out i = real ((headArgs x.targets x.v_int32 x.entries).nll i)) ∧
    ∃ dHidden dW g, kernelVjp dequantize c trainable out.1 ct = .ok (dHidden, dW) ∧
      IsGradient (weightedNll x.targets x.v_int32 ct) x.entries g ∧ Returns (c.trainsWeight trainable) dHidden dW g := by
  intro x
  have hrange : x.InRange := by
    cases hvalidate : c.validateTargets with
    | false => exact hrange hvalidate
    | true => exact inRange_of_check hcheck hvalidate
  have hv : 1 ≤ x.v := Nat.one_le_of_lt (hrange.target_lt (rows_pos_of_check hcheck))
  have hlosses := kernelOutputs_ok haffine hwords hrange hout
  have hsaved : ∀ i < x.n, out.1.getD i nan = real (logSumExp (Finset.range x.v) (x.logit i)) := by
    intro i hi
    rw [hlosses]
    exact getD_rows hi _
  obtain ⟨dHidden, dW, hrun, hrows, hdW⟩ := @chunkedBackward_saved kernelTile x (fun i => out.1.getD i nan) hv hsaved ct
    (by decide) (c.trainsWeight trainable)
  refine ⟨fun i hi => ?_, dHidden, _, _, kernelVjp_eq.trans hrun, isGradient_weightedNll hrange, ?_, ?_, ?_⟩
  · rw [hlosses, rowLoss_eq hi, nll_entries hrange hi]
    rfl
  · intro i k
    rw [hrows i i.2 k, Sum.elim_inl, dHidden_entries i.2 k.2]
  · intro hfrozen
    rw [hfrozen]
    rfl
  · intro htrains
    refine ⟨dW, if_pos htrains, fun c k => ?_⟩
    rw [hdW, Sum.elim_inr, dWeight_entries c.2 k.2]
    exact congrFun (getD_rows c.2 fun c k => real ((x.bwd ct).dWeight c k)) k

/-- The small call, whose weight trains. -/
theorem kernel_loss_gradient_smallCall : ∃ out dHidden dW g, kernelOutputs fastDevice kernelCall 2 = .ok out ∧
    kernelVjp affineRow kernelCall true out.1 (fun _ => 1) = .ok (dHidden, dW) ∧
    IsGradient (weightedNll (kernelCall.args affineRow).targets (kernelCall.args affineRow).v_int32 fun _ => 1)
      (kernelCall.args affineRow).entries g ∧ Returns true dHidden dW g := by
  obtain ⟨out, hout⟩ := @kernelCall_outputs 2 (Or.inl rfl)
  obtain ⟨-, dHidden, dW, g, hvjp, hgradient, hreturns⟩ := kernel_loss_gradient affineRow (fun _ _ _ _ => rfl) fastDevice
    kernelCall (fun _ h => by cases h) rfl (fun h => by cases h) 2 out hout true fun _ => 1
  exact ⟨out, dHidden, dW, g, hout, hvjp, hgradient, hreturns⟩

end MlxTrainPerf.Core
