import MlxTrainPerf.Core.ChunkedLoss
import MlxTrainPerf.Lib.Vjp
/-!
# The chunked backward is the gradient

The sum of the rows' losses, weighted by a cotangent, as a function of the entries
of the hidden state and the weight. Its derivative pairs each logit's move with the
logit's coefficient, and what that leaves for an entry is what `chunked_backward`
returns there: the chunks cut the columns, for `d_hidden` and for `d_w` alike.
-/
open Loops XReal OnlineSoftmax Vjp

namespace MlxTrainPerf.Core

/-! ## The loss -/

/-- The entries of `hidden` and `w`, together. -/
abbrev HeadIndex (n d v : ℕ) : Type := (Fin n × Fin d) ⊕ (Fin v × Fin d)

/-- A matrix by its entries; 0 out of range. -/
def matrixOf {a b : ℕ} (x : Fin a × Fin b → ℝ) : ℕ → ℕ → ℝ := fun i k =>
  if h : i < a ∧ k < b then x (⟨i, h.1⟩, ⟨k, h.2⟩) else 0

/-- The call whose entries are `x`. -/
def headArgs {n d v : ℕ} (targets : ℕ → ℤ) (hv : v < 2 ^ 31) (x : HeadIndex n d v → ℝ) : DenseArgs :=
  ⟨n, d, v, matrixOf fun p => x (.inl p), matrixOf fun p => x (.inr p), targets, hv⟩

/-- The rows' losses, weighted by `ct`. -/
noncomputable def weightedNll {n d v : ℕ} (targets : ℕ → ℤ) (hv : v < 2 ^ 31) (ct : ℕ → ℝ) (x : HeadIndex n d v → ℝ) :
    ℝ :=
  ∑ i ∈ Finset.range n, ct i * (headArgs targets hv x).nll i

/-- The same call, with its logsumexps and the cotangent. -/
noncomputable def headBwd {n d v : ℕ} (targets : ℕ → ℤ) (hv : v < 2 ^ 31) (ct : ℕ → ℝ) (x : HeadIndex n d v → ℝ) :
    BwdArgs :=
  ⟨headArgs targets hv x, fun i => logSumExp (Finset.range v) ((headArgs targets hv x).logit i), ct⟩

/-! ## Its derivative -/

section Derivative
variable {n d v : ℕ} {targets : ℕ → ℤ} {hv : v < 2 ^ 31} {ct : ℕ → ℝ} {x : HeadIndex n d v → ℝ} {i c : ℕ}

/-- The derivative of a matrix of arguments. -/
noncomputable def matrixMoves {a b : ℕ} (arg : Fin a × Fin b → HeadIndex n d v) (i k : ℕ) :
    (HeadIndex n d v → ℝ) →L[ℝ] ℝ :=
  if h : i < a ∧ k < b then ContinuousLinearMap.proj (arg (⟨i, h.1⟩, ⟨k, h.2⟩)) else 0

theorem hasFDerivAt_matrixOf {a b : ℕ} (arg : Fin a × Fin b → HeadIndex n d v) (i k : ℕ) :
    HasFDerivAt (fun x : HeadIndex n d v → ℝ => matrixOf (fun p => x (arg p)) i k) (matrixMoves arg i k) x := by
  by_cases h : i < a ∧ k < b
  · simp only [matrixOf, matrixMoves, dif_pos h]
    exact (ContinuousLinearMap.proj (R := ℝ) (φ := fun _ : HeadIndex n d v => ℝ) _).hasFDerivAt
  · simp only [matrixOf, matrixMoves, dif_neg h]
    exact hasFDerivAt_const 0 x

theorem matrixMoves_apply {a b : ℕ} (arg : Fin a × Fin b → HeadIndex n d v) (i k : ℕ) (δ : HeadIndex n d v → ℝ) :
    matrixMoves arg i k δ = matrixOf (fun p => δ (arg p)) i k := by
  unfold matrixMoves matrixOf
  split <;> rfl

/-- How a logit moves in the direction `δ`. -/
noncomputable def moveLogit (targets : ℕ → ℤ) (hv : v < 2 ^ 31) (x δ : HeadIndex n d v → ℝ) (i c : ℕ) : ℝ :=
  ∑ k ∈ Finset.range d, ((headArgs targets hv x).hidden i k * (headArgs targets hv δ).w c k +
    (headArgs targets hv x).w c k * (headArgs targets hv δ).hidden i k)

theorem hasFDerivAt_logit (i c : ℕ) : ∃ logit' : (HeadIndex n d v → ℝ) →L[ℝ] ℝ,
    HasFDerivAt (fun x => (headArgs targets hv x).logit i c) logit' x ∧
      ∀ δ, logit' δ = moveLogit targets hv x δ i c := by
  have hdot := HasFDerivAt.fun_sum fun k (_ : k ∈ Finset.range d) =>
    (@hasFDerivAt_matrixOf n d v x _ _ Sum.inl i k).mul (@hasFDerivAt_matrixOf n d v x _ _ Sum.inr c k)
  refine ⟨_, hdot, fun δ => ?_⟩
  simp only [smul_apply, add_apply, sum_apply, smul_eq_mul, matrixMoves_apply]
  rfl

/-- A row's loss moves with each logit by the softmax less the one-hot. -/
theorem hasFDerivAt_nll (hrange : (headArgs targets hv x).InRange) (hi : i < n) :
    ∃ nll' : (HeadIndex n d v → ℝ) →L[ℝ] ℝ, HasFDerivAt (fun x => ct i * (headArgs targets hv x).nll i) nll' x ∧
      ∀ δ, nll' δ = ∑ c ∈ Finset.range v, (headBwd targets hv ct x).coeff i c * moveLogit targets hv x δ i c := by
  have htarget : (targets i).toNat < v := hrange.target_lt hi
  have hnonneg : 0 ≤ targets i := (hrange i hi).1
  have hne : (Finset.range v).Nonempty := ⟨_, Finset.mem_range.2 htarget⟩
  choose logit' hlogit hmove using @hasFDerivAt_logit n d v targets hv x i
  have hlse := hasFDerivAt_logSumExp hne fun c (_ : c ∈ Finset.range v) => hlogit c
  refine ⟨_, (hlse.sub (hlogit (targets i).toNat)).const_mul (ct i), fun δ => ?_⟩
  -- The target's logit is the one-hot's sum over the columns.
  have hhit : ∑ c ∈ Finset.range v, (if (c : ℤ) = targets i then 1 else 0) * moveLogit targets hv x δ i c =
      moveLogit targets hv x δ i (targets i).toNat := by
    rw [Finset.sum_eq_single_of_mem _ (Finset.mem_range.2 htarget)]
    · rw [if_pos (Int.toNat_of_nonneg hnonneg), one_mul]
    · intro c _ hc
      rw [if_neg (by omega), zero_mul]
  simp only [smul_apply, sub_apply, sum_apply, smul_eq_mul, hmove, weight_eq_exp hne]
  rw [← hhit, ← Finset.sum_sub_distrib, Finset.mul_sum]
  apply Finset.sum_congr rfl
  intro c _
  rw [← sub_mul, ← mul_assoc]
  rfl

/-- What a row sends to the logits reaches the entries as `d_hidden` and `d_w`. -/
theorem sum_moveLogit (δ : HeadIndex n d v → ℝ) :
    ∑ i ∈ Finset.range n, ∑ c ∈ Finset.range v, (headBwd targets hv ct x).coeff i c * moveLogit targets hv x δ i c =
      ∑ i ∈ Finset.range n, ∑ k ∈ Finset.range d,
          (headBwd targets hv ct x).dHidden i k * (headArgs targets hv δ).hidden i k +
        ∑ c ∈ Finset.range v, ∑ k ∈ Finset.range d,
          (headBwd targets hv ct x).dWeight c k * (headArgs targets hv δ).w c k := by
  let y := headBwd targets hv ct x
  let δH := (headArgs targets hv δ).hidden
  let δW := (headArgs targets hv δ).w
  -- Both pairings, with the sum over the columns, or the rows, brought out.
  have hH : ∑ i ∈ Finset.range n, ∑ k ∈ Finset.range d, y.dHidden i k * δH i k =
      ∑ i ∈ Finset.range n, ∑ c ∈ Finset.range v, ∑ k ∈ Finset.range d, y.coeff i c * y.w c k * δH i k := by
    apply Finset.sum_congr rfl
    intro i _
    rw [Finset.sum_comm]
    apply Finset.sum_congr rfl
    intro k _
    exact Finset.sum_mul _ _ _
  have hW : ∑ c ∈ Finset.range v, ∑ k ∈ Finset.range d, y.dWeight c k * δW c k =
      ∑ i ∈ Finset.range n, ∑ c ∈ Finset.range v, ∑ k ∈ Finset.range d, y.coeff i c * y.hidden i k * δW c k := by
    refine Eq.trans ?_ Finset.sum_comm
    apply Finset.sum_congr rfl
    intro c _
    rw [Finset.sum_comm]
    apply Finset.sum_congr rfl
    intro k _
    exact Finset.sum_mul _ _ _
  rw [hH, hW, ← Finset.sum_add_distrib]
  apply Finset.sum_congr rfl
  intro i _
  rw [← Finset.sum_add_distrib]
  apply Finset.sum_congr rfl
  intro c _
  rw [moveLogit, Finset.mul_sum, ← Finset.sum_add_distrib]
  apply Finset.sum_congr rfl
  intro k _
  change y.coeff i c * (y.hidden i k * δW c k + y.w c k * δH i k) = _
  ring

/-- The pairing of a matrix with the moves is the sum over its entries. -/
theorem sum_matrixOf {a b : ℕ} (f : ℕ → ℕ → ℝ) (δ : Fin a × Fin b → ℝ) :
    ∑ i ∈ Finset.range a, ∑ k ∈ Finset.range b, f i k * matrixOf δ i k = ∑ p : Fin a × Fin b, f p.1 p.2 * δ p := by
  simp only [Fintype.sum_prod_type, Finset.sum_range]
  apply Finset.sum_congr rfl
  intro i _
  apply Finset.sum_congr rfl
  intro k _
  rw [matrixOf, dif_pos ⟨i.2, k.2⟩]

/-- The gradient, by its entries. -/
theorem isGradient_weightedNll (hrange : (headArgs targets hv x).InRange) :
    IsGradient (weightedNll targets hv ct) x (Sum.elim (fun p => (headBwd targets hv ct x).dHidden p.1 p.2)
      fun p => (headBwd targets hv ct x).dWeight p.1 p.2) := by
  have hrow : ∀ i, ∃ nll' : (HeadIndex n d v → ℝ) →L[ℝ] ℝ, i ∈ Finset.range n →
      HasFDerivAt (fun x => ct i * (headArgs targets hv x).nll i) nll' x ∧
        ∀ δ, nll' δ = ∑ c ∈ Finset.range v, (headBwd targets hv ct x).coeff i c * moveLogit targets hv x δ i c := by
    intro i
    by_cases hi : i < n
    · obtain ⟨nll', hnll⟩ := @hasFDerivAt_nll n d v targets hv ct x i hrange hi
      exact ⟨nll', fun _ => hnll⟩
    · exact ⟨0, fun hmem => absurd (Finset.mem_range.1 hmem) hi⟩
  choose nll' hnll using hrow
  refine ⟨∑ i ∈ Finset.range n, nll' i, HasFDerivAt.fun_sum fun i hi => (hnll i hi).1, fun δ => ?_⟩
  rw [sum_apply, Finset.sum_congr rfl fun i hi => (hnll i hi).2 δ, sum_moveLogit]
  simp only [Fintype.sum_sum_type, Sum.elim_inl, Sum.elim_inr]
  rw [← sum_matrixOf, ← sum_matrixOf]
  rfl

end Derivative

/-! ## The chunks -/

section Chunks
variable {x : BwdArgs} {chunkSize : ℤ} {rs : List (ℕ × ℕ)} {c : ℕ}

/-- The gradient one chunk appends to `d_w_chunks`. -/
noncomputable def chunkRows (x : BwdArgs) (r : ℕ × ℕ) : List (ℕ → XReal) :=
  chunkDw x.n (fun i k => real (x.hidden i k)) (chunkGrad (denseMatmul x.toDenseArgs) x.targets
    (fun i => real (x.lse i)) (fun i => real (x.cotangent i)) r) (r.2 - r.1)

/-- Column `c` is in one chunk only, whose gradient stands in `d_w` at the chunk's own rows. -/
def OwnRow (x : BwdArgs) (rs : List (ℕ × ℕ)) (dW : List (ℕ → XReal)) (c : ℕ) : Prop :=
  ∃ r ∈ rs, (r.1 ≤ c ∧ c < r.2) ∧ (∀ r' ∈ rs, r'.1 ≤ c → c < r'.2 → r' = r) ∧
    ∃ pre post, dW = pre ++ chunkRows x r ++ post ∧ pre.length = r.1 ∧ (chunkRows x r).length = r.2 - r.1

theorem chunkRows_eq (r : ℕ × ℕ) :
    chunkRows x r = (List.range (r.2 - r.1)).map fun j k => real (x.dWeight (r.1 + j) k) := by
  unfold chunkRows chunkDw
  refine List.map_congr_left fun j _ => funext fun k => sum_real fun i _ => ?_
  rw [chunkGrad_eq, real_mul_real]

/-- The chunks' gradients, one after another, are the rows of the whole. -/
theorem flatMap_chunkRows (htiles : Tiles 0 x.v rs) :
    rs.flatMap (chunkRows x) = (List.range x.v).map fun c k => real (x.dWeight c k) := by
  have hrows := htiles.flatMap_rows fun c k => real (x.dWeight c k)
  simp only [Nat.zero_add, Nat.sub_zero] at hrows
  rw [← hrows]
  exact List.flatMap_congr fun r _ => chunkRows_eq r

theorem ownRow_of_tiles (htiles : Tiles 0 x.v rs) (hc : c < x.v) : OwnRow x rs (rs.flatMap (chunkRows x)) c := by
  obtain ⟨r, hr, hlo, hhi⟩ := htiles.exists_mem (Nat.zero_le c) hc
  obtain ⟨ps, qs, rfl, hps, -⟩ := htiles.split hr
  refine ⟨r, hr, ⟨hlo, hhi⟩, fun r' hr' hlo' hhi' => htiles.unique hr' hr hlo' hhi' hlo hhi, ps.flatMap (chunkRows x),
    qs.flatMap (chunkRows x), ?_, ?_, ?_⟩
  · rw [List.flatMap_append, List.flatMap_cons, List.append_assoc]
  · -- The chunks before it are as long as its first column says.
    have hrows := hps.flatMap_rows fun c k => real (x.dWeight c k)
    rw [List.flatMap_congr fun r _ => chunkRows_eq r, hrows, List.length_map, List.length_range, Nat.sub_zero]
  · rw [chunkRows_eq, List.length_map, List.length_range]

end Chunks

/-- The stream's logsumexps, for every chunk size. -/
theorem streamed_lse (x : DenseArgs) (hv : 1 ≤ x.v) {chunkSize : ℤ} (h : 1 ≤ chunkSize) :
    ∃ out, streamedLseAndTarget (denseMatmul x) x.targets x.v chunkSize = .ok out ∧
      ∀ i, (out i).1 = real (logSumExp (Finset.range x.v) (x.logit i)) := by
  obtain ⟨rs, htiles, hok⟩ := chunks_pos x.v h
  have hne : (Finset.range x.v).Nonempty := ⟨0, Finset.mem_range.2 hv⟩
  refine ⟨fun i => rs.foldl (streamStep (denseMatmul x) x.targets i) (negInf, 0), ?_, fun i => ?_⟩
  · unfold streamedLseAndTarget
    rw [hok]
    rfl
  · rw [foldl_streamStep_fst htiles lseOf_empty.symm, lseOf_of_nonempty hne]

/-- What the backward returns, by its entries. -/
def gradEntries {n d v : ℕ} (dHidden : ℕ → ℕ → XReal) (dW : List (ℕ → XReal)) : HeadIndex n d v → XReal :=
  Sum.elim (fun p => dHidden p.1 p.2) fun p => dW.getD p.1 (fun _ => nan) p.2

/-- With the logsumexps of a stream in chunks of any size, the chunk loop returns the gradient of the weighted losses
with respect to `hidden` and `w`, each row of `d_w` from one chunk and at its own place. -/
theorem chunked_backward_gradient {n d v : ℕ} (targets : ℕ → ℤ) (hv : 1 ≤ v) (hv32 : v < 2 ^ 31) (ct : ℕ → ℝ)
    (x : HeadIndex n d v → ℝ) (hrange : (headArgs targets hv32 x).InRange) (chunkSize lseChunkSize : ℤ)
    (hchunk : 1 ≤ chunkSize) (hlse : 1 ≤ lseChunkSize) :
    let args := headArgs targets hv32 x
    (∃ nll, denseCe args lseChunkSize = .ok nll ∧ ∀ i < n, nll i = real (args.nll i)) ∧
    ∃ out dHidden dW g rs, streamedLseAndTarget (denseMatmul args) targets v lseChunkSize = .ok out ∧
      chunkedBackward n (fun i k => real (args.hidden i k)) (denseMatmul args) (denseChunk args) targets
        (fun i => (out i).1) (fun i => real (ct i)) v chunkSize true = .ok (dHidden, some dW) ∧
      (∀ p, gradEntries dHidden dW p = real (g p)) ∧ IsGradient (weightedNll targets hv32 ct) x g ∧
      chunks v chunkSize = .ok rs ∧ rs.Nodup ∧ dW.length = v ∧ ∀ c < v, OwnRow (headBwd targets hv32 ct x) rs dW c := by
  intro args
  let y := headBwd targets hv32 ct x
  obtain ⟨out, hout, hlses⟩ := streamed_lse args hv hlse
  obtain ⟨rs, htiles, hok⟩ := chunks_pos v hchunk
  obtain ⟨dHidden, hrun, hrows⟩ := chunkedBackward_ok y hok htiles (htiles.ne_nil hv) true
  have hlseFun : (fun i => (out i).1) = fun i => real (y.lse i) := funext hlses
  have hdW := @flatMap_chunkRows y rs htiles
  refine ⟨denseCe_pos hrange hlse, out, dHidden, rs.flatMap (chunkRows y), _, rs, hout, ?_, ?_,
    isGradient_weightedNll hrange, hok, htiles.nodup, ?_, fun c hc => ownRow_of_tiles htiles hc⟩
  · rw [hlseFun]
    exact hrun
  · rintro (p | p)
    · exact hrows p.1 p.2
    · unfold gradEntries
      have hp : (p.1 : ℕ) < ((List.range y.v).map fun c k => real (y.dWeight c k)).length := by
        rw [List.length_map, List.length_range]
        exact p.1.2
      rw [hdW, Sum.elim_inr, List.getD_eq_getElem _ _ hp, List.getElem_map, List.getElem_range]
      rfl
  · rw [hdW, List.length_map, List.length_range]
    rfl

/-- One row of one column, and three columns of weights, all of them 1. -/
noncomputable def ones : HeadIndex 1 1 3 → ℝ := fun _ => 1

theorem three_lt : 3 < 2 ^ 31 := by decide

/-- `ones` as a call; the target is the last column. -/
noncomputable def onesArgs : DenseArgs := headArgs (fun _ => 2) three_lt ones

/-- Chunks of two, the last of one column, with the logsumexps of chunks of one. -/
theorem chunked_backward_gradient_ones : ∃ out dHidden dW g rs,
    streamedLseAndTarget (denseMatmul onesArgs) onesArgs.targets 3 1 = .ok out ∧
    chunkedBackward 1 (fun i k => real (onesArgs.hidden i k)) (denseMatmul onesArgs) (denseChunk onesArgs)
      onesArgs.targets (fun i => (out i).1) (fun _ => real 1) 3 2 true = .ok (dHidden, some dW) ∧
    (∀ p, gradEntries dHidden dW p = real (g p)) ∧ IsGradient (weightedNll (fun _ => 2) three_lt fun _ => 1) ones g ∧
    chunks 3 2 = .ok rs ∧ rs.Nodup ∧ dW.length = 3 ∧
    ∀ c < 3, OwnRow (headBwd (fun _ => 2) three_lt (fun _ => 1) ones) rs dW c :=
  have hrange : onesArgs.InRange := fun _ _ => ⟨show (0 : ℤ) ≤ 2 by decide, show (2 : ℤ) < 3 by decide⟩
  (chunked_backward_gradient (fun _ => 2) (by decide) three_lt (fun _ => 1) ones hrange 2 1 (by decide) (by decide)).2

end MlxTrainPerf.Core
