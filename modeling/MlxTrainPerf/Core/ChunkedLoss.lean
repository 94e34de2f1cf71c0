import MlxTrainPerf.Core.FusedForward
import MlxTrainPerf.Core.FusedBackward
import MlxTrainPerf.Core.Loss
/-!
# The chunked loss, for every chunk size

With a positive chunk size the stream ends where the fused forward does. With 0
`range()` raises. With a negative one the loop has no pass: the stream keeps its
`-inf`, which no check catches.
-/
open Loops XReal OnlineSoftmax

namespace MlxTrainPerf.Core

open Kernel (rowState)

/-! ## The stream -/

section Stream
variable {x : DenseArgs} {a b i : ℕ} {rs : List (ℕ × ℕ)}

theorem logsumexpRow_eq : logsumexpRow (b - a) (denseMatmul x a b i) = lseOf (Finset.Ico a b) (x.logit i) := by
  unfold logsumexpRow lseOf
  rw [sum_real fun j _ => by rw [denseMatmul_eq, exp_real], Finset.sum_Ico_eq_sum_range]

/-- A chunk merges its columns into the logsumexp. -/
theorem streamStep_fst {state : XReal × XReal} (h : state.1 = lseOf (Finset.range a) (x.logit i)) (hlt : a < b) :
    (streamStep (denseMatmul x) x.targets i state (a, b)).1 = lseOf (Finset.range b) (x.logit i) := by
  unfold streamStep
  dsimp only
  rw [h, logsumexpRow_eq, logaddexp_lseOf (disjoint_range_Ico a b), range_union_Ico hlt.le]

theorem foldl_streamStep_fst (htiles : Tiles a b rs) {state : XReal × XReal}
    (h : state.1 = lseOf (Finset.range a) (x.logit i)) :
    (rs.foldl (streamStep (denseMatmul x) x.targets i) state).1 = lseOf (Finset.range b) (x.logit i) := by
  induction rs generalizing a state with
  | nil =>
    obtain rfl : a = b := htiles
    exact h
  | cons r rs ih =>
    obtain ⟨rfl, hlt, hrest⟩ := htiles
    exact ih hrest (streamStep_fst h hlt)

/-- A chunk takes a row from its first column to its last. -/
theorem streamStep_rowState (hrange : x.InRange) (hi : i < x.n) (hlt : a < b) :
    streamStep (denseMatmul x) x.targets i (rowState x a i) (a, b) = rowState x b i := by
  have hnonneg := (hrange i hi).1
  have htarget : x.targets i = x.target i := (Int.toNat_of_nonneg hnonneg).symm
  refine Prod.ext (streamStep_fst rfl hlt) ?_
  unfold streamStep rowState
  dsimp only
  rw [htarget]
  -- Inside the chunk the clipped target is the target; outside, its logit is thrown away.
  by_cases hin : a ≤ x.target i ∧ x.target i < b
  · have hclip : clipTarget (x.target i) a b = x.target i - a := by
      unfold clipTarget
      omega
    rw [if_pos (by simp [hin]), if_pos hin.2, hclip, denseMatmul_eq, Nat.add_sub_cancel' hin.1]
  · rw [if_neg (by simpa using hin)]
    exact if_congr (by omega) rfl rfl

theorem foldl_streamStep (hrange : x.InRange) (hi : i < x.n) (htiles : Tiles a b rs) :
    rs.foldl (streamStep (denseMatmul x) x.targets i) (rowState x a i) = rowState x b i := by
  induction rs generalizing a with
  | nil =>
    obtain rfl : a = b := htiles
    rfl
  | cons r rs ih =>
    obtain ⟨rfl, hlt, hrest⟩ := htiles
    rw [List.foldl_cons, streamStep_rowState hrange hi hlt]
    exact ih hrest

theorem rowState_zero : rowState x 0 i = (negInf, 0) := by
  unfold rowState
  rw [Finset.range_zero, lseOf_empty, if_neg (Nat.not_lt_zero _)]

/-- The loss of a row. -/
noncomputable def DenseArgs.nll (x : DenseArgs) (i : ℕ) : ℝ :=
  logSumExp (Finset.range x.v) (x.logit i) - x.logit i (x.target i)

theorem denseCe_pos (hrange : x.InRange) {chunkSize : ℤ} (h : 1 ≤ chunkSize) :
    ∃ nll, denseCe x chunkSize = .ok nll ∧ ∀ i < x.n, nll i = real (x.nll i) := by
  obtain ⟨rs, htiles, hok⟩ := chunks_pos x.v h
  have hdense : denseCe x chunkSize = .ok fun i =>
      (rs.foldl (streamStep (denseMatmul x) x.targets i) (negInf, 0)).1 -
        (rs.foldl (streamStep (denseMatmul x) x.targets i) (negInf, 0)).2 := by
    unfold denseCe chunkedCe streamedLseAndTarget
    rw [hok]
    rfl
  refine ⟨_, hdense, fun i hi => ?_⟩
  rw [← @rowState_zero x i, foldl_streamStep hrange hi htiles, Kernel.rowState_all hrange hi, real_sub_real]
  rfl

theorem denseCe_zero : denseCe x 0 = .error .zeroStep := rfl

/-- No pass: the accumulators as they were set up. -/
theorem denseCe_neg {chunkSize : ℤ} (h : chunkSize < 0) : denseCe x chunkSize = .ok fun _ => negInf := by
  unfold denseCe chunkedCe streamedLseAndTarget chunks
  rw [vocabTiles_neg x.v h]
  rfl

end Stream

/-! ## The call -/

section Call
variable {dequantize : Dequantize} {kernel : LossCall → Except LossError (ℕ → XReal)} {c : LossCall}

/-- Both heads run the dense loop over their weights. -/
theorem chunkedNll_eq (chunkSize : ℤ) :
    chunkedNll dequantize c chunkSize = (denseCe (c.args dequantize) chunkSize).mapError .chunk := by
  obtain ⟨hidden, head, targets, impl, size, reduction, validate⟩ := c
  cases head with
  | dense head => rfl
  | quantized head => rfl

theorem linearCrossEntropy_chunked (himpl : c.impl = .chunked) (hcheck : checkCall c = .ok ()) :
    linearCrossEntropy dequantize kernel c =
      (chunkedNll dequantize c (c.chunkSize.getD kernelTile)).map (reduceLoss c) := by
  unfold linearCrossEntropy
  rw [hcheck, himpl]
  rfl

/-- Only the call's own rows are reduced. -/
theorem reduceLoss_congr {f g : ℕ → XReal} (h : ∀ i < c.rows, f i = g i) : reduceLoss c f = reduceLoss c g := by
  have hrows : (List.range c.rows).map f = (List.range c.rows).map g :=
    List.map_congr_left fun i hi => h i (List.mem_range.1 hi)
  have hsum : ∑ i ∈ Finset.range c.rows, f i = ∑ i ∈ Finset.range c.rows, g i :=
    Finset.sum_congr rfl fun i hi => h i (Finset.mem_range.1 hi)
  unfold reduceLoss
  rw [hrows, hsum]

theorem sum_negInf {n : ℕ} (h : 0 < n) : ∑ _i ∈ Finset.range n, negInf = negInf := by
  induction n with
  | zero => cases h
  | succ n ih =>
    rw [Finset.sum_range_succ]
    rcases Nat.eq_zero_or_pos n with rfl | hpos
    · rfl
    · rw [ih hpos]
      rfl

/-- A loss of `-inf` shows in every reduction. -/
theorem reduceLoss_negInf_ne (hpos : 0 < c.rows) (f : ℕ → ℝ) :
    reduceLoss c (fun _ => negInf) ≠ reduceLoss c fun i => real (f i) := by
  have hsum := @sum_real _ (Finset.range c.rows) (fun i => real (f i)) f fun _ _ => rfl
  -- The mean divides `-inf` by a positive count.
  have hinv : 0 < 1 / (c.rows : ℝ) := by positivity
  have hmean : negInf * real (1 / (c.rows : ℝ)) = negInf := if_pos hinv
  unfold reduceLoss
  rw [sum_negInf hpos, hsum]
  dsimp only
  rw [hmean]
  cases c.reduction with
  | none =>
    obtain ⟨n, hn⟩ := Nat.exists_eq_succ_of_ne_zero hpos.ne'
    rw [hn]
    simp [List.range_succ_eq_map]
  | mean => simp
  | sum => simp
  | other name => simp

theorem rows_pos_of_check (hcheck : checkCall c = .ok ()) : 0 < c.rows := by
  by_contra hzero
  have hzero : c.rows = 0 := by omega
  unfold checkCall validateInputs at hcheck
  cases hred : checkReduction c.reduction with
  | error e =>
    rw [hred] at hcheck
    cases hcheck
  | ok u =>
    rw [hred] at hcheck
    dsimp only [bind, Except.bind] at hcheck
    split at hcheck
    · cases hcheck
    · cases hcheck

end Call

/-- The chunked loss is refused, or is the reduction of the rows' losses, exactly
when a check refuses the call or the chunk size is not negative. -/
theorem chunked_loss_iff (dequantize : Dequantize) (kernel : LossCall → Except LossError (ℕ → XReal)) (c : LossCall)
    (himpl : c.impl = .chunked) (hrange : (c.args dequantize).InRange) :
    ((∃ e, linearCrossEntropy dequantize kernel c = .error e) ∨
      linearCrossEntropy dequantize kernel c = .ok (reduceLoss c fun i => real ((c.args dequantize).nll i))) ↔
    ((∃ e, checkCall c = .error e) ∨ 0 ≤ c.chunkSize.getD kernelTile) := by
  rcases hcheck : checkCall c with e | u
  · have hrefused : linearCrossEntropy dequantize kernel c = .error e := by
      unfold linearCrossEntropy
      rw [hcheck]
      rfl
    exact iff_of_true (Or.inl ⟨e, hrefused⟩) (Or.inl ⟨e, rfl⟩)
  · rw [linearCrossEntropy_chunked himpl hcheck, chunkedNll_eq]
    rcases lt_trichotomy (c.chunkSize.getD kernelTile) 0 with hneg | hzero | hpos
    · -- The loop has no pass, and the loss of every row is -inf.
      rw [denseCe_neg hneg]
      refine iff_of_false ?_ ?_
      · rintro (⟨e, he⟩ | hok)
        · cases he
        · exact reduceLoss_negInf_ne (rows_pos_of_check hcheck) _ (Except.ok.inj hok)
      · rintro (⟨e, he⟩ | hle)
        · cases he
        · exact absurd hle (not_le.2 hneg)
    · -- `range()` raises.
      rw [hzero, denseCe_zero]
      exact iff_of_true (Or.inl ⟨_, rfl⟩) (Or.inr le_rfl)
    · obtain ⟨nll, hok, hnll⟩ := denseCe_pos hrange hpos
      rw [hok]
      exact iff_of_true (Or.inr (congrArg Except.ok (reduceLoss_congr hnll))) (Or.inr hpos.le)

/-! ## A negative chunk size -/

/-- One row of one column with two columns of weights; the target is column 0. -/
def smallCall (chunkSize : ℤ) : LossCall where
  hidden := ⟨[1, 1], .float32, fun _ _ => 1⟩
  head := .dense ⟨2, 1, .float32, fun _ _ => 1, Kernel.oneRow.v_int32⟩
  targets := ⟨[1], .int32, fun _ => 0⟩
  impl := .chunked
  chunkSize := some chunkSize
  reduction := .none
  validateTargets := true

theorem smallCall_inRange (dequantize : Dequantize) (chunkSize : ℤ) : ((smallCall chunkSize).args dequantize).InRange :=
  fun _ _ => ⟨le_refl 0, by norm_num [LossCall.args, smallCall, HeadRef.v]⟩

theorem smallCall_check (chunkSize : ℤ) : checkCall (smallCall chunkSize) = .ok () := rfl

/-- No quantized row is read. -/
def noRow : Dequantize := fun _ _ _ _ _ _ => 0

theorem chunked_loss_iff_smallCall : (∃ e, linearCrossEntropy noRow (fun _ => .error .zeroDivision) (smallCall 2) = .error e) ∨
    linearCrossEntropy noRow (fun _ => .error .zeroDivision) (smallCall 2) =
      .ok (reduceLoss (smallCall 2) fun i => real (((smallCall 2).args noRow).nll i)) :=
  (chunked_loss_iff noRow (fun _ => .error .zeroDivision) (smallCall 2) rfl (smallCall_inRange noRow 2)).2
    (Or.inr (by decide))

/-- The call with chunk size -1 is accepted, and its loss is `-inf`. -/
theorem chunked_loss_negative :
    linearCrossEntropy noRow (fun _ => .error .zeroDivision) (smallCall (-1)) = .ok (.rows [1] [negInf]) ∧
      ¬((∃ e, linearCrossEntropy noRow (fun _ => .error .zeroDivision) (smallCall (-1)) = .error e) ∨
        linearCrossEntropy noRow (fun _ => .error .zeroDivision) (smallCall (-1)) =
          .ok (reduceLoss (smallCall (-1)) fun i => real (((smallCall (-1)).args noRow).nll i))) := by
  have hloss : linearCrossEntropy noRow (fun _ => .error .zeroDivision) (smallCall (-1)) =
      .ok (reduceLoss (smallCall (-1)) fun _ => negInf) := by
    have hneg := @denseCe_neg ((smallCall (-1)).args noRow) (-1) (by decide)
    have hsize : (smallCall (-1)).chunkSize.getD kernelTile = -1 := rfl
    rw [linearCrossEntropy_chunked rfl (smallCall_check (-1)), chunkedNll_eq, hsize, hneg]
    rfl
  refine ⟨hloss, ?_⟩
  rw [hloss]
  rintro (⟨e, he⟩ | hok)
  · cases he
  · exact reduceLoss_negInf_ne (by decide) _ (Except.ok.inj hok)

end MlxTrainPerf.Core
