import MlxTrainPerf.Lib.XReal
/-!
# The online softmax

A softmax over a set of keys, kept as a running maximum and sums shifted by it.
Keys join in disjoint blocks: `total_union` rescales the sums a running softmax
holds and adds the block's own.
-/
open XReal

namespace OnlineSoftmax

section Keys
variable {ι : Type} (S T : Finset ι) (s : ι → ℝ)

/-- The running maximum over the keys `S`. -/
noncomputable def peak : XReal := ofBot (S.sup fun j => (s j : WithBot ℝ))

/-- The shift of the sums: the maximum, once there is one. -/
noncomputable def shift : ℝ := (S.sup fun j => (s j : WithBot ℝ)).unbotD 0

/-- A running sum with weights `w`; the normalizer has all weights 1. -/
noncomputable def total (w : ι → ℝ) : ℝ := ∑ j ∈ S, Real.exp (s j - shift S s) * w j

/-- The softmax-weighted sum of `w`. -/
noncomputable def softmaxSum (w : ι → ℝ) : ℝ := (∑ j ∈ S, Real.exp (s j) * w j) / ∑ j ∈ S, Real.exp (s j)

/-- The log of the sum of the exponentials. -/
noncomputable def logSumExp : ℝ := Real.log (∑ j ∈ S, Real.exp (s j))

/-- The factor of a rescale from the maximum `m` to `m'`; a guard keeps it at 1
while there is no maximum. -/
noncomputable def factor (guard : Bool) (m m' : XReal) : XReal :=
  if guard && m'.isNegInf then real 1 else (m - m').exp

variable {S T s}

/-! ## The running maximum -/

@[simp] theorem peak_empty : peak ∅ s = negInf := rfl

theorem peak_union [DecidableEq ι] : (peak S s).max (peak T s) = peak (S ∪ T) s := by
  unfold peak
  rw [max_ofBot, Finset.sup_union]

theorem peak_singleton (j : ι) : peak {j} s = real (s j) := by
  unfold peak
  rw [Finset.sup_singleton, ofBot_coe]

theorem peak_of_nonempty (h : S.Nonempty) : peak S s = real (shift S s) := by
  obtain ⟨j, hj⟩ := h
  have hle : (s j : WithBot ℝ) ≤ S.sup fun j => (s j : WithBot ℝ) :=
    @Finset.le_sup _ _ _ _ S (fun j => (s j : WithBot ℝ)) j hj
  unfold peak shift
  generalize (S.sup fun j => (s j : WithBot ℝ)) = top at hle
  cases top with
  | bot => exact absurd hle (WithBot.not_coe_le_bot _)
  | coe x => rfl

theorem isNegInf_peak : (peak S s).isNegInf = true ↔ S = ∅ := by
  constructor
  · intro h
    by_contra hne
    rw [peak_of_nonempty (Finset.nonempty_iff_ne_empty.2 hne)] at h
    cases h
  · rintro rfl
    rfl

/-- The maximum a loop keeps over a list, masked by `p`. -/
theorem foldl_max_peak [DecidableEq ι] (p : ι → Bool) (l : List ι) :
    l.foldl (fun m j => if p j then m.max (real (s j)) else m) (peak S s) =
      peak (S ∪ (l.filter p).toFinset) s := by
  induction l generalizing S with
  | nil =>
    rw [List.filter_nil, List.toFinset_nil, Finset.union_empty]
    rfl
  | cons j l ih =>
    rw [List.foldl_cons]
    by_cases hp : p j = true
    · rw [if_pos hp, ← peak_singleton, peak_union, ih, List.filter_cons_of_pos hp, List.toFinset_cons,
        Finset.insert_eq, Finset.union_assoc]
    · rw [if_neg hp, ih, List.filter_cons_of_neg hp]

/-! ## The running sums -/

theorem total_eq (w : ι → ℝ) : total S s w = Real.exp (-shift S s) * ∑ j ∈ S, Real.exp (s j) * w j := by
  unfold total
  rw [Finset.mul_sum]
  apply Finset.sum_congr rfl
  intro j _
  rw [sub_eq_neg_add, Real.exp_add, mul_assoc]

/-- The sum over two disjoint blocks, under the shift of both. -/
theorem total_split [DecidableEq ι] (hdisj : Disjoint S T) (w : ι → ℝ) :
    total (S ∪ T) s w = Real.exp (-shift (S ∪ T) s) * ∑ j ∈ S, Real.exp (s j) * w j +
      ∑ j ∈ T, Real.exp (s j - shift (S ∪ T) s) * w j := by
  have hblock : ∑ j ∈ T, Real.exp (s j - shift (S ∪ T) s) * w j =
      Real.exp (-shift (S ∪ T) s) * ∑ j ∈ T, Real.exp (s j) * w j := by
    rw [Finset.mul_sum]
    apply Finset.sum_congr rfl
    intro j _
    rw [sub_eq_neg_add, Real.exp_add, mul_assoc]
  rw [hblock, total_eq, Finset.sum_union hdisj, mul_add]

/-- A sum moves from its own shift to another one. -/
theorem total_rescale (c : ℝ) (w : ι → ℝ) :
    total S s w * Real.exp (shift S s - c) = Real.exp (-c) * ∑ j ∈ S, Real.exp (s j) * w j := by
  have hcancel : Real.exp (-shift S s) * Real.exp (shift S s - c) = Real.exp (-c) := by
    rw [← Real.exp_add]
    congr 1
    ring
  rw [total_eq, ← hcancel]
  ring

/-- The factor is a real number as soon as there is a guard or a maximum. -/
theorem factor_from_empty (guard : Bool) (h : guard = true ∨ T.Nonempty) :
    ∃ a, factor guard (peak ∅ s) (peak T s) = real a := by
  unfold factor
  split
  · exact ⟨1, rfl⟩
  · next hopen =>
    have hne : T.Nonempty := by
      rcases h with rfl | h
      · rw [Bool.true_and, isNegInf_peak] at hopen
        exact Finset.nonempty_iff_ne_empty.2 hopen
      · exact h
    rw [peak_of_nonempty hne, peak_empty, negInf_sub_real, exp_negInf]
    exact ⟨0, rfl⟩

theorem factor_of_nonempty (guard : Bool) (hS : S.Nonempty) (hT : T.Nonempty) :
    factor guard (peak S s) (peak T s) = real (Real.exp (shift S s - shift T s)) := by
  rw [peak_of_nonempty hS, peak_of_nonempty hT]
  unfold factor
  rw [if_neg (by simp [isNegInf]), real_sub_real, exp_real]

/-- A block of keys joins: the old sums are rescaled to the new maximum, and the
block's sum is added. Without a guard there has to be a maximum by then. -/
theorem total_union [DecidableEq ι] (guard : Bool) (hdisj : Disjoint S T)
    (h : guard = true ∨ (S ∪ T).Nonempty) :
    ∃ a, factor guard (peak S s) (peak (S ∪ T) s) = real a ∧
      ∀ w, total S s w * a + ∑ j ∈ T, Real.exp (s j - shift (S ∪ T) s) * w j = total (S ∪ T) s w := by
  rcases S.eq_empty_or_nonempty with rfl | hS
  · -- Nothing is held yet: the sums are 0, and any real factor will do.
    obtain ⟨a, ha⟩ := factor_from_empty guard h
    refine ⟨a, ha, fun w => ?_⟩
    rw [total_split hdisj, total_eq, Finset.sum_empty, mul_zero, mul_zero, zero_mul]
  · have hne : (S ∪ T).Nonempty := hS.mono Finset.subset_union_left
    refine ⟨_, factor_of_nonempty guard hS hne, fun w => ?_⟩
    rw [total_split hdisj, total_rescale]

/-! ## The final values -/

theorem sum_exp_pos (h : S.Nonempty) : 0 < ∑ j ∈ S, Real.exp (s j) := Finset.sum_pos (fun _ _ => Real.exp_pos _) h

theorem total_one : total S s (fun _ => 1) = Real.exp (-shift S s) * ∑ j ∈ S, Real.exp (s j) := by
  rw [total_eq]
  simp only [mul_one]

theorem total_pos (h : S.Nonempty) : 0 < total S s fun _ => 1 := by
  rw [total_one]
  exact mul_pos (Real.exp_pos _) (sum_exp_pos h)

/-- The shift cancels in the quotient. -/
theorem total_mul_inv (w : ι → ℝ) : total S s w * (total S s fun _ => 1)⁻¹ = softmaxSum S s w := by
  unfold softmaxSum
  rw [total_one, total_eq, ← div_eq_mul_inv, mul_div_mul_left _ _ (Real.exp_ne_zero _)]

/-- The shift comes back in the logarithm. -/
theorem shift_add_log (h : S.Nonempty) : shift S s + Real.log (total S s fun _ => 1) = logSumExp S s := by
  unfold logSumExp
  rw [total_one, Real.log_mul (Real.exp_ne_zero _) (sum_exp_pos h).ne', Real.log_exp, add_neg_cancel_left]

/-! ## Two blocks, each with its own maximum -/

/-- Both sums are rescaled to the maximum of both. -/
theorem total_merge [DecidableEq ι] (hdisj : Disjoint S T) (hT : T.Nonempty) (w : ι → ℝ) :
    real (total S s w) * (peak S s - peak (S ∪ T) s).exp + real (total T s w) * (peak T s - peak (S ∪ T) s).exp =
      real (total (S ∪ T) s w) := by
  have hne : (S ∪ T).Nonempty := hT.mono Finset.subset_union_right
  have hsum : total (S ∪ T) s w = Real.exp (-shift (S ∪ T) s) * ∑ j ∈ S, Real.exp (s j) * w j +
      Real.exp (-shift (S ∪ T) s) * ∑ j ∈ T, Real.exp (s j) * w j := by
    rw [total_eq, Finset.sum_union hdisj, mul_add]
  rw [peak_of_nonempty hT, peak_of_nonempty hne, real_sub_real, exp_real, real_mul_real, total_rescale, hsum]
  rcases S.eq_empty_or_nonempty with rfl | hS
  · rw [peak_empty, negInf_sub_real, exp_negInf, real_mul_real, real_add_real, Finset.sum_empty, mul_zero, mul_zero]
  · rw [peak_of_nonempty hS, real_sub_real, exp_real, real_mul_real, total_rescale, real_add_real]

/-! ## Logsumexps of blocks -/

/-- The logsumexp of the keys `S`, `-inf` while there are none. -/
noncomputable def lseOf (S : Finset ι) (s : ι → ℝ) : XReal := (real (∑ j ∈ S, Real.exp (s j))).log

@[simp] theorem lseOf_empty : lseOf ∅ s = negInf := by
  unfold lseOf
  rw [Finset.sum_empty]
  simp [XReal.log]

theorem lseOf_of_nonempty (h : S.Nonempty) : lseOf S s = real (logSumExp S s) := log_real (sum_exp_pos h)

theorem max_add_log (a b : ℝ) :
    max a b + Real.log (1 + Real.exp (min a b - max a b)) = Real.log (Real.exp a + Real.exp b) := by
  have hsum : Real.exp a + Real.exp b = Real.exp (max a b) * (1 + Real.exp (min a b - max a b)) := by
    rw [mul_add, mul_one, ← Real.exp_add, add_sub_cancel]
    rcases le_total a b with h | h
    · rw [max_eq_right h, min_eq_left h, add_comm]
    · rw [max_eq_left h, min_eq_right h]
  have hpos : 0 < 1 + Real.exp (min a b - max a b) := by positivity
  rw [hsum, Real.log_mul (Real.exp_ne_zero _) hpos.ne', Real.log_exp]

theorem logSumExp_union [DecidableEq ι] (hdisj : Disjoint S T) (hS : S.Nonempty) (hT : T.Nonempty) :
    Real.log (Real.exp (logSumExp S s) + Real.exp (logSumExp T s)) = logSumExp (S ∪ T) s := by
  unfold logSumExp
  rw [Real.exp_log (sum_exp_pos hS), Real.exp_log (sum_exp_pos hT), Finset.sum_union hdisj]

/-- A block with keys joins the logsumexp so far. -/
theorem mergeLog_lseOf [DecidableEq ι] (hdisj : Disjoint S T) (hT : T.Nonempty) :
    (lseOf S s).mergeLog (lseOf T s) = lseOf (S ∪ T) s := by
  rw [lseOf_of_nonempty hT, lseOf_of_nonempty (hT.mono Finset.subset_union_right)]
  rcases S.eq_empty_or_nonempty with rfl | hS
  · have hone : (real 1 + real 0).log = real 0 := by
      rw [real_add_real, add_zero, log_real one_pos, Real.log_one]
    rw [lseOf_empty, Finset.empty_union]
    change real (logSumExp T s) + (real 1 + (negInf - real (logSumExp T s)).exp).log = _
    rw [negInf_sub_real, exp_negInf, hone, real_add_real, add_zero]
  · rw [lseOf_of_nonempty hS]
    unfold XReal.mergeLog
    dsimp only
    rw [max_real, min_real, real_sub_real, exp_real, real_add_real, log_real (by positivity), real_add_real, max_add_log,
      logSumExp_union hdisj hS hT]

theorem disjoint_range_Ico (a b : ℕ) : Disjoint (Finset.range a) (Finset.Ico a b) := by
  rw [Finset.range_eq_Ico]
  exact Finset.Ico_disjoint_Ico_consecutive 0 a b

theorem range_union_Ico {a b : ℕ} (h : a ≤ b) : Finset.range a ∪ Finset.Ico a b = Finset.range b := by
  rw [Finset.range_eq_Ico, Finset.Ico_union_Ico_eq_Ico (Nat.zero_le a) h, Finset.range_eq_Ico]

/-- `logaddexp` joins any two blocks. -/
theorem logaddexp_lseOf [DecidableEq ι] (hdisj : Disjoint S T) : (lseOf S s).logaddexp (lseOf T s) = lseOf (S ∪ T) s := by
  rcases T.eq_empty_or_nonempty with rfl | hT
  · rw [lseOf_empty, Finset.union_empty]
    unfold XReal.logaddexp lseOf XReal.log
    dsimp only
    split
    · rfl
    · split <;> rfl
  · have hmerge := @mergeLog_lseOf _ S T s _ hdisj hT
    rcases S.eq_empty_or_nonempty with rfl | hS
    · rw [lseOf_empty, Finset.empty_union, lseOf_of_nonempty hT]
      rfl
    · rw [← hmerge]
      unfold XReal.logaddexp
      rw [lseOf_of_nonempty hS, lseOf_of_nonempty hT, min_real]
      exact if_neg Bool.false_ne_true

end Keys

end OnlineSoftmax
