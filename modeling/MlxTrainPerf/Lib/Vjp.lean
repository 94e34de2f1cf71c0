import MlxTrainPerf.Lib.OnlineSoftmax
/-!
# Vector-Jacobian products

A backward pass takes the cotangent of a result to the cotangents of the
arguments: the derivative, transposed. `IsVjp` says that an array is what it has
to return, and `IsVjp.unique` that no other array is. The derivative of a
softmax-weighted sum is the one an attention needs.
-/
open OnlineSoftmax

namespace Vjp

section Arrays
variable {ι κ : Type} [Fintype ι] [Fintype κ] {f : (ι → ℝ) → κ → ℝ} {x g g' : ι → ℝ} {ct : κ → ℝ}

/-- `g` is the vector-Jacobian product of `f` at `x` with the cotangent `ct`. -/
def IsVjp (f : (ι → ℝ) → κ → ℝ) (x : ι → ℝ) (ct : κ → ℝ) (g : ι → ℝ) : Prop :=
  ∃ f' : (ι → ℝ) →L[ℝ] κ → ℝ, HasFDerivAt f f' x ∧ ∀ δ, ∑ k, ct k * f' δ k = ∑ i, g i * δ i

/-- A function has one vector-Jacobian product. -/
theorem IsVjp.unique (h : IsVjp f x ct g) (h' : IsVjp f x ct g') : g = g' := by
  classical
  obtain ⟨f', hf, hg⟩ := h
  obtain ⟨f'', hf', hg'⟩ := h'
  have hderiv : f' = f'' := hf.unique hf'
  subst hderiv
  funext i
  have hsingle : ∀ a : ι → ℝ, ∑ j, a j * Pi.single (M := fun _ => ℝ) i 1 j = a i := by
    intro a
    simp only [Pi.single_apply, mul_ite, mul_one, mul_zero, Finset.sum_ite_eq', Finset.mem_univ, if_true]
  rw [← hsingle g, ← hg, hg', hsingle]

/-- `g` is the gradient of `f` at `x`. -/
def IsGradient (f : (ι → ℝ) → ℝ) (x g : ι → ℝ) : Prop :=
  ∃ f' : (ι → ℝ) →L[ℝ] ℝ, HasFDerivAt f f' x ∧ ∀ δ, f' δ = ∑ i, g i * δ i

end Arrays

section Softmax
variable {E ι : Type} [NormedAddCommGroup E] [NormedSpace ℝ E] {S : Finset ι} {s w : ι → E → ℝ} {s' w' : ι → E →L[ℝ] ℝ}
  {x : E}

/-- The weight of key `j` in a softmax over `S`. -/
noncomputable def weight (S : Finset ι) (s : ι → ℝ) (j : ι) : ℝ := Real.exp (s j) / ∑ j ∈ S, Real.exp (s j)

/-- A score moves the sum by how far its value lies from the sum; a value moves it by its weight. -/
theorem hasFDerivAt_softmaxSum (hS : S.Nonempty) (hs : ∀ j ∈ S, HasFDerivAt (s j) (s' j) x)
    (hw : ∀ j ∈ S, HasFDerivAt (w j) (w' j) x) :
    HasFDerivAt (fun x => softmaxSum S (fun j => s j x) fun j => w j x)
      (∑ j ∈ S, weight S (fun j => s j x) j •
        (w' j + (w j x - softmaxSum S (fun j => s j x) fun j => w j x) • s' j)) x := by
  let z := ∑ j ∈ S, Real.exp (s j x)
  have hz : z ≠ 0 := (sum_exp_pos hS).ne'
  have hexp : ∀ j ∈ S, HasFDerivAt (fun x => Real.exp (s j x)) (Real.exp (s j x) • s' j) x := fun j hj => (hs j hj).exp
  have hnum := HasFDerivAt.fun_sum fun j hj => (hexp j hj).mul (hw j hj)
  have hinv := (hasDerivAt_inv hz).comp_hasFDerivAt x (HasFDerivAt.fun_sum hexp)
  have hquot := hnum.mul hinv
  have hfun : (fun x => softmaxSum S (fun j => s j x) fun j => w j x) =
      (fun y => ∑ j ∈ S, ((fun x => Real.exp (s j x)) * w j) y) * (Inv.inv ∘ fun x => ∑ j ∈ S, Real.exp (s j x)) := by
    funext y
    exact div_eq_mul_inv _ _
  rw [hfun]
  refine hquot.congr_fderiv ?_
  ext δ
  simp only [smul_apply, add_apply, sum_apply, smul_eq_mul, weight, softmaxSum, Function.comp_apply, Pi.mul_apply]
  rw [Finset.mul_sum, Finset.mul_sum, Finset.mul_sum, ← Finset.sum_add_distrib]
  apply Finset.sum_congr rfl
  intro j _
  change _ = Real.exp (s j x) / z * (w' j δ + (w j x - (∑ j ∈ S, Real.exp (s j x) * w j x) / z) * s' j δ)
  change _ + z⁻¹ * _ = _
  field_simp
  ring

/-- A score moves the logsumexp by its weight. -/
theorem hasFDerivAt_logSumExp (hS : S.Nonempty) (hs : ∀ j ∈ S, HasFDerivAt (s j) (s' j) x) :
    HasFDerivAt (fun x => logSumExp S fun j => s j x) (∑ j ∈ S, weight S (fun j => s j x) j • s' j) x := by
  have hexp : ∀ j ∈ S, HasFDerivAt (fun x => Real.exp (s j x)) (Real.exp (s j x) • s' j) x := fun j hj => (hs j hj).exp
  refine ((HasFDerivAt.fun_sum hexp).log (sum_exp_pos hS).ne').congr_fderiv ?_
  rw [Finset.smul_sum]
  apply Finset.sum_congr rfl
  intro j _
  rw [smul_smul, weight, div_eq_inv_mul]

theorem weight_eq_exp (hS : S.Nonempty) (s : ι → ℝ) (j : ι) : weight S s j = Real.exp (s j - logSumExp S s) := by
  unfold weight logSumExp
  rw [Real.exp_sub, Real.exp_log (sum_exp_pos hS)]

end Softmax

/-- A sum over groups of `g` indices, by group. -/
theorem sum_range_group {m g : ℕ} (x y : ℕ → ℝ) :
    ∑ h ∈ Finset.range (m * g), x h * y (h / g) = ∑ k ∈ Finset.range m, (∑ i ∈ Finset.range g, x (k * g + i)) * y k := by
  induction m with
  | zero => rw [Nat.zero_mul, Finset.sum_range_zero, Finset.sum_range_zero]
  | succ m ih =>
    have hlast : ∑ i ∈ Finset.range g, x (m * g + i) * y ((m * g + i) / g) = (∑ i ∈ Finset.range g, x (m * g + i)) * y m := by
      rw [Finset.sum_mul]
      apply Finset.sum_congr rfl
      intro i hi
      have hi := Finset.mem_range.1 hi
      rw [Nat.mul_comm m g, Nat.mul_add_div (by omega), Nat.div_eq_of_lt hi, Nat.add_zero]
    rw [Nat.succ_mul, Finset.sum_range_add, ih, hlast, Finset.sum_range_succ]

end Vjp
