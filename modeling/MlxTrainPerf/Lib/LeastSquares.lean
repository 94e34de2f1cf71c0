import Mathlib
/-!
# Least squares

With full column rank there is only one least-squares solution, and it moves with the data. Of a
system that has a solution it is one. The line through the origin is the case of one column: its
slope is at most the largest one of a point.
-/
open Matrix

namespace LeastSquares

section Rank
variable {m n K : Type} [Fintype n] [Field K] {A : Matrix m n K}

/-- Full column rank separates vectors. -/
theorem mulVec_injective_of_rank (h : A.rank = Fintype.card n) : Function.Injective (A *ᵥ ·) := by
  have hker : Module.finrank K (LinearMap.ker A.mulVecLin) = 0 := by
    have hdims := A.mulVecLin.finrank_range_add_finrank_ker
    rw [Module.finrank_fintype_fun_eq_card] at hdims
    have hrange : Module.finrank K (LinearMap.range A.mulVecLin) = A.rank := rfl
    omega
  exact LinearMap.ker_eq_bot.1 (Submodule.finrank_eq_zero.1 hker)

end Rank

section Residuals
variable {m n K : Type} [Fintype m] [Fintype n] [Field K]

/-- The sum of the squared residuals. -/
def residualSq (A : Matrix m n K) (b : m → K) (x : n → K) : K := ∑ i, ((A *ᵥ x) i - b i) ^ 2

/-- What `z` predicts, less the data, is fitted by `z` less the fit of the data. -/
theorem residualSq_shift (A : Matrix m n K) (b : m → K) (x z : n → K) :
    residualSq A (A *ᵥ z - b) (z - x) = residualSq A b x := by
  refine Finset.sum_congr rfl fun i _ => ?_
  rw [mulVec_sub, Pi.sub_apply, Pi.sub_apply]
  ring

variable [LinearOrder K] {A : Matrix m n K} {b : m → K} {x : n → K}

/-- No other vector comes closer. -/
def IsLeastSquares (A : Matrix m n K) (b : m → K) (x : n → K) : Prop := ∀ y, residualSq A b x ≤ residualSq A b y

theorem IsLeastSquares.shift (hx : IsLeastSquares A b x) (z : n → K) : IsLeastSquares A (A *ᵥ z - b) (z - x) := by
  intro y
  have hy := residualSq_shift A b (z - y) z
  rw [sub_sub_cancel] at hy
  rw [residualSq_shift, hy]
  exact hx (z - y)

end Residuals

section Systems
variable {m n K : Type} [Fintype m] [Fintype n] [Field K] [LinearOrder K] [IsStrictOrderedRing K]
  {A : Matrix m n K} {b : m → K} {x y : n → K}

theorem residualSq_nonneg (A : Matrix m n K) (b : m → K) (x : n → K) : 0 ≤ residualSq A b x :=
  Finset.sum_nonneg fun _ _ => sq_nonneg _

theorem residualSq_eq_zero : residualSq A b x = 0 ↔ A *ᵥ x = b := by
  unfold residualSq
  rw [Finset.sum_eq_zero_iff_of_nonneg fun _ _ => sq_nonneg _, funext_iff]
  refine ⟨fun h i => ?_, fun h i _ => ?_⟩
  · exact sub_eq_zero.1 (pow_eq_zero_iff two_ne_zero |>.1 (h i (Finset.mem_univ i)))
  · rw [h i, sub_self, zero_pow two_ne_zero]

/-- A solution is a least-squares solution. -/
theorem isLeastSquares_of_eq (h : A *ᵥ x = b) : IsLeastSquares A b x := by
  intro y
  rw [residualSq_eq_zero.2 h]
  exact residualSq_nonneg A b y

/-- Half way between two vectors the residuals are those of both, less what sets them apart. -/
theorem residualSq_midpoint (A : Matrix m n K) (b : m → K) (x y : n → K) :
    residualSq A b ((1 / 2 : K) • (x + y)) =
      residualSq A b x / 2 + residualSq A b y / 2 - (∑ i, ((A *ᵥ x) i - (A *ᵥ y) i) ^ 2) / 4 := by
  unfold residualSq
  rw [Finset.sum_div, Finset.sum_div, Finset.sum_div, ← Finset.sum_add_distrib, ← Finset.sum_sub_distrib]
  refine Finset.sum_congr rfl fun i _ => ?_
  rw [mulVec_smul, mulVec_add, Pi.smul_apply, Pi.add_apply, smul_eq_mul]
  ring

/-- With full column rank there is only one. -/
theorem IsLeastSquares.unique (hx : IsLeastSquares A b x) (hy : IsLeastSquares A b y) (hrank : A.rank = Fintype.card n) :
    x = y := by
  have hmid := residualSq_midpoint A b x y
  have hmx := hx ((1 / 2 : K) • (x + y))
  have hmy := hy ((1 / 2 : K) • (x + y))
  have hapart : ∑ i, ((A *ᵥ x) i - (A *ᵥ y) i) ^ 2 ≤ 0 := by linarith
  have hzero := (Finset.sum_eq_zero_iff_of_nonneg fun _ _ => sq_nonneg _).1
    (le_antisymm hapart (Finset.sum_nonneg fun _ _ => sq_nonneg _))
  refine mulVec_injective_of_rank hrank (funext fun i => ?_)
  exact sub_eq_zero.1 (pow_eq_zero_iff two_ne_zero |>.1 (hzero i (Finset.mem_univ i)))

/-- With full column rank the solution is found. -/
theorem IsLeastSquares.eq (hx : IsLeastSquares A b x) (hrank : A.rank = Fintype.card n) (hy : A *ᵥ y = b) : x = y :=
  hx.unique (isLeastSquares_of_eq hy) hrank

end Systems

section Slope
variable {ι K : Type} [Field K] [LinearOrder K] [IsStrictOrderedRing K] {xs : List ι} {f : ι → K}

theorem sum_sq_pos (h : ∃ x ∈ xs, f x ≠ 0) : 0 < (xs.map fun x => f x * f x).sum := by
  obtain ⟨x, hx, hne⟩ := h
  have hterm : f x * f x ≤ (xs.map fun x => f x * f x).sum := by
    refine List.single_le_sum ?_ _ (List.mem_map_of_mem hx)
    simp only [List.forall_mem_map]
    exact fun y _ => mul_self_nonneg (f y)
  exact (mul_self_pos.2 hne).trans_le hterm

/-- Points on a line through the origin give its slope. -/
theorem slope_eq (a : K) (h : ∃ x ∈ xs, f x ≠ 0) :
    (xs.map fun x => a * f x * f x).sum / (xs.map fun x => f x * f x).sum = a := by
  have hsum : (xs.map fun x => a * f x * f x).sum = a * (xs.map fun x => f x * f x).sum := by
    simp only [mul_assoc]
    exact List.sum_map_mul_left ..
  rw [hsum, mul_div_cancel_right₀ a (sum_sq_pos h).ne']

end Slope

end LeastSquares
