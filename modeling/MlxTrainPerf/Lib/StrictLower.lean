import Mathlib
/-!
# Strictly lower triangular systems

`(I - A) x = b` for a matrix that is zero on and above its diagonal. Such a
system is solved by forward substitution, so a solution is unique. The matrix is
nilpotent, so the geometric sum `b + A b + A² b + ..` of enough terms is one.
-/
open Finset

namespace StrictLower

variable {R : Type} [CommRing R]

/-! ## Matrices that act on columns -/

/-- The product of two `n` by `n` matrices, or of a matrix with columns. -/
def mul (n : ℕ) (p q : ℕ → ℕ → R) : ℕ → ℕ → R := fun i j => ∑ k ∈ range n, p i k * q k j

/-- A matrix as a map of columns. -/
def act (n : ℕ) (p : ℕ → ℕ → R) : Module.End R (ℕ → R) where
  toFun x i := ∑ k ∈ range n, p i k * x k
  map_add' x y := by
    funext i
    simp only [Pi.add_apply, mul_add, sum_add_distrib]
  map_smul' c x := by
    funext i
    simp only [Pi.smul_apply, smul_eq_mul, mul_left_comm, mul_sum, RingHom.id_apply]

theorem act_apply (n : ℕ) (p : ℕ → ℕ → R) (x : ℕ → R) (i : ℕ) : act n p x i = ∑ k ∈ range n, p i k * x k := rfl

@[simp] theorem act_mul (n : ℕ) (p q : ℕ → ℕ → R) : act n (mul n p q) = act n p * act n q := by
  ext x i
  simp only [Module.End.mul_apply, act_apply, mul, sum_mul, mul_sum]
  rw [sum_comm]
  refine sum_congr rfl fun k _ => sum_congr rfl fun j _ => ?_
  ring

/-- A sum by blocks of `g` terms. -/
theorem sum_range_blocks (f : ℕ → R) (m g : ℕ) : ∑ j ∈ range (m * g), f j = ∑ k ∈ range m, ∑ s ∈ range g, f (k * g + s) := by
  induction m with
  | zero => rw [Nat.zero_mul, sum_range_zero, sum_range_zero]
  | succ m ih => rw [Nat.succ_mul, sum_range_add, ih, sum_range_succ]

/-! ## Solutions -/

/-- The first `n` rows and columns are zero on and above the diagonal. -/
def IsStrictLower (n : ℕ) (a : ℕ → ℕ → R) : Prop := ∀ i < n, ∀ j < n, i ≤ j → a i j = 0

/-- `x` is what forward substitution gives in the first `n` rows. -/
def Solves (n : ℕ) (a : ℕ → ℕ → R) (b x : ℕ → R) : Prop := ∀ i < n, x i = b i + ∑ j ∈ range i, a i j * x j

section Solutions
variable {n m : ℕ} {a : ℕ → ℕ → R} {b b' x y : ℕ → R}

/-- A row of a strictly lower matrix only reads what comes before it. -/
theorem IsStrictLower.sum_range (ha : IsStrictLower n a) {i : ℕ} (hi : i < n) (x : ℕ → R) :
    ∑ j ∈ range n, a i j * x j = ∑ j ∈ range i, a i j * x j := by
  symm
  apply sum_subset (range_subset_range.2 hi.le)
  intro j hj hij
  rw [ha i hi j (mem_range.1 hj) (not_lt.1 fun h => hij (mem_range.2 h)), zero_mul]

/-- Forward substitution solves `(I - A) x = b`. -/
theorem IsStrictLower.solves_iff (ha : IsStrictLower n a) :
    Solves n a b x ↔ ∀ i < n, x i - ∑ j ∈ range n, a i j * x j = b i := by
  refine forall₂_congr fun i hi => ?_
  rw [ha.sum_range hi, sub_eq_iff_eq_add]

theorem Solves.unique (hx : Solves n a b x) (hy : Solves n a b y) : ∀ i < n, x i = y i := by
  intro i
  induction i using Nat.strong_induction_on with
  | _ i ih =>
    intro hi
    rw [hx i hi, hy i hi]
    refine congrArg (b i + ·) (sum_congr rfl fun j hj => ?_)
    have hlt := mem_range.1 hj
    rw [ih j hlt (hlt.trans hi)]

/-- The solution is linear in the right-hand side. -/
theorem Solves.sub_sum {ι : Type} {s : Finset ι} {c : ι → R} {f g : ι → ℕ → R} (hx : Solves n a b x)
    (hf : ∀ d ∈ s, Solves n a (f d) (g d)) :
    Solves n a (fun i => b i - ∑ d ∈ s, f d i * c d) fun i => x i - ∑ d ∈ s, g d i * c d := by
  intro i hi
  have hcols : ∑ d ∈ s, g d i * c d = ∑ d ∈ s, f d i * c d + ∑ j ∈ range i, a i j * ∑ d ∈ s, g d j * c d := by
    simp only [mul_sum]
    rw [sum_comm, ← sum_add_distrib]
    refine sum_congr rfl fun d hd => ?_
    rw [hf d hd i hi, add_mul, sum_mul]
    simp only [mul_assoc]
  dsimp only
  rw [hx i hi, hcols]
  simp only [mul_sub, sum_sub_distrib]
  ring

/-- Powers push a column down: its first rows become zero. -/
theorem act_pow_eq_zero (ha : IsStrictLower n a) {k i : ℕ} (hi : i < n) (hik : i < k) : (act n a ^ k) x i = 0 := by
  induction k generalizing i with
  | zero => cases hik
  | succ k ih =>
    rw [pow_succ', Module.End.mul_apply, act_apply, ha.sum_range hi]
    refine sum_eq_zero fun j hj => ?_
    have hlt := mem_range.1 hj
    rw [ih (hlt.trans hi) (hlt.trans_le (Nat.lt_succ_iff.1 hik)), mul_zero]

/-- A power that reaches `n` is zero in every row. -/
theorem IsStrictLower.nilpotent (ha : IsStrictLower n a) (hm : n ≤ m) (x : ℕ → R) : ∀ i < n, (act n a ^ m) x i = 0 :=
  fun _ hi => act_pow_eq_zero ha hi (hi.trans_le hm)

/-- The geometric sum of `n` terms or more solves the system. -/
theorem solves_geom_sum (ha : IsStrictLower n a) (hm : n ≤ m) : Solves n a b ((∑ k ∈ range m, act n a ^ k) b) := by
  intro i hi
  have hgeom : (∑ k ∈ range m, act n a ^ k) b i - act n a ((∑ k ∈ range m, act n a ^ k) b) i =
      b i - (act n a ^ m) b i := by
    have h := congrFun (congrArg (fun f : Module.End R (ℕ → R) => f b) (mul_neg_geom_sum (act n a) m)) i
    simpa only [sub_mul, one_mul, LinearMap.sub_apply, Module.End.mul_apply, Module.End.one_apply, Pi.sub_apply] using h
  rw [act_pow_eq_zero ha hi (hi.trans_le hm), sub_zero, act_apply, ha.sum_range hi] at hgeom
  rw [← hgeom, sub_add_cancel]

/-- A doubling pass: `x + p x` for the power `p` reached so far. -/
theorem geom_sum_double (f : Module.End R (ℕ → R)) (m : ℕ) (b : ℕ → R) :
    (∑ k ∈ range m, f ^ k) b + (f ^ m) ((∑ k ∈ range m, f ^ k) b) = (∑ k ∈ range (m + m), f ^ k) b := by
  rw [sum_range_add, LinearMap.add_apply, ← Module.End.mul_apply, mul_sum]
  simp only [pow_add]

end Solutions

end StrictLower
