import Mathlib
/-!
# Reals with `-INFINITY` and NaN

Exact real arithmetic with the two other values a softmax meets: `-inf`, which
masks a score, and NaN, which `-inf - -inf` and `1 / 0` leave behind. There is no
`+inf`: what would be one is read as NaN, so a result shown to be real is real
under either reading.
-/

inductive XReal where
  | nan
  | negInf
  | real (x : ℝ)

namespace XReal

/-! ## Operations -/

protected def add : XReal → XReal → XReal
  | real x, real y => real (x + y)
  | negInf, real _ => negInf
  | real _, negInf => negInf
  | negInf, negInf => negInf
  | _, _ => nan

protected def sub : XReal → XReal → XReal
  | real x, real y => real (x - y)
  | negInf, real _ => negInf
  | _, _ => nan

open Classical in
protected noncomputable def mul : XReal → XReal → XReal
  | real x, real y => real (x * y)
  | negInf, real x => if 0 < x then negInf else nan
  | real x, negInf => if 0 < x then negInf else nan
  | _, _ => nan

/-- `max(x, y)`: `y` if `x < y`, otherwise `x`. -/
protected noncomputable def max : XReal → XReal → XReal
  | real x, real y => real (max x y)
  | negInf, real y => real y
  | x, _ => x

/-- `min(x, y)`: `y` if `y < x`, otherwise `x`. -/
protected noncomputable def min : XReal → XReal → XReal
  | real x, real y => real (min x y)
  | real _, negInf => negInf
  | x, _ => x

/-- `x < y`. -/
protected noncomputable def lt : XReal → XReal → Bool
  | real x, real y => decide (x < y)
  | negInf, real _ => true
  | _, _ => false

protected noncomputable def exp : XReal → XReal
  | real x => real (Real.exp x)
  | negInf => real 0
  | nan => nan

open Classical in
protected noncomputable def log : XReal → XReal
  | real x => if 0 < x then real (Real.log x) else if x = 0 then negInf else nan
  | _ => nan

open Classical in
/-- `1 / x`. -/
protected noncomputable def recip : XReal → XReal
  | real x => if x = 0 then nan else real x⁻¹
  | negInf => real 0
  | nan => nan

/-- The real number, of a real value. -/
def toReal : XReal → ℝ
  | real x => x
  | _ => 0

/-- `x == -INFINITY`. -/
def isNegInf : XReal → Bool
  | negInf => true
  | _ => false

instance : Add XReal := ⟨XReal.add⟩

instance : Zero XReal := ⟨real 0⟩

instance : Sub XReal := ⟨XReal.sub⟩

noncomputable instance : Mul XReal := ⟨XReal.mul⟩

instance : AddCommMonoid XReal where
  nsmul := nsmulRec
  add_assoc := by
    rintro (_ | _ | x) (_ | _ | y) (_ | _ | z) <;> first | rfl | exact congrArg real (add_assoc x y z)
  zero_add := by
    rintro (_ | _ | x)
    · rfl
    · rfl
    · exact congrArg real (zero_add x)
  add_zero := by
    rintro (_ | _ | x)
    · rfl
    · rfl
    · exact congrArg real (add_zero x)
  add_comm := by
    rintro (_ | _ | x) (_ | _ | y) <;> first | rfl | exact congrArg real (add_comm x y)

/-- `hi + log(1 + exp(lo - hi))`, of the two values in order. -/
protected noncomputable def mergeLog (x y : XReal) : XReal :=
  let hi := x.max y
  let lo := x.min y
  hi + (real 1 + (lo - hi).exp).log

/-- `logaddexp(x, y)`. -/
protected noncomputable def logaddexp (x y : XReal) : XReal :=
  if (x.min y).isNegInf then x.max y else x.mergeLog y

/-! ## On real values -/

section Real
variable {x y : ℝ}

@[simp] theorem real_add_real : real x + real y = real (x + y) := rfl

@[simp] theorem real_sub_real : real x - real y = real (x - y) := rfl

@[simp] theorem negInf_sub_real : negInf - real y = negInf := rfl

@[simp] theorem real_add_negInf : real x + negInf = negInf := rfl

@[simp] theorem real_mul_real : real x * real y = real (x * y) := rfl

@[simp] theorem exp_real : (real x).exp = real (Real.exp x) := rfl

@[simp] theorem exp_negInf : negInf.exp = real 0 := rfl

theorem log_real (h : 0 < x) : (real x).log = real (Real.log x) := if_pos h

theorem recip_real (h : x ≠ 0) : (real x).recip = real x⁻¹ := if_neg h

@[simp] theorem max_real : (real x).max (real y) = real (max x y) := rfl

@[simp] theorem min_real : (real x).min (real y) = real (min x y) := rfl

/-- A sum of real values is real. -/
theorem sum_real {ι : Type} {s : Finset ι} {f : ι → XReal} {g : ι → ℝ} (h : ∀ i ∈ s, f i = real (g i)) :
    ∑ i ∈ s, f i = real (∑ i ∈ s, g i) := by
  classical
  rw [Finset.sum_congr rfl h]
  induction s using Finset.induction_on with
  | empty => rfl
  | insert a s ha ih =>
    rw [Finset.sum_insert ha, Finset.sum_insert ha, ih fun i hi => h i (Finset.mem_insert_of_mem hi), real_add_real]

end Real

/-! ## Maxima -/

/-- A maximum that may be over nothing. -/
def ofBot : WithBot ℝ → XReal
  | none => negInf
  | some x => real x

@[simp] theorem ofBot_coe (x : ℝ) : ofBot x = real x := rfl

@[simp] theorem max_negInf (x : XReal) : x.max negInf = x := by cases x <;> rfl

theorem max_ofBot (a b : WithBot ℝ) : (ofBot a).max (ofBot b) = ofBot (a ⊔ b) := by
  induction a with
  | bot =>
    rw [bot_sup_eq]
    cases b <;> rfl
  | coe x =>
    induction b with
    | bot => rw [sup_bot_eq]; rfl
    | coe y => rfl

end XReal
