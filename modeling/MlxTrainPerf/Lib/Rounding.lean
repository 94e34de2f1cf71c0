import Mathlib.Algebra.Order.Floor.Ring
import Mathlib.Data.Rat.Floor
/-!
# Rounded arithmetic

Floats as rationals, under any rounding that keeps order and zero. Every operation
rounds its exact result; the identity is exact arithmetic. Overflow and NaN are
outside.
-/

/-- A rounding of the rationals. -/
structure Rounding where
  round : ℚ → ℚ
  mono : Monotone round
  zero : round 0 = 0

namespace Rounding

/-- No rounding at all. -/
def exact : Rounding := ⟨id, monotone_id, rfl⟩

theorem exact_round (a : ℚ) : exact.round a = a := rfl

variable (R : Rounding)

/-- `float(n)`. -/
def ofInt (n : ℤ) : ℚ := R.round n

/-- `a + b`. -/
def add (a b : ℚ) : ℚ := R.round (a + b)

/-- `a * b`. -/
def mul (a b : ℚ) : ℚ := R.round (a * b)

theorem exact_mul (a b : ℚ) : exact.mul a b = a * b := rfl

/-- `a / b` on integers. -/
def div (a b : ℤ) : ℚ := R.round (a / b)

/-- `a / b`. -/
def quot (a b : ℚ) : ℚ := R.round (a / b)

/-- `a * n₁ * n₂ * …`, from the left. -/
def scale (a : ℚ) (ns : List ℤ) : ℚ := ns.foldl (fun acc n => R.mul acc (R.ofInt n)) a

/-- `int(a)`: towards zero. -/
def trunc (a : ℚ) : ℤ := if 0 ≤ a then ⌊a⌋ else ⌈a⌉

section Order
variable {R : Rounding} {a b c d : ℚ} {m n : ℤ} {ms ns : List ℤ}

theorem round_nonneg (h : 0 ≤ a) : 0 ≤ R.round a := by
  have hle := R.mono h
  rwa [R.zero] at hle

theorem ofInt_nonneg (h : 0 ≤ n) : 0 ≤ R.ofInt n := round_nonneg (Int.cast_nonneg h)

theorem ofInt_mono (h : m ≤ n) : R.ofInt m ≤ R.ofInt n := R.mono (Int.cast_le.2 h)

theorem add_nonneg (ha : 0 ≤ a) (hb : 0 ≤ b) : 0 ≤ R.add a b := round_nonneg (Right.add_nonneg ha hb)

theorem add_mono (hab : a ≤ b) (hcd : c ≤ d) : R.add a c ≤ R.add b d := R.mono (add_le_add hab hcd)

theorem mul_nonneg (ha : 0 ≤ a) (hb : 0 ≤ b) : 0 ≤ R.mul a b := round_nonneg (Left.mul_nonneg ha hb)

theorem mul_mono (hc : 0 ≤ c) (hb : 0 ≤ b) (hab : a ≤ b) (hcd : c ≤ d) : R.mul a c ≤ R.mul b d :=
  R.mono (mul_le_mul hab hcd hc hb)

theorem scale_nonneg (ha : 0 ≤ a) (hns : ∀ n ∈ ns, 0 ≤ n) : 0 ≤ R.scale a ns := by
  induction ns generalizing a with
  | nil => exact ha
  | cons n ns ih =>
    have hmul : 0 ≤ R.mul a (R.ofInt n) := mul_nonneg ha (ofInt_nonneg (hns n (by simp)))
    exact ih hmul fun m hm => hns m (by simp [hm])

/-- Larger factors make a larger product. -/
theorem scale_mono (ha : 0 ≤ a) (hab : a ≤ b) (hns : List.Forall₂ (fun m n => 0 ≤ m ∧ m ≤ n) ms ns) :
    R.scale a ms ≤ R.scale b ns := by
  induction hns generalizing a b with
  | nil => exact hab
  | cons h _ ih =>
    have hm := ofInt_nonneg (R := R) h.1
    exact ih (mul_nonneg ha hm) (mul_mono hm (ha.trans hab) hab (ofInt_mono h.2))

/-- A larger coefficient makes a larger product. -/
theorem scale_mono_left (hab : a ≤ b) (hns : ∀ n ∈ ns, 0 ≤ n) : R.scale a ns ≤ R.scale b ns := by
  induction ns generalizing a b with
  | nil => exact hab
  | cons n ns ih =>
    have hn : 0 ≤ R.ofInt n := ofInt_nonneg (hns n (by simp))
    exact ih (R.mono (mul_le_mul_of_nonneg_right hab hn)) fun m hm => hns m (by simp [hm])

theorem pos_of_ofInt_pos (h : 0 < R.ofInt n) : 0 < n := by
  by_contra hn
  have hle := R.mono (Int.cast_nonpos.2 (not_lt.1 hn) : (n : ℚ) ≤ 0)
  rw [R.zero] at hle
  exact absurd h (not_lt.2 hle)

theorem trunc_nonneg (h : 0 ≤ a) : 0 ≤ trunc a := by
  rw [trunc, if_pos h]
  exact Int.floor_nonneg.2 h

theorem trunc_mono (h : a ≤ b) : trunc a ≤ trunc b := by
  unfold trunc
  split_ifs with ha hb hb
  · exact Int.floor_le_floor h
  · exact absurd (ha.trans h) hb
  · have hceil : ⌈a⌉ ≤ 0 := Int.ceil_le.2 (by simpa using (not_le.1 ha).le)
    exact hceil.trans (Int.floor_nonneg.2 hb)
  · exact Int.ceil_le_ceil h

end Order
end Rounding
