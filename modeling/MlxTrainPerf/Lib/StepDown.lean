import Mathlib.Order.Basic
import Mathlib.Order.Nat
/-!
# Stepping down

`while w > 0 and high(w): w -= step`, and then `max(0, w)`: where such a loop stops, and what it keeps of the
multiples it started from.
-/
namespace Loops

/-- The loop; without a step it ends at once. -/
def stepDown (high : ℕ → Prop) [DecidablePred high] (step w : ℕ) : ℕ :=
  if 0 < w ∧ 0 < step ∧ high w then stepDown high step (w - step) else w
termination_by w
decreasing_by omega

section StepDown
variable {high : ℕ → Prop} [DecidablePred high] {step w : ℕ}

theorem stepDown_eq (h : ¬high w) : stepDown high step w = w := by
  rw [stepDown, if_neg fun hgo => h hgo.2.2]

/-- It stops below what is high, or at nothing. -/
theorem stepDown_stops (hstep : 0 < step) (hpos : 0 < stepDown high step w) : ¬high (stepDown high step w) := by
  fun_induction stepDown high step w with
  | case1 w _ ih => exact ih hpos
  | case2 w hstop => exact fun hover => hstop ⟨hpos, hstep, hover⟩

/-- It stops a whole number of steps below its start, and everything before was high. -/
theorem stepDown_eq_sub : ∃ k, stepDown high step w = w - k * step ∧ ∀ j < k, high (w - j * step) := by
  fun_induction stepDown high step w with
  | case1 w hgo ih =>
    obtain ⟨k, hk, hbefore⟩ := ih
    have hshift : ∀ j, w - (j + 1) * step = w - step - j * step := by
      intro j
      rw [Nat.succ_mul, Nat.add_comm, Nat.sub_add_eq]
    refine ⟨k + 1, by rw [hk, hshift], fun j hj => ?_⟩
    cases j with
    | zero => rw [Nat.zero_mul, Nat.sub_zero]; exact hgo.2.2
    | succ j => rw [hshift]; exact hbefore j (by omega)
  | case2 w _ => exact ⟨0, by rw [Nat.zero_mul, Nat.sub_zero], fun j hj => absurd hj (Nat.not_lt_zero j)⟩

theorem stepDown_lt (hstep : 0 < step) (hw : 0 < w) (hover : high w) : stepDown high step w < w := by
  obtain ⟨k, hk, -⟩ := @stepDown_eq_sub high _ step (w - step)
  rw [stepDown, if_pos ⟨hw, hstep, hover⟩, hk]
  omega

/-- From a multiple of the step it ends at one, -/
theorem stepDown_dvd (h : step ∣ w) : step ∣ stepDown high step w := by
  obtain ⟨k, hk, -⟩ := @stepDown_eq_sub high _ step w
  rw [hk]
  exact Nat.dvd_sub h (Nat.dvd_mul_left _ _)

/-- and from any other start at none but zero. -/
theorem stepDown_not_dvd (h : ¬step ∣ w) (hpos : 0 < stepDown high step w) : ¬step ∣ stepDown high step w := by
  obtain ⟨k, hk, -⟩ := @stepDown_eq_sub high _ step w
  rw [hk] at hpos ⊢
  exact fun hdvd => h ((Nat.dvd_sub_iff_left (by omega) (Nat.dvd_mul_left _ _)).1 hdvd)

/-- From such a start that is high, it ends above zero when the remainder is not. What is high stays so upwards,
or downwards. -/
theorem stepDown_pos_iff (hstep : 0 < step) (h : ¬step ∣ w) (hover : high w)
    (hmono : (∀ a b, a ≤ b → high a → high b) ∨ ∀ a b, a ≤ b → high b → high a) :
    0 < stepDown high step w ↔ ¬high (w % step) := by
  obtain ⟨k, hk, hbefore⟩ := @stepDown_eq_sub high _ step w
  have hrest : w - w / step * step = w % step := by
    have := Nat.div_add_mod' w step
    omega
  constructor
  · intro hpos
    have hstops := stepDown_stops hstep hpos
    rcases hmono with hup | hdown
    · -- The remainder is the smallest of the values stepped through.
      have hlast : k ≤ w / step := (Nat.le_div_iff_mul_le hstep).2 (by omega)
      have hle : w % step ≤ stepDown high step w := by
        rw [hk, ← hrest]
        exact Nat.sub_le_sub_left (Nat.mul_le_mul_right _ hlast) w
      exact fun hover => hstops (hup _ _ hle hover)
    · exact absurd (hdown _ _ (hk.le.trans (Nat.sub_le _ _)) hover) hstops
  · intro hfits
    have hpos : 0 < w % step := Nat.pos_of_ne_zero fun hzero => h (Nat.dvd_of_mod_eq_zero hzero)
    by_contra hzero
    have hlast : w / step < k := by
      by_contra hle
      have := Nat.mul_le_mul_right step (not_lt.1 hle)
      omega
    have hover := hbefore _ hlast
    rw [hrest] at hover
    exact hfits hover

end StepDown
end Loops
