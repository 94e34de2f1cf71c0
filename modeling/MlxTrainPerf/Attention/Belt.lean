import MlxTrainPerf.Attention.WidestWithin
import MlxTrainPerf.Lib.Double
import MlxTrainPerf.Lib.StepDown
/-!
# The belt around the widest range

In floats the closed form may come out too wide, and the belt loop steps it down: it always
ends within the budget, by the code's own division, but a candidate clamped to the rows left
is not a whole number of blocks, so a step down from there cuts inside a block.
-/
open PyJson Loops

namespace MlxTrainPerf.Launch

/-! ## `_widest_within`, from its candidate on -/

section Model
variable (p : Pass) (r0 : ℕ) (budgetS : ℚ) (blockAlign : ℕ)

/-- `range_macs(..) / rate` for `w` rows from `r0` on, past the conversion of the count. An infinite quotient is here
above every float. -/
def floatCost (w : ℕ) : ℚ := double.quot (double.ofInt (rangeMacs p r0 (r0 + w))) p.rate

/-- The count makes a float; else Python raises `OverflowError`. -/
def MakesFloat (w : ℕ) : Prop := double.ofInt (rangeMacs p r0 (r0 + w)) < 2 ^ 1024

instance (w : ℕ) : Decidable (MakesFloat p r0 w) := inferInstanceAs (Decidable (_ < _))

/-- `range_macs(..) / rate`; `none` is the `OverflowError`. -/
def floatSeconds (w : ℕ) : Option ℚ := if MakesFloat p r0 w then some (floatCost p r0 w) else none

/-- `while w > 0 and range_macs(..) / rate > budget_s: w -= step`. -/
def floatBelt (w : ℕ) : Option ℕ :=
  if 0 < w then
    match floatSeconds p r0 w with
    | none => none
    | some s => if budgetS < s then floatBelt (w - beltStep blockAlign) else some w
  else some 0
termination_by w
decreasing_by
  have := beltStep_pos blockAlign
  omega

/-- `_widest_within`, whatever candidate `w0` the floats made of the closed form. -/
def belted (w0 : ℕ) : Option ℕ :=
  if double.mul budgetS p.rate ≤ 0 then some 0 else floatBelt p r0 budgetS blockAlign (roundToBlock p r0 blockAlign w0)

/-- What the belt is for: the rows returned are within the budget, and the cut behind them splits no block. -/
structure SafeCut (w : ℕ) : Prop where
  within : 0 < w → ∃ s, floatSeconds p r0 w = some s ∧ s ≤ budgetS
  cut : blockAlign ∣ r0 + w ∨ r0 + w = p.n

/-- All the rows left are taken, they are no whole number of blocks and over the budget, but what is left of them after
whole blocks fits. -/
structure StepsOff (w0 : ℕ) : Prop where
  budgeted : 0 < double.mul budgetS p.rate
  clamped : p.n - r0 ≤ w0
  ragged : ¬blockAlign ∣ p.n - r0
  exceeds : budgetS < floatCost p r0 (p.n - r0)
  rest : floatCost p r0 ((p.n - r0) % blockAlign) ≤ budgetS

end Model

section Belt
variable {p : Pass} {r0 blockAlign w w' w0 : ℕ} {budgetS : ℚ}

theorem beltStep_eq (halign : 1 ≤ blockAlign) : beltStep blockAlign = blockAlign := by
  unfold beltStep
  split <;> omega

theorem floatMacs_mono (h : w ≤ w') : double.ofInt (rangeMacs p r0 (r0 + w)) ≤ double.ofInt (rangeMacs p r0 (r0 + w')) :=
  Rounding.ofInt_mono (by exact_mod_cast rangeMacs_mono h)

theorem MakesFloat.mono (h : w ≤ w') (hfloat : MakesFloat p r0 w') : MakesFloat p r0 w :=
  (floatMacs_mono h).trans_lt hfloat

theorem makesFloat_zero : MakesFloat p r0 0 := by
  have hzero : rangeMacs p r0 (r0 + 0) = 0 := by
    unfold rangeMacs causalPairs
    simp
  have hround : double.ofInt ((0 : ℕ) : ℤ) = 0 := by simp [Rounding.ofInt, double]
  unfold MakesFloat
  rw [hzero, hround]
  positivity

/-- More rows cost more, or no less at a negative rate. -/
theorem floatCost_mono (p : Pass) (r0 : ℕ) (budgetS : ℚ) :
    (∀ a b, a ≤ b → budgetS < floatCost p r0 a → budgetS < floatCost p r0 b) ∨
      ∀ a b, a ≤ b → budgetS < floatCost p r0 b → budgetS < floatCost p r0 a := by
  rcases le_total 0 p.rate with hrate | hrate
  · exact .inl fun a b h hover => hover.trans_le (nearest_mono (div_le_div_of_nonneg_right (floatMacs_mono h) hrate))
  · exact .inr fun a b h hover => hover.trans_le (nearest_mono (div_le_div_of_nonpos_of_le hrate (floatMacs_mono h)))

/-- Where the first count makes a float all of them do, and the loop is a plain one. -/
theorem floatBelt_eq (h : MakesFloat p r0 w) :
    floatBelt p r0 budgetS blockAlign w = some (stepDown (budgetS < floatCost p r0 ·) (beltStep blockAlign) w) := by
  induction w using Nat.strong_induction_on with
  | _ w ih =>
    have hstep := beltStep_pos blockAlign
    rw [floatBelt, stepDown]
    by_cases hw : 0 < w
    · have hseconds : floatSeconds p r0 w = some (floatCost p r0 w) := if_pos h
      rw [if_pos hw, hseconds]
      by_cases hover : budgetS < floatCost p r0 w
      · rw [if_pos ⟨hw, hstep, hover⟩]
        dsimp only
        rw [if_pos hover]
        exact ih _ (by omega) (h.mono (Nat.sub_le _ _))
      · rw [if_neg fun hgo => hover hgo.2.2]
        exact if_neg hover
    · obtain rfl := Nat.eq_zero_of_not_pos hw
      rfl

theorem floatBelt_overflow (h : ¬MakesFloat p r0 w) : floatBelt p r0 budgetS blockAlign w = none := by
  have hw : 0 < w := Nat.pos_of_ne_zero fun hzero => h (hzero ▸ makesFloat_zero)
  have hseconds : floatSeconds p r0 w = none := if_neg h
  rw [floatBelt, if_pos hw, hseconds]

/-- What the plain loop leaves is within the budget. -/
theorem stepDown_within (h : MakesFloat p r0 w)
    (hpos : 0 < stepDown (budgetS < floatCost p r0 ·) (beltStep blockAlign) w) :
    ∃ s, floatSeconds p r0 (stepDown (budgetS < floatCost p r0 ·) (beltStep blockAlign) w) = some s ∧ s ≤ budgetS := by
  obtain ⟨k, hk, -⟩ := @stepDown_eq_sub (budgetS < floatCost p r0 ·) _ (beltStep blockAlign) w
  have hle : stepDown (budgetS < floatCost p r0 ·) (beltStep blockAlign) w ≤ w := hk.le.trans (Nat.sub_le _ _)
  exact ⟨_, if_pos (h.mono hle), not_lt.1 (stepDown_stops (beltStep_pos blockAlign) hpos)⟩

/-- Rounded to whole blocks, a candidate short of the tail stays so; one past it is clamped. -/
theorem roundToBlock_cases (p : Pass) (r0 w0 : ℕ) (halign : 1 ≤ blockAlign) :
    p.n - r0 ≤ w0 ∧ roundToBlock p r0 blockAlign w0 = p.n - r0 ∨
      w0 < p.n - r0 ∧ blockAlign ∣ roundToBlock p r0 blockAlign w0 := by
  rcases Nat.lt_or_ge w0 (p.n - r0) with hshort | hclamped
  · have hround := @roundToBlock_le p r0 blockAlign w0
    exact .inr ⟨hshort, (@roundToBlock_aligned p r0 blockAlign w0 halign).resolve_right (by omega)⟩
  · refine .inl ⟨hclamped, ?_⟩
    rw [roundToBlock, min_eq_right hclamped, if_neg fun hlt => absurd hlt.1 (lt_irrefl _)]

/-- The plain loop cuts on a block boundary or at `n`, unless it steps off the blocks. -/
theorem stepDown_cut (halign : 1 ≤ blockAlign) (hr0 : blockAlign ∣ r0) (hbudget : 0 < double.mul budgetS p.rate) :
    (blockAlign ∣ r0 + stepDown (budgetS < floatCost p r0 ·) blockAlign (roundToBlock p r0 blockAlign w0) ∨
      r0 + stepDown (budgetS < floatCost p r0 ·) blockAlign (roundToBlock p r0 blockAlign w0) = p.n) ↔
      ¬StepsOff p r0 budgetS blockAlign w0 := by
  have hmono := floatCost_mono p r0 budgetS
  constructor
  · rintro hcut ⟨-, hclamped, hragged, hover, hrest⟩
    rcases roundToBlock_cases p r0 w0 halign with ⟨-, hround⟩ | ⟨hshort, -⟩
    · rw [hround] at hcut
      have hne : 0 < p.n - r0 := Nat.pos_of_ne_zero fun h => hragged (h ▸ Nat.dvd_zero _)
      have hpos := (stepDown_pos_iff halign hragged hover hmono).2 (not_lt.2 hrest)
      have hlt := @stepDown_lt (budgetS < floatCost p r0 ·) _ blockAlign _ halign hne hover
      rcases hcut with hdvd | hend
      · exact stepDown_not_dvd hragged hpos ((Nat.dvd_add_right hr0).1 hdvd)
      · omega
    · omega
  · intro hstays
    rcases roundToBlock_cases p r0 w0 halign with ⟨hclamped, hround⟩ | ⟨-, hdvd⟩
    · rw [hround]
      by_cases hdvd : blockAlign ∣ p.n - r0
      · exact .inl (dvd_add hr0 (stepDown_dvd hdvd))
      · by_cases hover : budgetS < floatCost p r0 (p.n - r0)
        · have hnone := mt (stepDown_pos_iff halign hdvd hover hmono).1 fun hrest =>
            hstays ⟨hbudget, hclamped, hdvd, hover, not_lt.1 hrest⟩
          rw [Nat.eq_zero_of_not_pos hnone, Nat.add_zero]
          exact .inl hr0
        · -- The whole tail is kept.
          rw [stepDown_eq hover]
          have hne : p.n - r0 ≠ 0 := fun h => hdvd (h ▸ Nat.dvd_zero _)
          exact .inr (by omega)
    · exact .inl (dvd_add hr0 (stepDown_dvd hdvd))

/-- The belt repairs every candidate, but one that steps off the blocks, and but for a count that makes no float. -/
theorem belt_repairs_iff (p : Pass) (r0 : ℕ) (budgetS : ℚ) (blockAlign w0 : ℕ) (halign : 1 ≤ blockAlign)
    (hr0 : blockAlign ∣ r0) :
    (∃ w, belted p r0 budgetS blockAlign w0 = some w ∧ SafeCut p r0 budgetS blockAlign w) ↔
      (0 < double.mul budgetS p.rate → MakesFloat p r0 (roundToBlock p r0 blockAlign w0)) ∧
        ¬StepsOff p r0 budgetS blockAlign w0 := by
  unfold belted
  by_cases hbudget : double.mul budgetS p.rate ≤ 0
  · -- Nothing is dispatched.
    rw [if_pos hbudget]
    refine iff_of_true ⟨0, rfl, fun h => absurd h (lt_irrefl 0), .inl hr0⟩ ⟨fun h => absurd h (not_lt.2 hbudget), ?_⟩
    exact fun hoff => absurd hoff.budgeted (not_lt.2 hbudget)
  · rw [if_neg hbudget]
    have hcut := @stepDown_cut p r0 blockAlign w0 budgetS halign hr0 (not_le.1 hbudget)
    by_cases hfloat : MakesFloat p r0 (roundToBlock p r0 blockAlign w0)
    · rw [floatBelt_eq hfloat]
      constructor
      · rintro ⟨w, hw, hsafe⟩
        obtain rfl := Option.some.inj hw
        refine ⟨fun _ => hfloat, hcut.1 ?_⟩
        have hsafe := hsafe.cut
        rwa [beltStep_eq halign] at hsafe
      · rintro ⟨-, hstays⟩
        refine ⟨_, rfl, stepDown_within hfloat, ?_⟩
        rw [beltStep_eq halign]
        exact hcut.2 hstays
    · rw [floatBelt_overflow hfloat]
      refine iff_of_false ?_ fun h => hfloat (h.1 (not_le.1 hbudget))
      rintro ⟨w, hw, -⟩
      cases hw

/-- The 2053 rows of the pass are an ulp over its half second, and what the belt leaves of them ends inside a block. -/
theorem not_belted_safe : ¬∀ (p : Pass) (r0 : ℕ) (budgetS : ℚ) (blockAlign w0 : ℕ), 1 ≤ blockAlign → blockAlign ∣ r0 →
    ∃ w, belted p r0 budgetS blockAlign w0 = some w ∧ SafeCut p r0 budgetS blockAlign w := by
  intro hsafe
  obtain ⟨w, hw, hcut⟩ := hsafe ⟨2053, 4096, 4527821095436287 / 262144, true⟩ 0 (1 / 2) 32 2053 (by decide) (Nat.dvd_zero _)
  have hround : roundToBlock ⟨2053, 4096, 4527821095436287 / 262144, true⟩ 0 32 2053 = 2053 := by decide
  have hover : 1 / 2 < floatCost ⟨2053, 4096, 4527821095436287 / 262144, true⟩ 0 2053 := by decide +kernel
  have hfits : ¬1 / 2 < floatCost ⟨2053, 4096, 4527821095436287 / 262144, true⟩ 0 2021 := by decide +kernel
  have hfloat : MakesFloat ⟨2053, 4096, 4527821095436287 / 262144, true⟩ 0 2053 := by decide +kernel
  have hbudget : ¬double.mul (1 / 2) (4527821095436287 / 262144) ≤ 0 := by decide +kernel
  have hstep : belted ⟨2053, 4096, 4527821095436287 / 262144, true⟩ 0 (1 / 2) 32 2053 = some 2021 := by
    rw [belted, if_neg hbudget, hround, floatBelt_eq hfloat, stepDown, if_pos ⟨by decide, by decide, hover⟩]
    exact congrArg some (stepDown_eq hfits)
  obtain rfl := Option.some.inj (hstep.symm.trans hw)
  exact absurd hcut.cut (by decide)

/-- A candidate short of the tail is repaired, wherever the float error left it. -/
theorem belt_repairs_iff_short : ∃ w, belted ⟨2053, 4096, 4527821095436287 / 262144, true⟩ 0 (1 / 2) 32 2052 = some w ∧
    SafeCut ⟨2053, 4096, 4527821095436287 / 262144, true⟩ 0 (1 / 2) 32 w := by
  have hfloat : MakesFloat ⟨2053, 4096, 4527821095436287 / 262144, true⟩ 0
      (roundToBlock ⟨2053, 4096, 4527821095436287 / 262144, true⟩ 0 32 2052) := by decide +kernel
  exact (belt_repairs_iff _ 0 (1 / 2) 32 2052 (by decide) (Nat.dvd_zero _)).2
    ⟨fun _ => hfloat, fun hoff => absurd hoff.clamped (by decide)⟩

end Belt

end MlxTrainPerf.Launch
