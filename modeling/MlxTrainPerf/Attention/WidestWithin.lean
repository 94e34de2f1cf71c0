import MlxTrainPerf.Attention.FwdBudget
/-!
# The widest range

In exact arithmetic `_widest_within` returns the widest range there is.
-/
namespace MlxTrainPerf.Launch

/-! ## Costs -/

section Costs
variable {p : Pass} {r0 w w' : ℕ}

theorem rangeMacs_mono (h : w ≤ w') : rangeMacs p r0 (r0 + w) ≤ rangeMacs p r0 (r0 + w') := by
  rw [← rangeMacs_add (Nat.le_add_right r0 w) (Nat.add_le_add_left h r0)]
  exact Nat.le_add_right _ _

theorem rangeMacs_pos (hcost : 0 < p.pairCost) (hw : 0 < w) (hin : w ≤ p.n - r0) : 0 < rangeMacs p r0 (r0 + w) := by
  unfold rangeMacs
  split
  · refine Nat.mul_pos ?_ hcost
    have hpairs := two_causalPairs r0 w
    have hrows : 0 < w * (w + (2 * r0 + 1)) := Nat.mul_pos hw (by omega)
    omega
  · rw [Nat.add_sub_cancel_left]
    exact Nat.mul_pos (Nat.mul_pos hw (by omega)) hcost

theorem seconds_pos (hcost : 0 < p.pairCost) (hrate : 0 < p.rate) (hw : 0 < w) (hin : w ≤ p.n - r0) :
    0 < seconds p r0 (r0 + w) := div_pos (Nat.cast_pos.2 (rangeMacs_pos hcost hw hin)) hrate

end Costs

/-! ## The widest range -/

section Exact
variable {p : Pass} {r0 blockAlign w W : ℕ} {budgetS : ℚ}

/-- Rows that `_widest_within` may return: they are within the budget, and end at `n`
or on a block boundary. -/
structure Fits (p : Pass) (r0 : ℕ) (budgetS : ℚ) (blockAlign w : ℕ) : Prop where
  pos : 0 < w
  inside : w ≤ p.n - r0
  cut : r0 + w = p.n ∨ blockAlign ∣ w
  within : seconds p r0 (r0 + w) ≤ budgetS

/-- The closed form is the widest width within the budget. -/
theorem closedForm_isGreatest (hcost : 0 < p.pairCost) (hrate : 0 < p.rate) (hn : 0 < p.n) (hbudget : 0 < budgetS) :
    IsGreatest {w | seconds p r0 (r0 + w) ≤ budgetS} (closedForm p r0 (budgetS * p.rate)) := by
  have hle : ∀ k, k ≤ closedForm p r0 (budgetS * p.rate) ↔ seconds p r0 (r0 + k) ≤ budgetS := by
    intro k
    rw [seconds_le_iff hrate, le_closedForm_iff hcost hn (mul_pos hbudget hrate).le]
  exact ⟨(hle _).1 le_rfl, fun k hk => (hle k).2 hk⟩

/-- Rounding down keeps every width that may be returned. -/
theorem le_roundToBlock (hw : w ≤ W) (hin : w ≤ p.n - r0) (hcut : r0 + w = p.n ∨ blockAlign ∣ w) :
    w ≤ roundToBlock p r0 blockAlign W := by
  have hle : w ≤ min W (p.n - r0) := le_min hw hin
  unfold roundToBlock
  dsimp only
  split
  · next hshort =>
    obtain ⟨k, rfl⟩ := hcut.resolve_left (by omega)
    rw [Nat.mul_comm blockAlign k] at hle ⊢
    exact Nat.mul_le_mul_right _ ((Nat.le_div_iff_mul_le (by omega)).2 hle)
  · exact hle

theorem beltLoop_zero : beltLoop p r0 budgetS blockAlign 0 = 0 := by
  unfold beltLoop
  exact if_neg fun h => absurd h.1 (lt_irrefl 0)

theorem Fits.le_widestWithin (hcost : 0 < p.pairCost) (hrate : 0 < p.rate) (h : Fits p r0 budgetS blockAlign w) :
    w ≤ widestWithin p r0 budgetS blockAlign := by
  obtain ⟨hpos, hin, hcut, hwithin⟩ := h
  have hbudget : 0 < budgetS := (seconds_pos hcost hrate hpos hin).trans_le hwithin
  rw [widestWithin_eq hcost hrate (by omega) hbudget]
  exact le_roundToBlock ((closedForm_isGreatest hcost hrate (by omega) hbudget).2 hwithin) hin hcut

theorem widestWithin_past (hr0 : p.n ≤ r0) : widestWithin p r0 budgetS blockAlign = 0 := by
  unfold widestWithin
  dsimp only
  split
  · rfl
  · have hround : ∀ w, roundToBlock p r0 blockAlign w = 0 := by
      intro w
      have := @roundToBlock_le p r0 blockAlign w
      omega
    rw [hround, beltLoop_zero]

theorem fits_widestWithin (hcost : 0 < p.pairCost) (hrate : 0 < p.rate) (halign : 1 ≤ blockAlign)
    (hpos : 0 < widestWithin p r0 budgetS blockAlign) : Fits p r0 budgetS blockAlign (widestWithin p r0 budgetS blockAlign) := by
  rcases Nat.lt_or_ge r0 p.n with hr0 | hr0
  · obtain ⟨hin, hwithin, hcut⟩ := @widestWithin_fits p r0 blockAlign budgetS hcost hrate halign hr0
    exact ⟨hpos, hin, hcut.symm.imp (fun h => by omega) id, hwithin hpos⟩
  · rw [widestWithin_past hr0] at hpos
    cases hpos

/-- A width that fits leaves room for one block, or is the tail. -/
theorem Fits.block_or_tail (hrate : 0 < p.rate) (halign : 1 ≤ blockAlign) (h : Fits p r0 budgetS blockAlign w) :
    Fits p r0 budgetS blockAlign blockAlign ∨ Fits p r0 budgetS blockAlign (p.n - r0) := by
  obtain ⟨hpos, hin, hcut, hwithin⟩ := h
  rcases hcut with hend | hdvd
  · right
    obtain rfl : w = p.n - r0 := by omega
    exact ⟨hpos, hin, .inl hend, hwithin⟩
  · left
    have hle := Nat.le_of_dvd hpos hdvd
    have hcheaper := @seconds_le_of_inside p r0 (r0 + blockAlign) hrate r0 (r0 + w) le_rfl (by omega) (by omega)
    exact ⟨halign, hle.trans hin, .inr dvd_rfl, hcheaper.trans hwithin⟩

/-- `_widest_within` returns the widest range that fits, and nothing exactly when
neither one block nor the tail does; the closed form is the brute-force maximum. -/
theorem widest_within_exact (p : Pass) (r0 : ℕ) (budgetS : ℚ) (blockAlign : ℕ) (hcost : 0 < p.pairCost)
    (hrate : 0 < p.rate) (halign : 1 ≤ blockAlign) :
    IsGreatest (insert 0 {w | Fits p r0 budgetS blockAlign w}) (widestWithin p r0 budgetS blockAlign) ∧
    (widestWithin p r0 budgetS blockAlign = 0 ↔
      ¬Fits p r0 budgetS blockAlign blockAlign ∧ ¬Fits p r0 budgetS blockAlign (p.n - r0)) ∧
    (r0 < p.n → 0 < budgetS →
      IsGreatest {w | seconds p r0 (r0 + w) ≤ budgetS} (closedForm p r0 (budgetS * p.rate)) ∧
      (p.causal → (closedForm p r0 (budgetS * p.rate) : ℤ) =
        ⌊(Real.sqrt ((2 * r0 + 1 : ℕ) * (2 * r0 + 1 : ℕ) + 8 * ((budgetS * p.rate / p.pairCost : ℚ) : ℝ)) -
          (2 * r0 + 1 : ℕ)) / 2⌋)) := by
  have hfits := @fits_widestWithin p r0 blockAlign budgetS hcost hrate halign
  refine ⟨⟨?_, ?_⟩, ⟨fun hzero => ?_, fun hnone => ?_⟩, fun hr0 hbudget => ⟨?_, fun hcausal => ?_⟩⟩
  · exact (Nat.eq_zero_or_pos _).imp id hfits
  · rintro w (rfl | hw)
    · exact Nat.zero_le _
    · exact Fits.le_widestWithin hcost hrate hw
  · have hnone : ∀ w, ¬Fits p r0 budgetS blockAlign w := by
      intro w hw
      have hle := hw.le_widestWithin hcost hrate
      have hpos := hw.pos
      omega
    exact ⟨hnone _, hnone _⟩
  · by_contra hne
    exact ((hfits (Nat.pos_of_ne_zero hne)).block_or_tail hrate halign).elim hnone.1 hnone.2
  · exact closedForm_isGreatest hcost hrate (by omega) hbudget
  · have hbp : 0 ≤ budgetS * p.rate / p.pairCost := div_nonneg (mul_pos hbudget hrate).le (Nat.cast_nonneg _)
    rw [closedForm, if_pos hcausal]
    exact causalRoot_eq_floor (2 * r0 + 1) hbp

/-- A block fits behind the first one, though not the rest of the pass. -/
theorem widest_within_exact_block : widestWithin ⟨100, 4, 32768, true⟩ 32 (1 / 2) 32 ≠ 0 ∧
    IsGreatest (insert 0 {w | Fits ⟨100, 4, 32768, true⟩ 32 (1 / 2) 32 w})
      (widestWithin ⟨100, 4, 32768, true⟩ 32 (1 / 2) 32) := by
  have hblock : Fits ⟨100, 4, 32768, true⟩ 32 (1 / 2) 32 32 := by
    refine ⟨by decide, by decide, .inr dvd_rfl, ?_⟩
    norm_num [seconds, rangeMacs, causalPairs]
  have hexact := widest_within_exact ⟨100, 4, 32768, true⟩ 32 (1 / 2) 32 (by decide) (by norm_num) (by decide)
  exact ⟨fun hzero => (hexact.2.1.1 hzero).1 hblock, hexact.1⟩

end Exact

end MlxTrainPerf.Launch
