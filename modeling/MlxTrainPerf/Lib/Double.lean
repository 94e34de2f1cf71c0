import MlxTrainPerf.Lib.JsonText
import MlxTrainPerf.Lib.Rounding
/-!
# Doubles

What `roundDouble` does to order and size. `nearest` is the rounding itself, on a grid that
the exponent picks; overflow is left to `roundDouble`. It keeps order, so it is one of the
roundings of `Rounding`, and moves a number by at most one part in `2 ^ 53`.
-/
namespace PyJson

/-! ## The nearest integer -/

section HalfEven
variable {q r : ℚ}

theorem roundHalfEven_intCast (n : ℤ) : roundHalfEven n = n := by
  unfold roundHalfEven
  rw [Int.floor_intCast, sub_self]
  exact if_pos (.inl (by norm_num))

theorem abs_roundHalfEven_sub_le (q : ℚ) : |(roundHalfEven q : ℚ) - q| ≤ 1 / 2 := by
  have hlo := Int.floor_le q
  have hhi := Int.lt_floor_add_one q
  unfold roundHalfEven
  rw [abs_le]
  split
  · next hdown =>
    rcases hdown with h | ⟨h, -⟩ <;> constructor <;> linarith
  · next hup =>
    have hhalf := not_lt.1 (not_or.1 hup).1
    push_cast
    constructor <;> linarith

theorem roundHalfEven_mono (h : q ≤ r) : roundHalfEven q ≤ roundHalfEven r := by
  have hfloor := Int.floor_le_floor h
  rcases hfloor.eq_or_lt with heq | hlt
  · -- Between the same two integers, what rounds up goes on rounding up.
    unfold roundHalfEven
    rw [heq]
    split_ifs with hq hr hr
    · exact le_rfl
    · omega
    · have hdown : ¬(q - ⌊r⌋ < 1 / 2) := fun hlow => hq (.inl hlow)
      rcases hr with hlow | ⟨hmid, heven⟩
      · exact absurd ((sub_le_sub_right h _).trans_lt hlow) hdown
      · exact absurd (.inr ⟨le_antisymm ((sub_le_sub_right h _).trans hmid.le) (not_lt.1 hdown), heven⟩) hq
    · exact le_rfl
  · have hq : roundHalfEven q ≤ ⌊q⌋ + 1 := by
      unfold roundHalfEven
      split <;> omega
    have hr : ⌊r⌋ ≤ roundHalfEven r := by
      unfold roundHalfEven
      split <;> omega
    omega

theorem roundHalfEven_neg (q : ℚ) : roundHalfEven (-q) = -roundHalfEven q := by
  by_cases hint : q = ⌊q⌋
  · rw [hint, ← Int.cast_neg, roundHalfEven_intCast, roundHalfEven_intCast]
  · have hlo : (⌊q⌋ : ℚ) < q := lt_of_le_of_ne (Int.floor_le q) (Ne.symm hint)
    have hhi := Int.lt_floor_add_one q
    have hneg : ⌊-q⌋ = -⌊q⌋ - 1 := by
      rw [Int.floor_eq_iff]
      push_cast
      constructor <;> linarith
    unfold roundHalfEven
    rw [hneg]
    push_cast
    -- The two halves swap, and so does the parity of the midpoint's floor.
    split_ifs with hdown hup hup
    · rcases hdown with h | ⟨h, heven⟩ <;> rcases hup with h' | ⟨h', heven'⟩
      · linarith
      · linarith
      · linarith
      · omega
    · omega
    · omega
    · have h := not_or.1 hdown
      have h' := not_or.1 hup
      have hmid : q - ⌊q⌋ = 1 / 2 := by linarith [not_lt.1 h.1, not_lt.1 h'.1]
      have heven : ⌊q⌋ % 2 ≠ 0 := fun heven => h'.2 ⟨hmid, heven⟩
      exact absurd ⟨by linarith, by omega⟩ h.2

end HalfEven

/-! ## The nearest double -/

/-- The exponent of `q`, as far down as they go. -/
def exponent (q : ℚ) : ℤ := max (Int.log 2 |q|) (-1022)

/-- The distance of the doubles around `q`. -/
def ulp (q : ℚ) : ℚ := 2 ^ (exponent q - 52)

/-- The double nearest to `q`, were there no largest. -/
def nearest (q : ℚ) : ℚ := roundHalfEven (q / ulp q) * ulp q

theorem roundDouble_eq (q : ℚ) :
    roundDouble q = if |nearest q| < 2 ^ 1024 then .finite (nearest q) else .inf (decide (q < 0)) := rfl

section Nearest
variable {q r : ℚ} {k : ℤ}

theorem ulp_pos (q : ℚ) : 0 < ulp q := zpow_pos (by norm_num) _

@[simp] theorem ulp_neg (q : ℚ) : ulp (-q) = ulp q := by rw [ulp, exponent, abs_neg, ulp, exponent]

@[simp] theorem nearest_zero : nearest 0 = 0 := by
  have hround : roundHalfEven 0 = 0 := roundHalfEven_intCast 0
  rw [nearest, zero_div, hround, Int.cast_zero, zero_mul]

@[simp] theorem nearest_neg (q : ℚ) : nearest (-q) = -nearest q := by
  rw [nearest, nearest, ulp_neg, neg_div, roundHalfEven_neg, Int.cast_neg, neg_mul]

/-- A number of the grid is an upper bound of what rounds to it, -/
theorem nearest_le_grid (h : q ≤ k * ulp q) : nearest q ≤ k * ulp q := by
  have hround := roundHalfEven_mono ((div_le_iff₀ (ulp_pos q)).2 h)
  rw [roundHalfEven_intCast] at hround
  exact mul_le_mul_of_nonneg_right (Int.cast_le.2 hround) (ulp_pos q).le

/-- and a lower one. -/
theorem grid_le_nearest (h : k * ulp q ≤ q) : k * ulp q ≤ nearest q := by
  have hround := roundHalfEven_mono ((le_div_iff₀ (ulp_pos q)).2 h)
  rw [roundHalfEven_intCast] at hround
  exact mul_le_mul_of_nonneg_right (Int.cast_le.2 hround) (ulp_pos q).le

theorem nearest_nonneg (h : 0 ≤ q) : 0 ≤ nearest q := by
  have hgrid := @grid_le_nearest q 0 (by rwa [Int.cast_zero, zero_mul])
  rwa [Int.cast_zero, zero_mul] at hgrid

/-- From the last bit of `q` on, the powers of two are on its grid. -/
theorem zpow_eq_grid {e : ℤ} (h : exponent q - 52 ≤ e) :
    (2 : ℚ) ^ e = ((2 ^ (e - exponent q + 52).toNat : ℤ) : ℚ) * ulp q := by
  have hsteps : ((e - exponent q + 52).toNat : ℤ) = e - exponent q + 52 := Int.toNat_of_nonneg (by omega)
  rw [Int.cast_pow, Int.cast_ofNat, ulp, ← zpow_natCast, ← zpow_add₀ two_ne_zero, hsteps]
  congr 1
  ring

theorem abs_lt_zpow (q : ℚ) : |q| < 2 ^ (exponent q + 1) := by
  have hlog : |q| < ((2 : ℕ) : ℚ) ^ (Int.log 2 |q| + 1) := Int.lt_zpow_succ_log_self (by decide) |q|
  refine hlog.trans_le (zpow_le_zpow_right₀ (by norm_num) ?_)
  have := le_max_left (Int.log 2 |q|) (-1022)
  unfold exponent
  omega

/-- Above the subnormals the exponent is that of `q` itself. -/
theorem zpow_le_abs (h : 2 ^ (-1022 : ℤ) ≤ |q|) : 2 ^ exponent q ≤ |q| := by
  have hpos : 0 < |q| := lt_of_lt_of_le (by positivity) h
  unfold exponent
  rcases max_choice (Int.log 2 |q|) (-1022) with hmax | hmax
  · rw [hmax]
    exact Int.zpow_log_le_self (by decide) hpos
  · rw [hmax]
    exact h

/-- Between two exponents lies a power of two, and it is on both grids. -/
theorem nearest_le_of_pos (hq : 0 < q) (h : q ≤ r) : nearest q ≤ nearest r := by
  have habs : |q| ≤ |r| := abs_le_abs_of_nonneg hq.le h
  have hexp : exponent q ≤ exponent r := max_le_max_right _ (Int.log_mono_right (abs_pos.2 hq.ne') habs)
  rcases hexp.eq_or_lt with heq | hlt
  · have hulp : ulp q = ulp r := by rw [ulp, heq, ulp]
    rw [nearest, nearest, hulp]
    exact mul_le_mul_of_nonneg_right (Int.cast_le.2 (roundHalfEven_mono (div_le_div_of_nonneg_right h (ulp_pos r).le)))
      (ulp_pos r).le
  · have hbelow : q ≤ 2 ^ exponent r := by
      have hlow := abs_lt_zpow q
      rw [abs_of_pos hq] at hlow
      exact hlow.le.trans (zpow_le_zpow_right₀ (by norm_num) (by omega))
    have habove : 2 ^ exponent r ≤ r := by
      have hlog : exponent r = Int.log 2 r := by
        unfold exponent at hlt ⊢
        rw [abs_of_pos (hq.trans_le h)] at hlt ⊢
        omega
      rw [hlog]
      exact Int.zpow_log_le_self (by decide) (hq.trans_le h)
    calc nearest q ≤ 2 ^ exponent r := by
          rw [@zpow_eq_grid q _ (by omega)] at hbelow ⊢
          exact nearest_le_grid hbelow
      _ ≤ nearest r := by
          rw [@zpow_eq_grid r _ (by omega)] at habove ⊢
          exact grid_le_nearest habove

theorem nearest_mono : Monotone nearest := by
  intro q r h
  rcases le_or_gt 0 q with hq | hq
  · rcases hq.eq_or_lt with rfl | hq
    · rw [nearest_zero]
      exact nearest_nonneg h
    · exact nearest_le_of_pos hq h
  · rcases le_or_gt 0 r with hr | hr
    · have hneg := nearest_nonneg (neg_nonneg.2 hq.le)
      rw [nearest_neg] at hneg
      exact (neg_nonneg.1 hneg).trans (nearest_nonneg hr)
    · have hswap := nearest_le_of_pos (neg_pos.2 hr) (neg_le_neg h)
      rwa [nearest_neg, nearest_neg, neg_le_neg_iff] at hswap

/-- Down to the least double, what is above a power of two stays above it. -/
theorem zpow_le_nearest {e : ℤ} (he : -1074 ≤ e) (h : 2 ^ e ≤ q) : 2 ^ e ≤ nearest q := by
  refine le_trans ?_ (nearest_mono h)
  have hlog : Int.log 2 |(2 : ℚ) ^ e| = e := by
    rw [abs_of_pos (by positivity)]
    exact_mod_cast Int.log_zpow (R := ℚ) (b := 2) (by decide) e
  have hgrid := @zpow_eq_grid (2 ^ e) e (by rw [exponent, hlog]; omega)
  have hself := @grid_le_nearest (2 ^ e) _ hgrid.ge
  rwa [← hgrid] at hself

theorem nearest_pos (h : 2 ^ (-1074 : ℤ) ≤ q) : 0 < nearest q :=
  lt_of_lt_of_le (by positivity) (zpow_le_nearest le_rfl h)

/-- Above the subnormals, one part in `2 ^ 53`. -/
theorem abs_nearest_sub_le (h : 2 ^ (-1022 : ℤ) ≤ |q|) : |nearest q - q| ≤ |q| / 2 ^ 53 := by
  have hround := mul_le_mul_of_nonneg_right (abs_roundHalfEven_sub_le (q / ulp q)) (ulp_pos q).le
  have hscale : |(roundHalfEven (q / ulp q) : ℚ) - q / ulp q| * ulp q = |nearest q - q| := by
    rw [← abs_of_pos (ulp_pos q), ← abs_mul, abs_of_pos (ulp_pos q), sub_mul, div_mul_cancel₀ q (ulp_pos q).ne', nearest]
  have hulp : ulp q * 2 ^ 52 = 2 ^ exponent q := by
    rw [ulp, ← zpow_natCast, ← zpow_add₀ two_ne_zero]
    congr 1
    norm_num
  have hsize := zpow_le_abs h
  rw [hscale] at hround
  linarith

/-- The same from both sides, a hundredth being far above the subnormals. -/
theorem nearest_bounds (h : 1 / 100 ≤ q) : q - q / 2 ^ 53 ≤ nearest q ∧ nearest q ≤ q + q / 2 ^ 53 := by
  have hpos : 0 < q := by linarith
  have hpower : (2 : ℚ) ^ (-1022 : ℤ) ≤ 2 ^ (-7 : ℤ) := zpow_le_zpow_right₀ (by norm_num) (by norm_num)
  have hnormal : 2 ^ (-1022 : ℤ) ≤ |q| := by
    rw [abs_of_pos hpos]
    exact hpower.trans (by norm_num; linarith)
  have herror := abs_nearest_sub_le hnormal
  rw [abs_of_pos hpos, abs_le] at herror
  constructor <;> linarith

/-- The doubles round in order, and their overflow is above all of them. -/
def double : Rounding := ⟨nearest, nearest_mono, nearest_zero⟩

end Nearest

end PyJson
