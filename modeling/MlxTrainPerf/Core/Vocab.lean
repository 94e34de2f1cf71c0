import MlxTrainPerf.Lib.OnlineSoftmax
import MlxTrainPerf.Lib.PyList
import MlxTrainPerf.Attention.Segments
/-!
# The vocabulary loop

What every linear cross-entropy of `core/` walks: the columns of a head, in
tiles. `vocabTiles` is that loop's `range(0, v, tile)`; it cuts the columns
exactly when the tile is positive.
-/
open Loops PyList

namespace MlxTrainPerf.Core

/-- A dense head and the rows it is applied to. The entries of a shape are int32. -/
structure DenseArgs where
  n : ℕ
  d : ℕ
  v : ℕ
  hidden : ℕ → ℕ → ℝ
  w : ℕ → ℕ → ℝ
  targets : ℕ → ℤ
  v_int32 : v < 2 ^ 31

/-- The logit of row `i` in column `c`. -/
noncomputable def DenseArgs.logit (x : DenseArgs) (i c : ℕ) : ℝ := ∑ k ∈ Finset.range x.d, x.hidden i k * x.w c k

/-- Every target is a column. -/
def DenseArgs.InRange (x : DenseArgs) : Prop := ∀ i < x.n, 0 ≤ x.targets i ∧ x.targets i < x.v

/-- What a backward reads beside the head: the saved logsumexps and the
cotangent of each row's loss. -/
structure BwdArgs extends DenseArgs where
  lse : ℕ → ℝ
  cotangent : ℕ → ℝ

/-- The coefficient of a column in a row's gradient. -/
noncomputable def BwdArgs.coeff (x : BwdArgs) (i c : ℕ) : ℝ :=
  x.cotangent i * (Real.exp (x.logit i c - x.lse i) - if (c : ℤ) = x.targets i then 1 else 0)

/-- The gradient of the hidden state. -/
noncomputable def BwdArgs.dHidden (x : BwdArgs) (i k : ℕ) : ℝ := ∑ c ∈ Finset.range x.v, x.coeff i c * x.w c k

/-- The gradient of the weight. -/
noncomputable def BwdArgs.dWeight (x : BwdArgs) (c k : ℕ) : ℝ := ∑ i ∈ Finset.range x.n, x.coeff i c * x.hidden i k

/-- `for v0 in range(0, v, tile): v1 = min(v0 + tile, v)`. -/
def vocabTiles (v : ℕ) (tile : ℤ) : Except RangeError (List (ℕ × ℕ)) :=
  (pyRangeStep 0 v tile).map fun starts => starts.map fun v0 => (v0.toNat, (min (v0 + tile) v).toNat)

/-! ## The tiles cut the columns -/

theorem tiles_steps {s lo hi : ℕ} (hs : 0 < s) (h : lo ≤ hi) :
    Tiles lo hi ((steps s lo hi).map fun v0 => (v0, min (v0 + s) hi)) := by
  induction hd : hi - lo using Nat.strong_induction_on generalizing lo with
  | _ k ih =>
    rcases h.lt_or_eq with hlt | rfl
    · rw [steps_eq_cons hs hlt, List.map_cons]
      refine ⟨rfl, by simp; omega, ?_⟩
      rcases Nat.lt_or_ge (lo + s) hi with hin | hpast
      · rw [min_eq_left hin.le]
        exact ih (hi - (lo + s)) (by omega) hin.le rfl
      · rw [min_eq_right hpast, steps_eq_nil hpast]
        exact rfl
    · rw [steps_eq_nil le_rfl]
      exact rfl

theorem vocabTiles_eq {s : ℕ} (v : ℕ) (hs : 0 < s) :
    vocabTiles v s = .ok ((steps s 0 v).map fun v0 => (v0, min (v0 + s) v)) := by
  have hrange := pyRangeStep_nat hs (Nat.zero_le v)
  rw [Nat.cast_zero] at hrange
  unfold vocabTiles
  rw [hrange]
  refine congrArg Except.ok ?_
  dsimp only
  rw [List.map_map]
  refine List.map_congr_left fun v0 _ => ?_
  simp only [Function.comp_apply, Int.toNat_natCast, Prod.mk.injEq, true_and]
  omega

/-- A positive tile cuts the columns. -/
theorem vocabTiles_pos {tile : ℤ} (v : ℕ) (htile : 1 ≤ tile) : ∃ tiles, vocabTiles v tile = .ok tiles ∧ Tiles 0 v tiles := by
  obtain ⟨s, rfl⟩ := Int.eq_ofNat_of_zero_le (show 0 ≤ tile by omega)
  have hs : 0 < s := by omega
  exact ⟨_, vocabTiles_eq v hs, tiles_steps hs (Nat.zero_le v)⟩

/-- A negative tile visits no column. -/
theorem vocabTiles_neg {tile : ℤ} (v : ℕ) (htile : tile < 0) : vocabTiles v tile = .ok [] := by
  unfold vocabTiles
  rw [pyRangeStep_neg htile (by omega)]
  rfl

/-! ## Targets -/

section Targets
variable {x : DenseArgs} {i c : ℕ}

/-- The target of a row, as a column. -/
def DenseArgs.target (x : DenseArgs) (i : ℕ) : ℕ := (x.targets i).toNat

theorem DenseArgs.InRange.target_lt (h : x.InRange) (hi : i < x.n) : x.target i < x.v := by
  have := h i hi
  unfold DenseArgs.target
  omega

/-- A target in range keeps its value as a `uint`. -/
theorem DenseArgs.InRange.toUInt_target (h : x.InRange) (hi : i < x.n) : Attention.toUInt (x.targets i) = x.target i := by
  have hrange := h i hi
  have hv := x.v_int32
  exact Attention.toUInt_of_nonneg ⟨by omega, by omega⟩ hrange.1

/-- Every target fits a 32-bit integer, signed or not. -/
def DenseArgs.WordTargets (x : DenseArgs) : Prop := ∀ i < x.n, -2 ^ 31 ≤ x.targets i ∧ x.targets i < 2 ^ 32

/-- Then the `uint` reading of a target is a column only where the target is. -/
theorem DenseArgs.WordTargets.toUInt_eq_iff (h : x.WordTargets) (hi : i < x.n) (hc : c < x.v) :
    Attention.toUInt (x.targets i) = c ↔ (c : ℤ) = x.targets i := by
  have hword := h i hi
  have hv := x.v_int32
  unfold Attention.toUInt
  omega

end Targets

end MlxTrainPerf.Core
