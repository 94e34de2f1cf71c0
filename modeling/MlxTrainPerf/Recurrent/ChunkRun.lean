import MlxTrainPerf.Lib.DeltaRule
import MlxTrainPerf.Recurrent.Solve
/-!
# A chunk is a stretch of steps

With gates that the clamp leaves alone, `v_new` holds the corrections of the
delta rule: both solve one triangular system. So the chunk's outputs and its last
state are those of its steps.
-/
open Finset StrictLower

namespace MlxTrainPerf.Recurrent

namespace Chunk

section Columns
variable {x : Chunk} {i j c : ℕ}

/-- The clamp leaves every gate alone. -/
def GatesOk (x : Chunk) : Prop := ∀ t < x.C, gateFloor ≤ x.g t

/-- The steps of the chunk, in one column of the state. -/
noncomputable def column (x : Chunk) (c t : ℕ) : ℕ → ℝ :=
  DeltaRule.run x.dk x.k (fun i => x.v i c) x.g x.beta (fun d => x.state d c) t

theorem GatesOk.pos (hg : x.GatesOk) : ∀ t < x.C, 0 < x.g t := fun t ht => gateFloor_pos.trans_le (hg t ht)

theorem gCumlog_eq (hg : x.GatesOk) (hi : i < x.C) : x.gCumlog i = DeltaRule.logDecay x.g (i + 1) := by
  refine sum_congr rfl fun s hs => ?_
  have hlt : s < x.C := (Nat.lt_succ_iff.1 (mem_range.1 hs)).trans_lt hi
  rw [max_eq_left (hg s hlt)]

theorem gLast_eq (hg : x.GatesOk) (hC : 0 < x.C) : x.gLast = DeltaRule.logDecay x.g x.C := by
  unfold gLast
  rw [gCumlog_eq hg (Nat.sub_lt hC one_pos), Nat.sub_add_cancel (show 1 ≤ x.C from hC)]

theorem lMask_of_le (h : j ≤ i) : x.lMask i j = Real.exp (x.gCumlog i - x.gCumlog j) := by
  unfold lMask trilOnes
  rw [if_pos h, mul_one, mul_one]

theorem lMask_of_lt (h : i < j) : x.lMask i j = 0 := by
  unfold lMask trilOnes
  rw [if_neg (not_le.2 h), mul_zero]

/-- `A` is the system of the corrections below the diagonal, -/
theorem matA_eq (hg : x.GatesOk) (hi : i < x.C) (h : j < i) : x.matA i j = DeltaRule.system x.dk x.k x.g x.beta i j := by
  unfold matA strictLower DeltaRule.system kkT
  rw [lMask_of_le h.le, if_pos h, mul_one, gCumlog_eq hg hi, gCumlog_eq hg (h.trans hi)]

/-- and zero elsewhere. -/
theorem matA_strictLower (x : Chunk) (n : ℕ) : IsStrictLower n x.matA := by
  intro i _ j _ hle
  unfold matA strictLower
  rw [if_neg (not_lt.2 hle), mul_zero]

/-- The solved columns, put together with the state, solve for the corrections. -/
theorem vNew_solves (hg : x.GatesOk) (hc : c < x.dv) :
    Solves x.C (DeltaRule.system x.dk x.k x.g x.beta)
      (fun i => x.v i c * x.beta i -
        ∑ d ∈ range x.dk, x.k i d * x.beta i * Real.exp (DeltaRule.logDecay x.g (i + 1)) * x.state d c)
      fun i => x.vNew i c := by
  -- One solve serves the columns of `v` and, past them, those of the decayed keys.
  have hcol : ∀ c, Solves x.C x.matA (fun i => x.rhs i c) fun i => x.sol i c :=
    fun c => solveStrictLower_solves (matA_strictLower x x.C) (by decide) c
  have hall := @Solves.sub_sum _ _ x.C x.matA _ _ _ (range x.dk) (fun d => x.state d c) _ _ (hcol c)
    fun d _ => hcol (x.dv + d)
  intro i hi
  have hv : x.rhs i c = x.v i c * x.beta i := if_pos hc
  have hk : ∀ d, x.rhs i (x.dv + d) = x.k i d * x.beta i * Real.exp (DeltaRule.logDecay x.g (i + 1)) := by
    intro d
    unfold rhs decayExp
    rw [if_neg (by omega), Nat.add_sub_cancel_left, gCumlog_eq hg hi]
  refine (hall i hi).trans (congrArg₂ (· + ·) ?_ (sum_congr rfl fun j hj => ?_))
  · dsimp only
    simp only [hv, hk]
  · rw [matA_eq hg hi (mem_range.1 hj)]
    rfl

theorem vNew_eq (hg : x.GatesOk) (hc : c < x.dv) (hi : i < x.C) : x.vNew i c =
    DeltaRule.delta x.dk x.k (fun i => x.v i c) x.g x.beta (fun d => x.state d c) i :=
  (vNew_solves hg hc).unique (DeltaRule.delta_solves hg.pos) i hi

/-- The chunk's outputs are those of its steps, -/
theorem y_eq (hg : x.GatesOk) (hc : c < x.dv) (hi : i < x.C) :
    x.y i c = ∑ d ∈ range x.dk, x.column c (i + 1) d * x.q i d := by
  unfold column
  rw [DeltaRule.readout_eq fun j hj => hg.pos j (by omega)]
  unfold y
  refine congrArg₂ (· + ·) (sum_congr rfl fun d _ => ?_) ?_
  · rw [decayExp, gCumlog_eq hg hi]
    ring
  · -- The mask leaves out the later steps.
    rw [← sum_subset (range_subset_range.2 (show i + 1 ≤ x.C by omega))]
    · refine sum_congr rfl fun j hj => ?_
      have hj := mem_range.1 hj
      rw [lMask_of_le (by omega), vNew_eq hg hc (by omega), gCumlog_eq hg hi, gCumlog_eq hg (show j < x.C by omega), qkT]
      ring
    · intro j _ hj
      rw [lMask_of_lt (by rw [mem_range] at hj; omega), mul_zero, zero_mul]

/-- and its last state is theirs. -/
theorem newState_eq (hg : x.GatesOk) (hC : 0 < x.C) (hc : c < x.dv) (d : ℕ) : x.newState d c = x.column c x.C d := by
  unfold column
  rw [DeltaRule.run_eq hg.pos]
  unfold newState
  rw [gLast_eq hg hC, mul_comm]
  refine congrArg _ (sum_congr rfl fun i hi => ?_)
  have hi := mem_range.1 hi
  rw [decayToEnd, gLast_eq hg hC, gCumlog_eq hg hi, vNew_eq hg hc hi]
  ring

end Columns
end Chunk

end MlxTrainPerf.Recurrent
