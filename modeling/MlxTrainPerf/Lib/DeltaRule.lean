import MlxTrainPerf.Lib.StrictLower
/-!
# The gated delta rule

A state that each step decays by a gate and then corrects towards a value along
a key. Over a stretch of steps with positive gates, the corrections solve a
strictly lower triangular system, and the state is the decayed start plus the
decayed corrections.
-/
open Finset StrictLower

namespace DeltaRule

/-- One step: decay by `g`, then correct towards `v` along `k`. -/
def step (dk : ℕ) (k : ℕ → ℝ) (v g beta : ℝ) (s : ℕ → ℝ) : ℕ → ℝ :=
  fun d => g * s d + beta * (v - ∑ e ∈ range dk, g * s e * k e) * k d

/-- The state after `t` steps. -/
def run (dk : ℕ) (k : ℕ → ℕ → ℝ) (v g beta : ℕ → ℝ) (s : ℕ → ℝ) : ℕ → ℕ → ℝ
  | 0 => s
  | t + 1 => step dk (k t) (v t) (g t) (beta t) (run dk k v g beta s t)

/-- A step with gate 1 that corrects nothing. -/
@[simp] theorem step_neutral (dk : ℕ) (k : ℕ → ℝ) (v : ℝ) (s : ℕ → ℝ) : step dk k v 1 0 s = s := by
  funext d
  simp [step]

/-- A run goes on from where it is. -/
theorem run_add (dk : ℕ) (k : ℕ → ℕ → ℝ) (v g beta : ℕ → ℝ) (s : ℕ → ℝ) (m t : ℕ) :
    run dk k v g beta s (m + t) = run dk (fun i => k (m + i)) (fun i => v (m + i)) (fun i => g (m + i))
      (fun i => beta (m + i)) (run dk k v g beta s m) t := by
  induction t with
  | zero => rfl
  | succ t ih =>
    rw [← Nat.add_assoc, run, ih]
    rfl

noncomputable section

section Stretch
variable (dk : ℕ) (k : ℕ → ℕ → ℝ) (v g beta : ℕ → ℝ) (s : ℕ → ℝ)

/-- The correction of a step. -/
def delta (t : ℕ) : ℝ := beta t * (v t - ∑ e ∈ range dk, g t * run dk k v g beta s t e * k t e)

/-- The log of the decay over the first `t` steps. -/
def logDecay (t : ℕ) : ℝ := ∑ i ∈ range t, Real.log (g i)

/-- The strictly lower matrix of the corrections: what step `j` put in, seen at
step `i`. -/
def system (i j : ℕ) : ℝ :=
  -(beta i * ∑ e ∈ range dk, k i e * k j e) * Real.exp (logDecay g (i + 1) - logDecay g (j + 1))

variable {dk k v g beta s} {t n : ℕ}

theorem run_succ (d : ℕ) :
    run dk k v g beta s (t + 1) d = g t * run dk k v g beta s t d + delta dk k v g beta s t * k t d := rfl

theorem exp_logDecay_succ (hg : 0 < g t) (c : ℝ) :
    Real.exp (logDecay g (t + 1) - c) = g t * Real.exp (logDecay g t - c) := by
  unfold logDecay
  rw [sum_range_succ, add_sub_right_comm, Real.exp_add, Real.exp_log hg, mul_comm]

/-- The state is the decayed start plus the decayed corrections. -/
theorem run_eq (hg : ∀ i < t, 0 < g i) (d : ℕ) :
    run dk k v g beta s t d = Real.exp (logDecay g t) * s d +
      ∑ j ∈ range t, Real.exp (logDecay g t - logDecay g (j + 1)) * (delta dk k v g beta s j * k j d) := by
  induction t with
  | zero =>
    rw [run, logDecay, range_zero, sum_empty, sum_empty, Real.exp_zero, one_mul, add_zero]
  | succ t ih =>
    have hpos := hg t (Nat.lt_succ_self t)
    have hlast := exp_logDecay_succ hpos 0
    rw [sub_zero, sub_zero] at hlast
    rw [run_succ, ih fun i hi => hg i (Nat.lt_succ_of_lt hi), sum_range_succ, sub_self, Real.exp_zero, one_mul, hlast]
    simp only [exp_logDecay_succ hpos, mul_add, mul_sum, mul_assoc, add_assoc]

/-- What a key reads from the state. -/
theorem readout_eq (hg : ∀ i < t, 0 < g i) (q : ℕ → ℝ) :
    ∑ d ∈ range dk, run dk k v g beta s t d * q d = ∑ d ∈ range dk, Real.exp (logDecay g t) * s d * q d +
      ∑ j ∈ range t, Real.exp (logDecay g t - logDecay g (j + 1)) * (∑ d ∈ range dk, q d * k j d) *
        delta dk k v g beta s j := by
  have hterms : ∑ j ∈ range t, Real.exp (logDecay g t - logDecay g (j + 1)) * (∑ d ∈ range dk, q d * k j d) *
      delta dk k v g beta s j = ∑ d ∈ range dk, ∑ j ∈ range t,
        Real.exp (logDecay g t - logDecay g (j + 1)) * (delta dk k v g beta s j * k j d) * q d := by
    rw [sum_comm]
    refine sum_congr rfl fun j _ => ?_
    rw [mul_sum, sum_mul]
    refine sum_congr rfl fun d _ => ?_
    ring
  rw [hterms, ← sum_add_distrib]
  refine sum_congr rfl fun d _ => ?_
  rw [run_eq hg, add_mul, sum_mul]

/-- The corrections solve the system; its right-hand side reads only the start. -/
theorem delta_solves (hg : ∀ i < n, 0 < g i) :
    Solves n (system dk k g beta)
      (fun i => v i * beta i - ∑ d ∈ range dk, k i d * beta i * Real.exp (logDecay g (i + 1)) * s d)
      (delta dk k v g beta s) := by
  intro i hi
  have hgi : ∀ j < i, 0 < g j := fun j hj => hg j (hj.trans hi)
  have hread : ∑ e ∈ range dk, g i * run dk k v g beta s i e * k i e =
      g i * ∑ e ∈ range dk, run dk k v g beta s i e * k i e := by
    rw [mul_sum]
    exact sum_congr rfl fun e _ => mul_assoc _ _ _
  have hlast := exp_logDecay_succ (hg i hi) 0
  rw [sub_zero, sub_zero] at hlast
  unfold delta
  rw [hread, readout_eq hgi, mul_sub, mul_add, mul_add, mul_comm (beta i), sub_add_eq_sub_sub, sub_eq_add_neg]
  refine congrArg₂ (· + ·) (congrArg (v i * beta i - ·) ?_) ?_
  · rw [mul_sum, mul_sum]
    refine sum_congr rfl fun d _ => ?_
    rw [hlast]
    ring
  · rw [mul_sum, mul_sum, ← sum_neg_distrib]
    refine sum_congr rfl fun j _ => ?_
    unfold system
    rw [exp_logDecay_succ (hg i hi)]
    change _ = _ * delta dk k v g beta s j
    ring

end Stretch
end

end DeltaRule
