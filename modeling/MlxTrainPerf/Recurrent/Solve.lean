import MlxTrainPerf.Recurrent.Ops
/-!
# The triangular solve is exact

Each doubling pass doubles the terms of the geometric sum, and `bit_length`
passes reach as many as there are rows. The blocked solve is forward
substitution by sub-blocks, whatever their size.
-/
open Finset StrictLower

namespace MlxTrainPerf.Recurrent

section Doubling
variable {n m steps : ℕ} {aii rhs : Mat}

/-- The pass of `doubling`. -/
def pass (n steps : ℕ) (xp : Mat × Mat) (s : ℕ) : Mat × Mat :=
  (fun i c => xp.1 i c + mul n xp.2 xp.1 i c, if s ≠ steps - 1 then mul n xp.2 xp.2 else xp.2)

/-- After `m` passes `x` holds `2 ^ m` terms, and `P`, while it is still needed,
the power the next pass takes. -/
theorem foldl_pass (hm : m ≤ steps) :
    (∀ c, (fun i => ((List.range m).foldl (pass n steps) (rhs, aii)).1 i c) =
        (∑ k ∈ range (2 ^ m), act n aii ^ k) fun i => rhs i c) ∧
      (m < steps → act n ((List.range m).foldl (pass n steps) (rhs, aii)).2 = act n aii ^ 2 ^ m) := by
  induction m with
  | zero =>
    refine ⟨fun c => ?_, fun _ => ?_⟩
    · simp
    · simp
  | succ m ih =>
    obtain ⟨hx, hp⟩ := ih (Nat.le_of_succ_le hm)
    have hp := hp hm
    have hdouble : 2 ^ (m + 1) = 2 ^ m + 2 ^ m := by
      rw [pow_succ, mul_two]
    rw [List.range_succ, List.foldl_append, List.foldl_cons, List.foldl_nil, hdouble]
    refine ⟨fun c => ?_, fun hlt => ?_⟩
    · rw [← geom_sum_double, ← hp, ← hx c]
      rfl
    · dsimp only [pass]
      rw [if_pos (by omega), act_mul, hp, pow_add]

theorem le_two_pow_steps (n : ℕ) : n ≤ 2 ^ Nat.size (n - 1) := by
  have := Nat.lt_size_self (n - 1)
  omega

/-- `bit_length` passes leave the geometric sum of at least `n` terms. -/
theorem doubling_eq (c : ℕ) : (fun i => doubling aii rhs n i c) =
    (∑ k ∈ range (2 ^ Nat.size (n - 1)), act n aii ^ k) fun i => rhs i c := by
  unfold doubling
  split
  · next hle =>
    -- No pass: the sum is its first term.
    have hsteps : 2 ^ Nat.size (n - 1) = 1 := by
      rw [Nat.sub_eq_zero_of_le hle, Nat.size_zero, pow_zero]
    rw [hsteps, sum_range_one, pow_zero, Module.End.one_apply]
  · exact (@foldl_pass n _ _ aii rhs (le_refl (Nat.size (n - 1)))).1 c

theorem doubling_solves (ha : IsStrictLower n aii) (c : ℕ) :
    Solves n aii (fun i => rhs i c) fun i => doubling aii rhs n i c := by
  rw [doubling_eq]
  exact solves_geom_sum ha (le_two_pow_steps n)

end Doubling

section Blocks
variable {C sb i : ℕ} {A b x prev : Mat}

/-- The rows of sub-block `i`, the last one ragged. -/
def blockRows (C sb i : ℕ) : ℕ := min ((i + 1) * sb) C - i * sb

/-- `A[..., lo:hi, lo:hi]`. -/
def diagBlock (sb : ℕ) (A : Mat) (i : ℕ) : Mat := fun r s => A (i * sb + r) (i * sb + s)

/-- The right-hand side of sub-block `i`: every block to its left, times the rows
that block reads. -/
def blockRhs (sb : ℕ) (A b x : Mat) (i : ℕ) : Mat := fun r c =>
  b (i * sb + r) c + ∑ k ∈ range i, ∑ s ∈ range sb, A (i * sb + r) (k * sb + s) * x (k * sb + s) c

theorem diagBlock_isStrictLower (hA : IsStrictLower C A) : IsStrictLower (blockRows C sb i) (diagBlock sb A i) := by
  intro r hr s hs hle
  unfold blockRows at hr hs
  exact hA (i * sb + r) (by omega) (i * sb + s) (by omega) (by omega)

/-- The blocks to the left, taken together. -/
theorem blockRhs_eq (r c : ℕ) :
    blockRhs sb A b x i r c = b (i * sb + r) c + ∑ j ∈ range (i * sb), A (i * sb + r) j * x j c := by
  rw [blockRhs, sum_range_blocks fun j => A (i * sb + r) j * x j c]

/-- Only the rows before the sub-block are read. -/
theorem blockRhs_congr (h : ∀ r < i * sb, ∀ c, prev r c = x r c) : blockRhs sb A b prev i = blockRhs sb A b x i := by
  funext r c
  rw [blockRhs_eq, blockRhs_eq]
  refine congrArg (b (i * sb + r) c + ·) (sum_congr rfl fun j hj => ?_)
  rw [h j (mem_range.1 hj) c]

theorem solveBlock_before {r : ℕ} (hr : r < i * sb) (c : ℕ) : solveBlock C A b sb prev i r c = prev r c := if_pos hr

/-- A sub-block's rows are the doubling product of what is left of them. -/
theorem solveBlock_rows (r c : ℕ) : solveBlock C A b sb prev i (i * sb + r) c =
    doubling (diagBlock sb A i) (blockRhs sb A b prev i) (blockRows C sb i) r c := by
  have hge : ¬i * sb + r < i * sb := by omega
  have hrhs : (fun r c => if 0 < i then b (i * sb + r) c + ∑ j ∈ range (i * sb), A (i * sb + r) j * prev j c
      else b (i * sb + r) c) = blockRhs sb A b prev i := by
    funext r c
    rw [blockRhs_eq]
    split
    · rfl
    · next hzero => rw [Nat.eq_zero_of_not_pos hzero, Nat.zero_mul, sum_range_zero, add_zero]
  refine (if_neg hge).trans ?_
  rw [hrhs, Nat.add_sub_cancel_left]
  rfl

/-- A sub-block goes on where the rows before it end. -/
theorem solveBlock_solves (hA : IsStrictLower C A) {c : ℕ}
    (hprev : Solves (i * sb) A (fun r => b r c) fun r => prev r c) :
    Solves (min ((i + 1) * sb) C) A (fun r => b r c) fun r => solveBlock C A b sb prev i r c := by
  intro r hr
  dsimp only
  rcases Nat.lt_or_ge r (i * sb) with hbefore | hin
  · rw [solveBlock_before hbefore]
    refine (hprev r hbefore).trans (congrArg (b r c + ·) (sum_congr rfl fun j hj => ?_))
    rw [solveBlock_before ((mem_range.1 hj).trans hbefore)]
  · obtain ⟨r, rfl⟩ := Nat.exists_eq_add_of_le hin
    have hrow : r < blockRows C sb i := by
      unfold blockRows
      omega
    have hsolve := @doubling_solves _ _ (blockRhs sb A b prev i) (diagBlock_isStrictLower hA) c r hrow
    dsimp only at hsolve
    rw [solveBlock_rows, hsolve, blockRhs_eq, sum_range_add, add_assoc]
    refine congrArg (b (i * sb + r) c + ·) (congrArg₂ (· + ·) (sum_congr rfl fun j hj => ?_) (sum_congr rfl fun j _ => ?_))
    · rw [solveBlock_before (mem_range.1 hj)]
    · rw [solveBlock_rows]
      rfl

theorem subBlock_lt (hsb : 0 < sb) (hi : i < (C + sb - 1) / sb) : i * sb < C := by
  have := (Nat.le_div_iff_mul_le hsb).1 (Nat.succ_le_of_lt hi)
  rw [Nat.succ_mul] at this
  omega

/-- The solve is forward substitution, column by column. -/
theorem solveStrictLower_solves (hA : IsStrictLower C A) (hsb : 0 < sb) (c : ℕ) :
    Solves C A (fun i => b i c) fun i => solveStrictLower C A b sb i c := by
  unfold solveStrictLower
  split
  · exact doubling_solves hA c
  · -- After `m` sub-blocks their rows are solved.
    have hblocks : ∀ m ≤ (C + sb - 1) / sb, Solves (min (m * sb) C) A (fun i => b i c)
        fun i => (List.range m).foldl (solveBlock C A b sb) (fun _ _ => 0) i c := by
      intro m
      induction m with
      | zero =>
        intro _ i hi
        rw [Nat.zero_mul, Nat.zero_min] at hi
        cases hi
      | succ m ih =>
        intro hm
        have hlt : m * sb < C := subBlock_lt hsb hm
        have hprev := ih (Nat.le_of_succ_le hm)
        rw [min_eq_left hlt.le] at hprev
        rw [List.range_succ, List.foldl_append, List.foldl_cons, List.foldl_nil]
        exact solveBlock_solves hA hprev
    have hlast := hblocks _ (le_refl _)
    have hcover : C ≤ (C + sb - 1) / sb * sb := by
      have := Nat.lt_div_mul_add hsb (a := C + sb - 1)
      omega
    rwa [min_eq_right hcover] at hlast

end Blocks

/-! ## The sub-blocks of a solve -/

section Substitution
variable {C sb i m : ℕ} {A b x prev : Mat}

/-- Sub-block `i` of `x` is a full Neumann series: of the `2 ^ steps` terms of the
doubling product, the next power is already zero. -/
structure BlockSolved (C sb : ℕ) (A b x : Mat) (i : ℕ) : Prop where
  vanishes : ∀ v, ∀ r < blockRows C sb i,
    (act (blockRows C sb i) (diagBlock sb A i) ^ 2 ^ Nat.size (blockRows C sb i - 1)) v r = 0
  rows : ∀ r < blockRows C sb i, ∀ c, x (i * sb + r) c =
    (∑ k ∈ range (2 ^ Nat.size (blockRows C sb i - 1)), act (blockRows C sb i) (diagBlock sb A i) ^ k)
      (fun s => blockRhs sb A b x i s c) r

/-- Later sub-blocks leave the rows of the first `m` alone. -/
theorem foldl_solveBlock_before (k : ℕ) : ∀ r < m * sb, ∀ c,
    (List.range (m + k)).foldl (solveBlock C A b sb) (fun _ _ => 0) r c =
      (List.range m).foldl (solveBlock C A b sb) (fun _ _ => 0) r c := by
  induction k with
  | zero => exact fun _ _ _ => rfl
  | succ k ih =>
    intro r hr c
    have hlt : r < (m + k) * sb := hr.trans_le (Nat.mul_le_mul_right sb (Nat.le_add_right m k))
    rw [← Nat.add_assoc, List.range_succ, List.foldl_append, List.foldl_cons, List.foldl_nil, solveBlock_before hlt]
    exact ih r hr c

/-- Each sub-block reads each block to its left once, in the rows the solve returns. -/
theorem solveStrictLower_rows (hC : 0 < C) (hsb : 0 < sb) (hi : i < (C + sb - 1) / sb) {r : ℕ}
    (hr : r < blockRows C sb i) (c : ℕ) : solveStrictLower C A b sb (i * sb + r) c =
      doubling (diagBlock sb A i) (blockRhs sb A b (solveStrictLower C A b sb) i) (blockRows C sb i) r c := by
  rcases Nat.lt_or_ge sb C with hlt | hge
  · have hsolve : solveStrictLower C A b sb =
        (List.range ((C + sb - 1) / sb)).foldl (solveBlock C A b sb) fun _ _ => 0 := if_neg (not_le.2 hlt)
    obtain ⟨k, hk⟩ := Nat.exists_eq_add_of_lt hi
    have hbefore : ∀ r < i * sb, ∀ c, (List.range i).foldl (solveBlock C A b sb) (fun _ _ => 0) r c =
        solveStrictLower C A b sb r c := by
      intro r hr c
      rw [hsolve, hk, Nat.add_assoc, foldl_solveBlock_before (k + 1) r hr c]
    have hrow : i * sb + r < (i + 1) * sb := by
      unfold blockRows at hr
      omega
    rw [← blockRhs_congr hbefore, ← solveBlock_rows, hsolve, hk, Nat.add_right_comm,
      foldl_solveBlock_before k _ hrow c, List.range_succ, List.foldl_append, List.foldl_cons, List.foldl_nil]
  · -- The first sub-block is the whole matrix.
    have hone : (C + sb - 1) / sb = 1 := Nat.div_eq_of_lt_le (by omega) (by omega)
    obtain rfl : i = 0 := by omega
    have hsolve : solveStrictLower C A b sb = doubling A b C := if_pos hge
    have hrows : blockRows C sb 0 = C := by
      unfold blockRows
      omega
    have hdiag : diagBlock sb A 0 = A := by
      funext r s
      rw [diagBlock, Nat.zero_mul, Nat.zero_add, Nat.zero_add]
    have hrhs : blockRhs sb A b (solveStrictLower C A b sb) 0 = b := by
      funext r c
      rw [blockRhs, range_zero, sum_empty, add_zero, Nat.zero_mul, Nat.zero_add]
    rw [hrhs, hdiag, hrows, hsolve, Nat.zero_mul, Nat.zero_add]

theorem solveStrictLower_block (hC : 0 < C) (hsb : 0 < sb) (hA : IsStrictLower C A) (hi : i < (C + sb - 1) / sb) :
    BlockSolved C sb A b (solveStrictLower C A b sb) i where
  vanishes v := (diagBlock_isStrictLower hA).nilpotent (le_two_pow_steps _) v
  rows r hr c := by
    rw [solveStrictLower_rows hC hsb hi hr]
    exact congrFun (doubling_eq c) r

/-- The triangular solve returns the one solution of `(I - A) x = b`, sub-block by
sub-block. -/
theorem solve_strict_lower_unique (C sb : ℕ) (A b : Mat) (hC : 0 < C) (hsb : 0 < sb) (hA : IsStrictLower C A) :
    (∀ x : Mat, (∀ i < C, ∀ c, x i c - ∑ j ∈ range C, A i j * x j c = b i c) ↔
      ∀ i < C, ∀ c, x i c = solveStrictLower C A b sb i c) ∧
    ∀ i < (C + sb - 1) / sb, BlockSolved C sb A b (solveStrictLower C A b sb) i := by
  refine ⟨fun x => ⟨fun hx i hi c => ?_, fun hx i hi c => ?_⟩, fun i hi => solveStrictLower_block hC hsb hA hi⟩
  · have hsolves : Solves C A (fun i => b i c) fun i => x i c := hA.solves_iff.2 fun i hi => hx i hi c
    exact hsolves.unique (solveStrictLower_solves hA hsb c) i hi
  · rw [hx i hi c, sum_congr rfl fun j hj => congrArg (A i j * ·) (hx j (mem_range.1 hj) c)]
    exact hA.solves_iff.1 (solveStrictLower_solves hA hsb c) i hi

/-- Five rows in sub-blocks of two, the last of one row: each row the sum of those before it, and one. -/
theorem solve_strict_lower_unique_ragged :
    (∀ i < 5, ∀ c, (2 : ℝ) ^ i =
      solveStrictLower 5 (fun i j => if j < i then 1 else 0) (fun _ _ => 1) 2 i c) ∧
    ∀ i < 3, BlockSolved 5 2 (fun i j => if j < i then 1 else 0) (fun _ _ => 1)
      (solveStrictLower 5 (fun i j => if j < i then 1 else 0) (fun _ _ => 1) 2) i := by
  have hlower : IsStrictLower 5 (fun i j => if j < i then (1 : ℝ) else 0) := fun _ _ _ _ hle => if_neg (not_lt.2 hle)
  have hsolve := solve_strict_lower_unique 5 2 _ (fun _ _ => 1) (by decide) (by decide) hlower
  refine ⟨(hsolve.1 fun i _ => 2 ^ i).1 fun i hi _ => ?_, hsolve.2⟩
  interval_cases i <;> norm_num [sum_range_succ]

end Substitution

end MlxTrainPerf.Recurrent
