import MlxTrainPerf.Core.Kernel.Source
/-!
# The fused forward's running logsumexp

`RowHolds`: after any set of columns of a tile, every lane of a row holds the
row's running maximum and sum, and the lane that owns the target's column its
logit. A block adds its columns (`step_holds`), and a tile ends with all of its
own (`run_holds`).
-/
open Loops Simdgroup XReal OnlineSoftmax

namespace MlxTrainPerf.Core.Kernel

/-! ## The logit tiles -/

section Logits
variable {x : DenseArgs} {v0 v1 r0 cc d0 rt ct lane e i j : ℕ}

theorem hFrag_get (hi : i < 8) (hj : j < 8) :
    (hFrag x r0 d0 rt).get i j = real (x.hidden (min (r0 + i + 8 * rt) (x.n - 1)) (d0 + j)) :=
  @Frag.get_eq (hFrag x r0 d0 rt) (fun i j => real (x.hidden (min (r0 + i + 8 * rt) (x.n - 1)) (d0 + j))) i j
    (fun _ _ => by simp only [hFrag, hRow, add_assoc]) hi hj

theorem wFrag_get (hi : i < 8) (hj : j < 8) :
    (wFrag x v0 v1 cc d0 ct).get i j = real (x.w (wCol v0 v1 cc (8 * ct + j)) (d0 + i)) :=
  @Frag.get_eq (wFrag x v0 v1 cc d0 ct) (fun i j => real (x.w (wCol v0 v1 cc (8 * ct + j)) (d0 + i))) i j
    (fun _ _ => by simp only [wFrag, add_assoc]) hi hj

/-- A guarded element. -/
def guarded (d : ℕ) (f : ℕ → ℝ) (c : ℕ) : ℝ := if c < d then f c else 0

theorem ite_real {p : Prop} [Decidable p] {a : ℝ} : (if p then real a else 0 : XReal) = real (if p then a else 0) := by
  split <;> rfl

theorem hTail_get (hi : i < 8) (hj : j < 8) : (hTail x r0 rt).get i j =
    real (guarded x.d (x.hidden (min (r0 + i + 8 * rt) (x.n - 1))) (dFull x + j)) :=
  @Frag.get_eq (hTail x r0 rt)
    (fun i j => real (guarded x.d (x.hidden (min (r0 + i + 8 * rt) (x.n - 1))) (dFull x + j))) i j
    (fun _ _ => by simp only [hTail, hRow, guarded, add_assoc, ite_real]) hi hj

theorem wTail_get (hi : i < 8) (hj : j < 8) : (wTail x v0 v1 cc ct).get i j =
    real (guarded x.d (x.w (wCol v0 v1 cc (8 * ct + j))) (dFull x + i)) :=
  @Frag.get_eq (wTail x v0 v1 cc ct)
    (fun i j => real (guarded x.d (x.w (wCol v0 v1 cc (8 * ct + j))) (dFull x + i))) i j
    (fun _ _ => by simp only [wTail, guarded, add_assoc, ite_real]) hi hj

/-- The whole steps and the guarded tail make up a row. -/
theorem sum_dFull_tail (f g : ℕ → ℝ) :
    ∑ c ∈ Finset.range (dFull x), f c * g c +
        ∑ k ∈ Finset.range 8, guarded x.d f (dFull x + k) * guarded x.d g (dFull x + k) =
      ∑ c ∈ Finset.range x.d, f c * g c := by
  have hfull : ∀ c ∈ Finset.range (dFull x), f c * g c = guarded x.d f c * guarded x.d g c := by
    intro c hc
    have hlt : c < x.d := (Finset.mem_range.1 hc).trans_le (Nat.div_mul_le_self x.d 8)
    simp only [guarded, if_pos hlt]
  have hpast : x.d ≤ dFull x + 8 := by
    unfold dFull
    omega
  -- Past `d` the guard leaves 0, so all eight places of the tail may be added.
  rw [Finset.sum_congr rfl hfull, ← Finset.sum_range_add (fun c => guarded x.d f c * guarded x.d g c) (dFull x) 8,
    ← Finset.sum_subset (Finset.range_subset_range.2 hpast)]
  · refine Finset.sum_congr rfl fun c hc => ?_
    simp only [guarded, if_pos (Finset.mem_range.1 hc)]
  · intro c _ hc
    simp only [guarded, if_neg (fun h => hc (Finset.mem_range.2 h)), zero_mul]

/-- A lane of a row that exists holds the row's logits. -/
theorem logitTile_eq (hrow : r0 + i + 8 * rt < x.n) (hlane : lane < 32) (hi : fm lane = i) (he : e < 2) :
    logitTile x v0 v1 r0 cc rt ct lane e =
      real (x.logit (r0 + i + 8 * rt) (wCol v0 v1 cc (8 * ct + (fn lane + e)))) := by
  have hfm := fm_lt hlane
  obtain ⟨hfn, -⟩ := fn_lt hlane
  -- The row exists, so its clamp does nothing.
  have hclamp : min (r0 + i + 8 * rt) (x.n - 1) = r0 + i + 8 * rt := by omega
  have hfull := foldl_multiplyAccumulate_real (steps 8 0 (dFull x))
    (fun d0 _ k hk => @hFrag_get x r0 d0 rt (fm lane) k hfm hk)
    (fun d0 _ k hk => @wFrag_get x v0 v1 cc d0 ct k (fn lane + e) hk (by omega))
    (show filled 0 lane e = real 0 from rfl)
  rw [hi, hclamp, zero_add, sum_steps_eight (fun c => x.hidden (r0 + i + 8 * rt) c *
    x.w (wCol v0 v1 cc (8 * ct + (fn lane + e))) c) (Dvd.intro_left _ rfl : 8 ∣ dFull x)] at hfull
  unfold logitTile DenseArgs.logit
  split
  · rw [multiplyAccumulate_real (fun k hk => @hTail_get x r0 rt (fm lane) k hfm hk)
      (fun k hk => @wTail_get x v0 v1 cc ct k (fn lane + e) hk (by omega)) hfull, hi, hclamp, sum_dFull_tail]
  · next hnone =>
    have hd : dFull x = x.d := by
      have := Nat.div_mul_le_self x.d 8
      unfold dFull at hnone ⊢
      omega
    rw [hfull, hd]

theorem inRange_eq : inRange v0 v1 cc j = decide (v0 + cc + j < v1) := by
  unfold inRange
  rw [decide_eq_decide]
  omega

/-- A column in range is not clamped. -/
theorem wCol_of_lt (h : v0 + cc + j < v1) : wCol v0 v1 cc j = v0 + cc + j := by
  unfold wCol
  omega

end Logits

/-! ## One row of one tile -/

/-- The tile's columns in the block at `cc`. -/
def blockCols (v0 v1 cc : ℕ) : Finset ℕ := (Finset.Ico (v0 + cc) (v0 + cc + 32)).filter fun c => c < v1

namespace Fwd

section Row
variable {x : DenseArgs} {v0 v1 r0 cc rt ct lane e i row : ℕ} {regs : FwdRegs} {S : Finset ℕ}

theorem mem_blockCols {c : ℕ} : c ∈ blockCols v0 v1 cc ↔ (v0 + cc ≤ c ∧ c < v0 + cc + 32) ∧ c < v1 := by
  unfold blockCols
  rw [Finset.mem_filter, Finset.mem_Ico]

theorem maskedLogit_eq (hrow : r0 + i + 8 * rt < x.n) (hlane : lane < 32) (hi : fm lane = i) (he : e < 2) :
    Epilogue.maskedLogit (logitTile x v0 v1 r0 cc) v0 v1 cc rt ct lane e =
      if v0 + cc + (8 * ct + (fn lane + e)) < v1 then
        real (x.logit (r0 + i + 8 * rt) (v0 + cc + (8 * ct + (fn lane + e)))) else negInf := by
  unfold Epilogue.maskedLogit
  simp only [inRange_eq, decide_eq_true_eq, add_assoc (8 * ct)]
  split
  · next hlt => rw [logitTile_eq hrow hlane hi he, wCol_of_lt hlt]
  · rfl

/-! ## The block's maximum -/

/-- The tile's columns among some of the block's. -/
def someCols (v0 v1 cc : ℕ) (cols : List ℕ) : Finset ℕ :=
  ((cols.map (v0 + cc + ·)).filter fun c => decide (c < v1)).toFinset

theorem someCols_append (a b : List ℕ) : someCols v0 v1 cc (a ++ b) = someCols v0 v1 cc a ∪ someCols v0 v1 cc b := by
  unfold someCols
  rw [List.map_append, List.filter_append, List.toFinset_append]

theorem someCols_range : someCols v0 v1 cc (List.range 32) = blockCols v0 v1 cc := by
  ext c
  simp only [someCols, mem_blockCols, List.mem_toFinset, List.mem_filter, List.mem_map, List.mem_range, decide_eq_true_eq]
  refine and_congr_left fun _ => ⟨?_, ?_⟩
  · rintro ⟨j, hj, rfl⟩
    omega
  · rintro ⟨h1, h2⟩
    exact ⟨c - (v0 + cc), by omega, by omega⟩

theorem laneMax_eq (hrow : r0 + i + 8 * rt < x.n) (hlane : lane < 32) (hi : fm lane = i) :
    Epilogue.laneMax (logitTile x v0 v1 r0 cc) v0 v1 cc rt lane =
      peak (someCols v0 v1 cc (laneCols lane)) (x.logit (r0 + i + 8 * rt)) := by
  -- A masked column is `-inf`, which a maximum passes over.
  let take := fun (m : XReal) c => if decide (c < v1) = true then m.max (real (x.logit (r0 + i + 8 * rt) c)) else m
  have hat : ∀ bm ct e, e < 2 → XReal.max bm (Epilogue.maskedLogit (logitTile x v0 v1 r0 cc) v0 v1 cc rt ct lane e) =
      take bm (v0 + cc + (8 * ct + (fn lane + e))) := by
    intro bm ct e he
    simp only [take, maskedLogit_eq hrow hlane hi he, decide_eq_true_eq]
    split
    · rfl
    · exact max_negInf bm
  have hfold : Epilogue.laneMax (logitTile x v0 v1 r0 cc) v0 v1 cc rt lane =
      ((laneCols lane).map (v0 + cc + ·)).foldl take negInf := by
    unfold Epilogue.laneMax laneCols
    rw [List.map_flatMap, List.foldl_flatMap]
    apply List.foldl_ext _ _ _
    intro bm ct _
    rw [hat bm ct 0 (by decide), hat _ ct 1 (by decide)]
    rfl
  rw [hfold, ← @peak_empty _ (x.logit (r0 + i + 8 * rt)), foldl_max_peak, Finset.empty_union]
  rfl

/-- Every lane of the row gets the maximum over the block. -/
theorem blockMax_eq (hrow : r0 + i + 8 * rt < x.n) (hlane : lane < 32) (hi : fm lane = i) :
    Epilogue.blockMax (logitTile x v0 v1 r0 cc) v0 v1 cc rt lane = peak (blockCols v0 v1 cc) (x.logit (r0 + i + 8 * rt)) := by
  rw [← someCols_range]
  -- The shuffles join the lanes' columns in some order, and the maximum is the same in any.
  refine @reduceRow_eq lane XReal.max _ (fun cols => peak (someCols v0 v1 cc cols) (x.logit (r0 + i + 8 * rt))) ?_ ?_ hlane
    fun lane' hmem => ?_
  · intro a b
    rw [peak_union, someCols_append]
  · intro a b hperm
    have hsame : someCols v0 v1 cc a = someCols v0 v1 cc b := List.toFinset_eq_of_perm _ _ ((hperm.map _).filter _)
    rw [hsame]
  · obtain ⟨hlane', hfm⟩ := fm_shuffleLanes hlane lane' hmem
    exact laneMax_eq hrow hlane' (hfm.trans hi)

/-! ## The block's sum -/

/-- The exponential of a column of the block, shifted by the block's maximum. -/
noncomputable def blockExp (x : DenseArgs) (v0 v1 cc row c : ℕ) : ℝ :=
  if c < v1 then Real.exp (x.logit row c - shift (blockCols v0 v1 cc) (x.logit row)) else 0

theorem sum_blockExp : ∑ j ∈ Finset.range 32, blockExp x v0 v1 cc row (v0 + cc + j) =
    total (blockCols v0 v1 cc) (x.logit row) fun _ => 1 := by
  have hshift := @Finset.sum_Ico_eq_sum_range ℝ _ (blockExp x v0 v1 cc row) (v0 + cc) (v0 + cc + 32)
  rw [Nat.add_sub_cancel_left] at hshift
  rw [← hshift]
  simp only [total, blockCols, blockExp, mul_one, Finset.sum_filter]

theorem blockCols_nonempty (hcc : v0 + cc < v1) : (blockCols v0 v1 cc).Nonempty :=
  ⟨v0 + cc, mem_blockCols.2 ⟨⟨le_rfl, by omega⟩, hcc⟩⟩

/-- An exponential of the block's sum; a masked one is 0. -/
theorem exp_masked (hcc : v0 + cc < v1) (hrow : r0 + i + 8 * rt < x.n) (hlane : lane < 32) (hi : fm lane = i) (he : e < 2) :
    (Epilogue.maskedLogit (logitTile x v0 v1 r0 cc) v0 v1 cc rt ct lane e -
        Epilogue.blockMax (logitTile x v0 v1 r0 cc) v0 v1 cc rt lane).exp =
      real (blockExp x v0 v1 cc (r0 + i + 8 * rt) (v0 + cc + (8 * ct + (fn lane + e)))) := by
  rw [maskedLogit_eq hrow hlane hi he, blockMax_eq hrow hlane hi, peak_of_nonempty (blockCols_nonempty hcc)]
  unfold blockExp
  split
  · rw [real_sub_real, exp_real]
  · rw [negInf_sub_real, exp_negInf]

theorem laneSum_eq (hcc : v0 + cc < v1) (hrow : r0 + i + 8 * rt < x.n) (hlane : lane < 32) (hi : fm lane = i) :
    Epilogue.laneSum (logitTile x v0 v1 r0 cc) v0 v1 cc rt lane =
      ((laneCols lane).map fun j => real (blockExp x v0 v1 cc (r0 + i + 8 * rt) (v0 + cc + j))).sum := by
  have hexp := fun ct e he => @exp_masked x v0 v1 r0 cc rt ct lane e i hcc hrow hlane hi he
  unfold Epilogue.laneSum laneCols
  simp only [hexp _ 0 (by decide), hexp _ 1 (by decide), List.map_flatMap, List.map_cons, List.map_nil, Nat.add_zero]
  simp only [List.range_succ, List.range_zero, List.nil_append, List.cons_append, List.foldl_cons, List.foldl_nil,
    List.flatMap_cons, List.flatMap_nil, List.append_nil, List.sum_cons, List.sum_nil, add_zero, zero_add, add_assoc]

/-- Every lane of the row gets the block's sum. -/
theorem blockSum_eq (hcc : v0 + cc < v1) (hrow : r0 + i + 8 * rt < x.n) (hlane : lane < 32) (hi : fm lane = i) :
    Epilogue.blockSum (logitTile x v0 v1 r0 cc) v0 v1 cc rt lane =
      real (total (blockCols v0 v1 cc) (x.logit (r0 + i + 8 * rt)) fun _ => 1) := by
  let g := fun cols : List ℕ => (cols.map fun j => real (blockExp x v0 v1 cc (r0 + i + 8 * rt) (v0 + cc + j))).sum
  have hreduce : Epilogue.blockSum (logitTile x v0 v1 r0 cc) v0 v1 cc rt lane = g (List.range 32) := by
    refine @reduceRow_eq lane _ _ g ?_ ?_ hlane fun lane' hmem => ?_
    · intro a b
      dsimp only [g]
      rw [List.map_append, List.sum_append]
    · exact fun a b hperm => (hperm.map _).sum_eq
    · obtain ⟨hlane', hfm⟩ := fm_shuffleLanes hlane lane' hmem
      exact laneSum_eq hcc hrow hlane' (hfm.trans hi)
  have hsum : g (List.range 32) =
      ∑ j ∈ Finset.range 32, real (blockExp x v0 v1 cc (r0 + i + 8 * rt) (v0 + cc + j)) := rfl
  rw [hreduce, hsum, sum_real fun _ _ => rfl, sum_blockExp]

/-! ## The target -/

/-- Has the lane met the row's target, once the columns `S` are in? -/
def Hit (x : DenseArgs) (v0 lane row : ℕ) (S : Finset ℕ) : Prop :=
  x.target row ∈ S ∧ (x.target row - v0) % 32 ∈ laneCols lane

instance : Decidable (Hit x v0 lane row S) := inferInstanceAs (Decidable (_ ∧ _))

/-- `tv` and `ht` of a lane, once the columns `S` are in. -/
noncomputable def targetState (x : DenseArgs) (v0 lane row : ℕ) (S : Finset ℕ) : XReal × Bool :=
  if Hit x v0 lane row S then (real (x.logit row (x.target row)), true) else (0, false)

/-- A loop that keeps the value of the column it looks for. -/
theorem foldl_take {f : ℕ → XReal} {p : ℕ → Bool} {t : ℕ} (l : List ℕ) (tv : XReal × Bool) :
    l.foldl (fun tv c => if p c && t == c then (f c, true) else tv) tv =
      if t ∈ l ∧ p t = true then (f t, true) else tv := by
  induction l generalizing tv with
  | nil => simp
  | cons c l ih =>
    rw [List.foldl_cons, ih]
    by_cases htc : t = c
    · subst htc
      by_cases hp : p t = true <;> simp [hp]
    · simp [htc]

theorem laneCols_lt (hlane : lane < 32) : ∀ j ∈ laneCols lane, j < 32 := by
  intro j hj
  have hmem : j ∈ (shuffleLanes lane).flatMap laneCols :=
    List.mem_flatMap.2 ⟨lane, by simp [shuffleLanes], hj⟩
  exact List.mem_range.1 ((perm_shuffleLanes hlane).mem_iff.1 hmem)

/-- The lane's columns of a block hold a column of the tile. -/
theorem mem_laneCols_block {c : ℕ} (hcc : 32 ∣ cc) (hlane : lane < 32) :
    (c ∈ (laneCols lane).map (v0 + cc + ·) ∧ c < v1) ↔ c ∈ blockCols v0 v1 cc ∧ (c - v0) % 32 ∈ laneCols lane := by
  rw [mem_blockCols, List.mem_map]
  constructor
  · rintro ⟨⟨j, hj, rfl⟩, hlt⟩
    have hj32 := laneCols_lt hlane j hj
    have hmod : (v0 + cc + j - v0) % 32 = j := by omega
    exact ⟨⟨⟨by omega, by omega⟩, hlt⟩, by rwa [hmod]⟩
  · rintro ⟨⟨⟨h1, h2⟩, hlt⟩, hmem⟩
    have hmod : (c - v0) % 32 = c - (v0 + cc) := by omega
    rw [hmod] at hmem
    exact ⟨⟨_, hmem, by omega⟩, hlt⟩

theorem hit_union [DecidableEq ℕ] {T : Finset ℕ} :
    Hit x v0 lane row (S ∪ T) ↔ Hit x v0 lane row S ∨ Hit x v0 lane row T := by
  unfold Hit
  rw [Finset.mem_union, or_and_right]

theorem takeTarget_eq (hrange : x.InRange) (hcc : 32 ∣ cc) (hrow : r0 + i + 8 * rt < x.n) (hlane : lane < 32)
    (hi : fm lane = i) :
    Epilogue.takeTarget x (logitTile x v0 v1 r0 cc) v0 v1 r0 cc rt lane (targetState x v0 lane (r0 + i + 8 * rt) S) =
      targetState x v0 lane (r0 + i + 8 * rt) (S ∪ blockCols v0 v1 cc) := by
  let t := x.target (r0 + i + 8 * rt)
  have htarget : targetOf x r0 rt lane = t := by
    unfold targetOf
    rw [hi, if_pos hrow, hrange.toUInt_target hrow]
  let take := fun (tv : XReal × Bool) c =>
    if decide (c < v1) && t == c then (real (x.logit (r0 + i + 8 * rt) c), true) else tv
  have hat : ∀ tv ct e, e < 2 → (if inRange v0 v1 cc (8 * ct + fn lane + e) &&
      targetOf x r0 rt lane == v0 + cc + 8 * ct + fn lane + e then
        (logitTile x v0 v1 r0 cc rt ct lane e, true) else tv) = take tv (v0 + cc + (8 * ct + (fn lane + e))) := by
    intro tv ct e he
    simp only [take, inRange_eq, htarget, add_assoc (8 * ct), add_assoc (v0 + cc)]
    split
    · next htake =>
      have hlt : v0 + cc + (8 * ct + (fn lane + e)) < v1 := of_decide_eq_true (Bool.and_eq_true_iff.1 htake).1
      rw [logitTile_eq hrow hlane hi he, wCol_of_lt hlt]
    · rfl
  -- The lane's two nested loops are one over its columns.
  have hfold : ∀ tv, Epilogue.takeTarget x (logitTile x v0 v1 r0 cc) v0 v1 r0 cc rt lane tv =
      ((laneCols lane).map (v0 + cc + ·)).foldl take tv := by
    intro tv
    unfold Epilogue.takeTarget laneCols
    rw [List.map_flatMap, List.foldl_flatMap]
    apply List.foldl_ext _ _ _
    intro tv ct _
    dsimp only
    rw [hat tv ct 0 (by decide), hat _ ct 1 (by decide)]
    rfl
  have hmem : t ∈ (laneCols lane).map (v0 + cc + ·) ∧ decide (t < v1) = true ↔
      Hit x v0 lane (r0 + i + 8 * rt) (blockCols v0 v1 cc) := by
    rw [decide_eq_true_eq]
    exact mem_laneCols_block hcc hlane
  have htake := if_congr hmem (Eq.refl (real (x.logit (r0 + i + 8 * rt) t), true))
    (Eq.refl (targetState x v0 lane (r0 + i + 8 * rt) S))
  rw [hfold, foldl_take]
  refine htake.trans ?_
  unfold targetState
  by_cases hS : Hit x v0 lane (r0 + i + 8 * rt) S
  · rw [if_pos hS, if_pos (hit_union.2 (Or.inl hS)), ite_self]
  · rw [if_neg hS]
    exact if_congr (hit_union.trans (or_iff_right hS)).symm rfl rfl

/-! ## One block -/

/-- What the lanes of a row hold once the columns `S` are in. -/
structure RowHolds (x : DenseArgs) (v0 rt i row : ℕ) (S : Finset ℕ) (regs : FwdRegs) : Prop where
  m : ∀ lane < 32, fm lane = i → regs.m lane rt = peak S (x.logit row)
  s : ∀ lane < 32, fm lane = i → regs.s lane rt = real (total S (x.logit row) fun _ => 1)
  tv : ∀ lane < 32, fm lane = i → regs.tv lane rt = targetState x v0 lane row S

theorem init_holds (x : DenseArgs) (v0 rt i row : ℕ) : RowHolds x v0 rt i row ∅ Epilogue.init where
  m := fun _ _ _ => rfl
  s := fun _ _ _ => rfl
  tv := fun _ _ _ => (if_neg fun h => absurd h.1 (Finset.notMem_empty _)).symm

/-- A block adds its columns of the tile. -/
theorem step_holds (hrange : x.InRange) (hcc : 32 ∣ cc) (hlt : v0 + cc < v1) (hrow : r0 + i + 8 * rt < x.n)
    (hdisj : Disjoint S (blockCols v0 v1 cc)) (hheld : RowHolds x v0 rt i (r0 + i + 8 * rt) S regs) :
    RowHolds x v0 rt i (r0 + i + 8 * rt) (S ∪ blockCols v0 v1 cc) (step x v0 v1 r0 cc regs) := by
  have hmax : ∀ lane < 32, fm lane = i → Epilogue.nextMax (logitTile x v0 v1 r0 cc) v0 v1 cc rt regs lane =
      peak (S ∪ blockCols v0 v1 cc) (x.logit (r0 + i + 8 * rt)) := by
    intro lane hlane hi
    unfold Epilogue.nextMax
    rw [hheld.m lane hlane hi, blockMax_eq hrow hlane hi, peak_union]
  refine ⟨hmax, ?_, ?_⟩
  · intro lane hlane hi
    dsimp only [step, Epilogue.step]
    rw [hmax lane hlane hi, hheld.m lane hlane hi, hheld.s lane hlane hi, blockSum_eq hlt hrow hlane hi,
      blockMax_eq hrow hlane hi, total_merge hdisj (blockCols_nonempty hlt)]
  · intro lane hlane hi
    dsimp only [step, Epilogue.step]
    rw [hheld.tv lane hlane hi, takeTarget_eq hrange hcc hrow hlane hi]

/-! ## One tile -/

/-- The columns of the tile before the block at `cc`. -/
def doneCols (v0 v1 cc : ℕ) : Finset ℕ := (Finset.Ico v0 (v0 + cc)).filter fun c => c < v1

theorem mem_doneCols {c : ℕ} : c ∈ doneCols v0 v1 cc ↔ (v0 ≤ c ∧ c < v0 + cc) ∧ c < v1 := by
  unfold doneCols
  rw [Finset.mem_filter, Finset.mem_Ico]

theorem doneCols_step : doneCols v0 v1 cc ∪ blockCols v0 v1 cc = doneCols v0 v1 (cc + 32) := by
  ext c
  rw [Finset.mem_union, mem_doneCols, mem_doneCols, mem_blockCols]
  omega

theorem disjoint_doneCols : Disjoint (doneCols v0 v1 cc) (blockCols v0 v1 cc) := by
  rw [Finset.disjoint_left]
  intro c hdone hblock
  rw [mem_doneCols] at hdone
  rw [mem_blockCols] at hblock
  omega

theorem doneCols_zero : doneCols v0 v1 0 = ∅ := by
  ext c
  rw [mem_doneCols]
  simp

theorem doneCols_all (h : v1 - v0 ≤ cc) : doneCols v0 v1 cc = Finset.Ico v0 v1 := by
  ext c
  rw [mem_doneCols, Finset.mem_Ico]
  omega

/-- A tile ends with its own columns. -/
theorem run_holds (hrange : x.InRange) (hrow : r0 + i + 8 * rt < x.n) :
    RowHolds x v0 rt i (r0 + i + 8 * rt) (Finset.Ico v0 v1) (run x v0 v1 r0) := by
  -- At the block at `cc`, the columns before it are in.
  let P := fun cc regs => 32 ∣ cc ∧ RowHolds x v0 rt i (r0 + i + 8 * rt) (doneCols v0 v1 cc) regs
  have hinit : P 0 Epilogue.init := by
    refine ⟨Nat.dvd_zero 32, ?_⟩
    rw [doneCols_zero]
    exact init_holds x v0 rt i (r0 + i + 8 * rt)
  have hstep : ∀ cc regs, cc < v1 - v0 → P cc regs → P (cc + 32) (step x v0 v1 r0 cc regs) := by
    rintro cc regs hlt ⟨hcc, hheld⟩
    have hnext := step_holds hrange hcc (by omega) hrow disjoint_doneCols hheld
    rw [doneCols_step] at hnext
    exact ⟨Dvd.dvd.add hcc (Nat.dvd_refl 32), hnext⟩
  obtain ⟨cc, hdone, -, hheld⟩ := foldl_steps_inv (by decide) hinit hstep
  rw [doneCols_all hdone] at hheld
  exact hheld

end Row
end Fwd

end MlxTrainPerf.Core.Kernel
