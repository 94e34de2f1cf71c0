import MlxTrainPerf.Core.Kernel.ForwardRun
import MlxTrainPerf.Core.Kernel.Launch
/-!
# The hidden-state backwards, tile by tile

Both bodies add the same thing to the accumulator they are given: each column of
the tile once, in each row of the block (`AddsTile`). The scalar body adds one
column at a time, the other 32, formed by two chains of matrix products.
-/
open Loops Simdgroup XReal

namespace MlxTrainPerf.Core.Kernel

/-- A backward body adds the tile's columns to the rows of its block, and leaves
the other rows alone. -/
structure AddsTile (x : BwdArgs) (block : ℕ → ℕ → ℕ → Buffer → Buffer → ℕ → Buffer) : Prop where
  frame : ∀ v0 v1 r0 inp out rowTiles row k, row < r0 ∨ r0 + 8 * rowTiles ≤ row →
    block v0 v1 r0 inp out rowTiles (row, k) = out (row, k)
  adds : ∀ v0 v1 r0 inp out rowTiles row k base, v0 < v1 → v1 ≤ x.v → r0 ≤ row → row < r0 + 8 * rowTiles → row < x.n →
    k < x.d → inp (row, k) = real base →
    block v0 v1 r0 inp out rowTiles (row, k) = real (base + ∑ c ∈ Finset.Ico v0 v1, x.coeff row c * x.w c k)

namespace Bwd

/-! ## One column at a time -/

section Scalar
variable {x : BwdArgs} {v0 v1 r0 row c k lane : ℕ} {inp out : Buffer}

theorem part_eq : part x v0 row c lane =
    real (((steps 32 lane x.d).map fun i => x.hidden row i * x.w (v0 + c) i).sum) := by
  have hfold : ∀ (l : List ℕ) (z : ℝ),
      l.foldl (fun part i => part + real (x.hidden row i) * real (x.w (v0 + c) i)) (real z) =
        real (z + (l.map fun i => x.hidden row i * x.w (v0 + c) i).sum) := by
    intro l
    induction l with
    | nil => intro z; simp
    | cons i l ih =>
      intro z
      rw [List.foldl_cons, real_mul_real, real_add_real, ih, List.map_cons, List.sum_cons, add_assoc]
  have hpart := hfold (steps 32 lane x.d) 0
  rwa [zero_add] at hpart

/-- The lanes' partial products sum up to the logit. -/
theorem sum_part : ∑ lane ∈ Finset.range 32, part x v0 row c lane = real (x.logit row (v0 + c)) := by
  rw [sum_real fun lane _ => part_eq, sum_lanes (by decide) fun i => x.hidden row i * x.w (v0 + c) i]
  rfl

theorem coeff_eq (hword : x.WordTargets) (hrow : row < x.n) (hc : v0 + c < x.v) :
    coeff x v0 row c = real (x.coeff row (v0 + c)) := by
  have hhit := hword.toUInt_eq_iff hrow hc
  have hone : (if Attention.toUInt (x.targets row) = v0 + c then real 1 else 0 : XReal) =
      real (if ((v0 + c : ℕ) : ℤ) = x.targets row then 1 else 0) := by
    rw [if_congr hhit rfl rfl]
    exact ite_real
  unfold coeff BwdArgs.coeff
  dsimp only
  rw [sum_part, hone, real_sub_real, exp_real, real_sub_real, real_mul_real, mul_comm (x.cotangent row)]

theorem columnStep_eq (hk : k < x.d) : columnStep x v0 inp out row c (row, k) =
    (if c = 0 then inp (row, k) else out (row, k)) + coeff x v0 row c * real (x.w (v0 + c) k) := by
  -- Lane `k % 32` stores the element, and no lane stores another value there.
  refine storeAll_eq ⟨_, List.mem_flatMap.2 ⟨k % 32, List.mem_range.2 (Nat.mod_lt k (by decide)),
    List.mem_map.2 ⟨k, ?_, rfl⟩⟩, rfl⟩ fun w hw hplace => ?_
  · exact (mem_steps (by decide)).2 ⟨Nat.mod_le k 32, hk, Nat.dvd_sub_mod k⟩
  · obtain ⟨lane, -, hw⟩ := List.mem_flatMap.1 hw
    obtain ⟨i, -, rfl⟩ := List.mem_map.1 hw
    obtain ⟨-, rfl⟩ := Prod.mk.injEq .. ▸ hplace
    rfl

theorem columnStep_frame {row' : ℕ} (hne : row ≠ row') : columnStep x v0 inp out row c (row', k) = out (row', k) := by
  refine storeAll_of_forall_ne fun w hw heq => ?_
  obtain ⟨lane, -, hw⟩ := List.mem_flatMap.1 hw
  obtain ⟨i, -, rfl⟩ := List.mem_map.1 hw
  exact hne (Prod.mk.injEq .. ▸ heq).1

/-- A row's columns, once `m` of them are in. -/
theorem foldl_columnStep (hword : x.WordTargets) (hrow : row < x.n) (hk : k < x.d) {base : ℝ}
    (hinp : inp (row, k) = real base) {m : ℕ} (hm : v0 + m ≤ x.v) (hpos : 0 < m) :
    (List.range m).foldl (fun out c => columnStep x v0 inp out row c) out (row, k) =
      real (base + ∑ c ∈ Finset.range m, x.coeff row (v0 + c) * x.w (v0 + c) k) := by
  induction m with
  | zero => cases hpos
  | succ m ih =>
    rw [List.range_succ, List.foldl_append, List.foldl_cons, List.foldl_nil, columnStep_eq hk,
      coeff_eq hword hrow (by omega), Finset.sum_range_succ, ← add_assoc, real_mul_real]
    -- The first column reads `inp`, the later ones what the one before left.
    rcases Nat.eq_zero_or_pos m with rfl | hm'
    · rw [if_pos rfl, hinp, real_add_real, Finset.sum_range_zero, add_zero base]
    · rw [if_neg hm'.ne', ih (by omega) hm', real_add_real]

theorem scalarRow_eq (hword : x.WordTargets) (hrow : row < x.n) (hk : k < x.d) {base : ℝ}
    (hinp : inp (row, k) = real base) (htile : v0 < v1) (hv : v1 ≤ x.v) :
    scalarRow x v0 v1 inp out row (row, k) = real (base + ∑ c ∈ Finset.Ico v0 v1, x.coeff row c * x.w c k) := by
  unfold scalarRow
  rw [foldl_columnStep hword hrow hk hinp (by omega) (by omega), Finset.sum_Ico_eq_sum_range]

theorem scalarRow_frame {row' : ℕ} (hne : row ≠ row') : scalarRow x v0 v1 inp out row (row', k) = out (row', k) :=
  foldl_frame out fun _ _ _ => columnStep_frame hne

theorem scalarBlock_addsTile (hword : x.WordTargets) : AddsTile x (scalarBlock x) where
  frame := by
    intro v0 v1 r0 inp out rowTiles row k hout
    unfold scalarBlock
    split
    · rfl
    · refine foldl_frame out fun rt hrt out => ?_
      have hrt := List.mem_range.1 hrt
      split
      · rfl
      · exact scalarRow_frame (by omega)
  adds := by
    intro v0 v1 r0 inp out rowTiles row k base htile hv hlo hhi hrow hk hinp
    obtain ⟨rt, rfl⟩ := Nat.exists_eq_add_of_le hlo
    unfold scalarBlock
    rw [if_neg (by omega)]
    refine foldl_owned out (List.mem_range.2 (show rt < 8 * rowTiles by omega)) (fun out => ?_) fun rt' _ hne out => ?_
    · rw [if_neg (by omega)]
      exact scalarRow_eq hword hrow hk hinp htile hv
    · split
      · rfl
      · exact scalarRow_frame (by omega)

end Scalar

/-! ## 32 columns at a time -/

section Mma
variable {x : BwdArgs} {v0 v1 r0 cc rt ct lane e i row col d0d rowTiles : ℕ} {inp out : Buffer} {db : Frag}

/-- The coefficient of a column of the block; past the tile it is 0. -/
noncomputable def blockCoeff (x : BwdArgs) (v1 row c : ℕ) : ℝ := if c < v1 then x.coeff row c else 0

theorem gTile_eq (hword : x.WordTargets) (hv : v1 ≤ x.v) (hrow : r0 + i + 8 * rt < x.n) (hlane : lane < 32)
    (hi : fm lane = i) (he : e < 2) : gTile x v0 v1 r0 cc rt ct lane e =
      real (blockCoeff x v1 (r0 + i + 8 * rt) (v0 + cc + (8 * ct + (fn lane + e)))) := by
  unfold gTile blockCoeff
  simp only [inRange_eq, decide_eq_true_eq, add_assoc (8 * ct)]
  split
  · next hlt =>
    have hcol : v0 + (cc + 8 * ct + fn lane + e) = v0 + cc + (8 * ct + (fn lane + e)) := by omega
    have hhit := hword.toUInt_eq_iff hrow (show v0 + cc + (8 * ct + (fn lane + e)) < x.v by omega)
    have hrows : ∀ f, ofRow x r0 rt f lane = real (f (r0 + i + 8 * rt)) := by
      intro f
      unfold ofRow
      rw [hi, if_pos hrow]
    have htarget : targetOf x.toDenseArgs r0 rt lane = Attention.toUInt (x.targets (r0 + i + 8 * rt)) := by
      unfold targetOf
      rw [hi, if_pos hrow]
    rw [hrows, hrows, htarget, hcol, if_congr hhit rfl rfl, ite_real, logitTile_eq hrow hlane hi he, wCol_of_lt hlt,
      real_sub_real, exp_real, real_sub_real, real_mul_real, mul_comm]
    rfl
  · rfl

/-- GEMM-B adds the block's columns, weighted by an element of `Wb`'s columns. -/
theorem dbTile_eq (hword : x.WordTargets) (hv : v1 ≤ x.v) (hrow : r0 + i + 8 * rt < x.n) (hlane : lane < 32)
    (hi : fm lane = i) {wb : ℕ → Frag} {f : ℕ → ℝ}
    (hwb : ∀ ct, ∀ k < 8, (wb ct).get k (fn lane + e) = real (f (wCol v0 v1 cc (8 * ct + k)))) :
    dbTile x v0 v1 r0 cc rt wb lane e = real (∑ c ∈ blockCols v0 v1 cc, x.coeff (r0 + i + 8 * rt) c * f c) := by
  have hg : ∀ ct ∈ List.range 4, ∀ k < 8, (gTile x v0 v1 r0 cc rt ct).get (fm lane) k =
      real (blockCoeff x v1 (r0 + i + 8 * rt) (v0 + cc + (8 * ct + k))) := by
    intro ct _ k hk
    obtain ⟨hlane', hfm', hfn'⟩ := laneOf_spec (fm_lt hlane) hk
    unfold Frag.get
    rw [gTile_eq hword hv hrow hlane' (hfm'.trans hi) (Nat.mod_lt k (by decide)), hfn']
  -- A column past the tile reads a clamped weight, but its coefficient is 0.
  have hterm : ∀ j, blockCoeff x v1 (r0 + i + 8 * rt) (v0 + cc + j) * f (wCol v0 v1 cc j) =
      if v0 + cc + j < v1 then x.coeff (r0 + i + 8 * rt) (v0 + cc + j) * f (v0 + cc + j) else 0 := by
    intro j
    unfold blockCoeff
    split
    · next hlt => rw [wCol_of_lt hlt]
    · rw [zero_mul]
  have hcols := @Finset.sum_Ico_eq_sum_range ℝ _
    (fun c => if c < v1 then x.coeff (r0 + i + 8 * rt) c * f c else 0) (v0 + cc) (v0 + cc + 32)
  rw [Nat.add_sub_cancel_left] at hcols
  unfold dbTile
  rw [foldl_multiplyAccumulate_real (List.range 4) hg (fun ct _ k hk => hwb ct k hk) (show filled 0 lane e = real 0 from rfl),
    zero_add, sum_range_eight fun j => blockCoeff x v1 (r0 + i + 8 * rt) (v0 + cc + j) * f (wCol v0 v1 cc j)]
  simp only [hterm]
  rw [← hcols, blockCols, Finset.sum_filter]

theorem wbFrag_get {k j : ℕ} (hk : k < 8) (hj : j < 8) : (wbFrag x v0 v1 cc d0d ct).get k j =
    real (x.w (wCol v0 v1 cc (8 * ct + k)) (d0d + j)) :=
  @Frag.get_eq (wbFrag x v0 v1 cc d0d ct) (fun k j => real (x.w (wCol v0 v1 cc (8 * ct + k)) (d0d + j))) k j
    (fun _ _ => by simp only [wbFrag, add_assoc]) hk hj

theorem wbTail_get {k j : ℕ} (hk : k < 8) (hj : j < 8) (hcol : dFull x.toDenseArgs + j < x.d) :
    (wbTail x v0 v1 cc ct).get k j = real (x.w (wCol v0 v1 cc (8 * ct + k)) (dFull x.toDenseArgs + j)) := by
  have hget := @Frag.get_eq (wbTail x v0 v1 cc ct)
    (fun k j => real (guarded x.d (x.w (wCol v0 v1 cc (8 * ct + k))) (dFull x.toDenseArgs + j))) k j
    (fun _ _ => by simp only [wbTail, guarded, add_assoc, ite_real]) hk hj
  rw [hget, guarded, if_pos hcol]

/-- What a block of columns leaves at an element. -/
noncomputable def blockOut (x : BwdArgs) (v0 v1 cc : ℕ) (inp out : Buffer) (row col : ℕ) : XReal :=
  (if cc = 0 then inp (row, col) else out (row, col)) +
    real (∑ c ∈ blockCols v0 v1 cc, x.coeff row c * x.w c col)

theorem mem_sliceStores {w : (ℕ × ℕ) × XReal} : w ∈ sliceStores x v0 v1 r0 inp out cc rt d0d ↔
    ∃ lane < 32, r0 + fm lane + 8 * rt < x.n ∧ ∃ e < 2, w =
      added inp out cc (dbTile x v0 v1 r0 cc rt (wbFrag x v0 v1 cc d0d)) lane e (r0 + fm lane + 8 * rt)
        (d0d + (fn lane + e)) := by
  unfold sliceStores
  simp only [List.mem_flatMap, List.mem_range]
  refine exists_congr fun lane => and_congr_right fun _ => ?_
  split
  · next hlt =>
    rw [and_iff_right hlt, List.mem_cons, List.mem_singleton]
    constructor
    · rintro (rfl | rfl)
      · exact ⟨0, by decide, rfl⟩
      · exact ⟨1, by decide, rfl⟩
    · rintro ⟨e, he, rfl⟩
      rcases Nat.le_one_iff_eq_zero_or_eq_one.1 (Nat.lt_succ_iff.1 he) with rfl | rfl
      · exact Or.inl rfl
      · exact Or.inr rfl
  · next hge => exact ⟨fun hmem => absurd hmem List.not_mem_nil, fun h => absurd h.1 hge⟩

theorem mem_tailStores {w : (ℕ × ℕ) × XReal} : w ∈ tailStores x v0 v1 r0 inp out cc rt ↔
    ∃ lane < 32, r0 + fm lane + 8 * rt < x.n ∧ ∃ e < 2, dFull x.toDenseArgs + (fn lane + e) < x.d ∧ w =
      added inp out cc (dbTile x v0 v1 r0 cc rt (wbTail x v0 v1 cc)) lane e (r0 + fm lane + 8 * rt)
        (dFull x.toDenseArgs + (fn lane + e)) := by
  unfold tailStores
  simp only [List.mem_flatMap, List.mem_range]
  refine exists_congr fun lane => and_congr_right fun _ => ?_
  split
  · next hlt =>
    rw [and_iff_right hlt, List.mem_append]
    have hguard : ∀ {p : Prop} [Decidable p] {a : (ℕ × ℕ) × XReal}, w ∈ (if p then [a] else []) ↔ p ∧ w = a := by
      intro p _ a
      split <;> simp [*]
    rw [hguard, hguard]
    constructor
    · rintro (⟨hlt, rfl⟩ | ⟨hlt, rfl⟩)
      · exact ⟨0, by decide, hlt, rfl⟩
      · exact ⟨1, by decide, hlt, rfl⟩
    · rintro ⟨e, he, hlt, rfl⟩
      rcases Nat.le_one_iff_eq_zero_or_eq_one.1 (Nat.lt_succ_iff.1 he) with rfl | rfl
      · exact Or.inl ⟨hlt, rfl⟩
      · exact Or.inr ⟨hlt, rfl⟩
  · next hge => exact ⟨fun hmem => absurd hmem List.not_mem_nil, fun h => absurd h.1 hge⟩

/-- The stores of a block: each lane's two elements of each slice, past which only
the columns that exist are left. -/
theorem mem_blockStores {w : (ℕ × ℕ) × XReal} : w ∈ blockStores x v0 v1 r0 inp out rowTiles cc ↔
    ∃ rt < rowTiles, ∃ lane < 32, r0 + fm lane + 8 * rt < x.n ∧ ∃ e < 2,
      ((∃ d0d ∈ steps 8 0 (dFull x.toDenseArgs), w =
          added inp out cc (dbTile x v0 v1 r0 cc rt (wbFrag x v0 v1 cc d0d)) lane e (r0 + fm lane + 8 * rt)
            (d0d + (fn lane + e))) ∨
        (dFull x.toDenseArgs + (fn lane + e) < x.d ∧ w =
          added inp out cc (dbTile x v0 v1 r0 cc rt (wbTail x v0 v1 cc)) lane e (r0 + fm lane + 8 * rt)
            (dFull x.toDenseArgs + (fn lane + e)))) := by
  unfold blockStores
  dsimp only
  rw [List.mem_append, List.mem_flatMap]
  constructor
  · rintro (⟨d0d, hd0d, hw⟩ | hw)
    · obtain ⟨rt, hrt, hw⟩ := List.mem_flatMap.1 hw
      obtain ⟨lane, hlane, hrow, e, he, rfl⟩ := mem_sliceStores.1 hw
      exact ⟨rt, List.mem_range.1 hrt, lane, hlane, hrow, e, he, Or.inl ⟨d0d, hd0d, rfl⟩⟩
    · split at hw
      · obtain ⟨rt, hrt, hw⟩ := List.mem_flatMap.1 hw
        obtain ⟨lane, hlane, hrow, e, he, hcol, rfl⟩ := mem_tailStores.1 hw
        exact ⟨rt, List.mem_range.1 hrt, lane, hlane, hrow, e, he, Or.inr ⟨hcol, rfl⟩⟩
      · cases hw
  · rintro ⟨rt, hrt, lane, hlane, hrow, e, he, ⟨d0d, hd0d, rfl⟩ | ⟨hcol, rfl⟩⟩
    · exact Or.inl ⟨d0d, hd0d, List.mem_flatMap.2 ⟨rt, List.mem_range.2 hrt,
        mem_sliceStores.2 ⟨lane, hlane, hrow, e, he, rfl⟩⟩⟩
    · rw [if_pos (by omega)]
      exact Or.inr (List.mem_flatMap.2 ⟨rt, List.mem_range.2 hrt,
        mem_tailStores.2 ⟨lane, hlane, hrow, e, he, hcol, rfl⟩⟩)

/-- Every store of a block is at a row of it. -/
theorem blockStores_row {w : (ℕ × ℕ) × XReal} (hw : w ∈ blockStores x v0 v1 r0 inp out rowTiles cc) :
    r0 ≤ w.1.1 ∧ w.1.1 < r0 + 8 * rowTiles := by
  obtain ⟨rt, hrt, lane, hlane, -, e, -, ⟨d0d, -, rfl⟩ | ⟨-, rfl⟩⟩ := mem_blockStores.1 hw
  all_goals
    have hfm := fm_lt hlane
    dsimp only [added]
    omega

/-- Every store of a block is its element's value. -/
theorem blockStores_value (hword : x.WordTargets) (hv : v1 ≤ x.v) {w : (ℕ × ℕ) × XReal}
    (hw : w ∈ blockStores x v0 v1 r0 inp out rowTiles cc) : w.2 = blockOut x v0 v1 cc inp out w.1.1 w.1.2 := by
  obtain ⟨rt, -, lane, hlane, hrow, e, he, hw⟩ := mem_blockStores.1 hw
  obtain ⟨hfn, -⟩ := fn_lt hlane
  rcases hw with ⟨d0d, -, rfl⟩ | ⟨hcol, rfl⟩
  · dsimp only [added, blockOut]
    rw [@dbTile_eq x v0 v1 r0 cc rt lane e _ hword hv hrow hlane rfl _ (fun c => x.w c (d0d + (fn lane + e)))
      fun ct k hk => wbFrag_get hk (by omega)]
  · dsimp only [added, blockOut]
    rw [@dbTile_eq x v0 v1 r0 cc rt lane e _ hword hv hrow hlane rfl _
      (fun c => x.w c (dFull x.toDenseArgs + (fn lane + e))) fun ct k hk => wbTail_get hk (by omega) hcol]

/-- Every element of the block is stored. -/
theorem exists_blockStore (hlo : r0 ≤ row) (hhi : row < r0 + 8 * rowTiles) (hrow : row < x.n) (hcol : col < x.d) :
    ∃ w ∈ blockStores x v0 v1 r0 inp out rowTiles cc, w.1 = (row, col) := by
  obtain ⟨hlane, hfm, hfn⟩ := laneOf_spec (Nat.mod_lt (row - r0) (by decide : 0 < 8)) (Nat.mod_lt col (by decide : 0 < 8))
  have hplace : r0 + fm (laneOf ((row - r0) % 8) (col % 8)) + 8 * ((row - r0) / 8) = row := by
    rw [hfm]
    omega
  have hstored : r0 + fm (laneOf ((row - r0) % 8) (col % 8)) + 8 * ((row - r0) / 8) < x.n := by
    rw [hplace]
    exact hrow
  -- The column lies in a whole slice or in the tail.
  by_cases hfull : col < dFull x.toDenseArgs
  · have hslice := @mem_steps_block 8 0 (dFull x.toDenseArgs) col (by decide) (Nat.zero_le col) hfull
    refine ⟨_, mem_blockStores.2 ⟨(row - r0) / 8, by omega, _, hlane, hstored, col % 8 % 2, Nat.mod_lt _ (by decide),
      Or.inl ⟨_, hslice, rfl⟩⟩, ?_⟩
    dsimp only [added]
    rw [hplace, hfn, Nat.zero_add, Nat.sub_zero, Nat.div_add_mod']
  · have htail : dFull x.toDenseArgs + col % 8 = col := by
      unfold dFull at hfull ⊢
      omega
    refine ⟨_, mem_blockStores.2 ⟨(row - r0) / 8, by omega, _, hlane, hstored, col % 8 % 2, Nat.mod_lt _ (by decide),
      Or.inr ⟨by rw [hfn, htail]; exact hcol, rfl⟩⟩, ?_⟩
    dsimp only [added]
    rw [hplace, hfn, htail]

/-- A block of columns settles the elements of its rows, -/
theorem blockStep_eq (hword : x.WordTargets) (hv : v1 ≤ x.v) (hlo : r0 ≤ row) (hhi : row < r0 + 8 * rowTiles)
    (hrow : row < x.n) (hcol : col < x.d) :
    blockStep x v0 v1 r0 inp out rowTiles cc (row, col) = blockOut x v0 v1 cc inp out row col :=
  storeAll_eq (exists_blockStore hlo hhi hrow hcol) fun w hw hplace => by rw [blockStores_value hword hv hw, hplace]

/-- and leaves the other rows alone. -/
theorem blockStep_frame (hrow : row < r0 ∨ r0 + 8 * rowTiles ≤ row) :
    blockStep x v0 v1 r0 inp out rowTiles cc (row, col) = out (row, col) := by
  refine storeAll_of_forall_ne fun w hw heq => ?_
  have hplace := blockStores_row hw
  rw [heq] at hplace
  omega

/-- The column loop adds the tile. -/
theorem foldl_blockStep (hword : x.WordTargets) (hv : v1 ≤ x.v) (hlo : r0 ≤ row) (hhi : row < r0 + 8 * rowTiles)
    (hrow : row < x.n) (hcol : col < x.d) {base : ℝ} (htile : v0 < v1) (hinp : inp (row, col) = real base) :
    (steps 32 0 (v1 - v0)).foldl (fun out cc => blockStep x v0 v1 r0 inp out rowTiles cc) out (row, col) =
      real (base + ∑ c ∈ Finset.Ico v0 v1, x.coeff row c * x.w c col) := by
  -- What the block at `cc` reads holds the columns before it, `inp` none of them.
  let P := fun cc (out : Buffer) => (if cc = 0 then inp (row, col) else out (row, col)) =
    real (base + ∑ c ∈ Fwd.doneCols v0 v1 cc, x.coeff row c * x.w c col)
  have hinit : P 0 out := by
    dsimp only [P]
    rw [if_pos rfl, hinp, Fwd.doneCols_zero, Finset.sum_empty, add_zero]
  have hstep : ∀ cc out, cc < v1 - v0 → P cc out → P (cc + 32) (blockStep x v0 v1 r0 inp out rowTiles cc) := by
    intro cc out _ hheld
    dsimp only [P] at hheld ⊢
    rw [if_neg (by omega), blockStep_eq hword hv hlo hhi hrow hcol, blockOut, hheld, real_add_real, ← Fwd.doneCols_step,
      Finset.sum_union Fwd.disjoint_doneCols, add_assoc]
  obtain ⟨cc, hdone, hheld⟩ := foldl_steps_inv (by decide) hinit hstep
  dsimp only [P] at hheld
  rw [if_neg (by omega), Fwd.doneCols_all hdone] at hheld
  exact hheld

theorem mmaBlock_addsTile (hword : x.WordTargets) : AddsTile x (mmaBlock x) where
  frame := by
    intro v0 v1 r0 inp out rowTiles row k hout
    unfold mmaBlock
    split
    · rfl
    · exact foldl_frame out fun cc _ out => blockStep_frame hout
  adds := by
    intro v0 v1 r0 inp out rowTiles row k base htile hv hlo hhi hrow hk hinp
    unfold mmaBlock
    rw [if_neg (by omega)]
    exact foldl_blockStep hword hv hlo hhi hrow hk htile hinp

end Mma
end Bwd

end MlxTrainPerf.Core.Kernel
