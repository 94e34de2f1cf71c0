import MlxTrainPerf.Core.Kernel.ForwardRun
import MlxTrainPerf.Core.Kernel.Launch
/-!
# The fused forward returns the logsumexp

Each dispatch merges its tile's logsumexp into the rows' and takes the targets
it meets, so the chain over any tiles that cut the columns ends with both over
all of them.
-/
open Loops Simdgroup XReal OnlineSoftmax

namespace MlxTrainPerf.Core.Kernel

/-! ## Stores -/

namespace Fwd

section Stores
variable {x : DenseArgs} {v0 v1 r0 rt lane rowTiles row : ℕ} {inp : ℕ → XReal × XReal} {regs : FwdRegs}

/-- What a tile leaves in a row. -/
noncomputable def rowOut (x : DenseArgs) (v0 v1 : ℕ) (inp : ℕ → XReal × XReal) (row : ℕ) : XReal × XReal :=
  ((inp row).1.mergeLog (lseOf (Finset.Ico v0 v1) (x.logit row)),
    if x.target row ∈ Finset.Ico v0 v1 then real (x.logit row (x.target row)) else (inp row).2)

/-- Looking for the target over the lanes of a row: `yes` where one has met it. -/
theorem reduceRow_hit (v0 : ℕ) {i : ℕ} {S : Finset ℕ} {yes no : XReal} {y : ℕ → XReal} (hyes : yes.max no = yes)
    (hno : no.max yes = yes) (hyy : yes.max yes = yes) (hnn : no.max no = no) (hlane : lane < 32) (hi : fm lane = i)
    (hy : ∀ lane < 32, fm lane = i → y lane = if Hit x v0 lane row S then yes else no) :
    reduceRow XReal.max y lane = if x.target row ∈ S then yes else no := by
  let g := fun cols : List ℕ => if x.target row ∈ S ∧ (x.target row - v0) % 32 ∈ cols then yes else no
  have hall : g (List.range 32) = if x.target row ∈ S then yes else no :=
    if_congr (and_iff_left (List.mem_range.2 (Nat.mod_lt _ (by decide)))) rfl rfl
  rw [← hall]
  refine @reduceRow_eq lane XReal.max _ g ?_ ?_ hlane fun lane' hmem => ?_
  · intro a b
    dsimp only [g]
    rw [if_congr (and_congr_right fun _ => List.mem_append) rfl rfl]
    by_cases hS : x.target row ∈ S <;> by_cases ha : (x.target row - v0) % 32 ∈ a <;>
      by_cases hb : (x.target row - v0) % 32 ∈ b <;> simp [hS, ha, hb, hyes, hno, hyy, hnn]
  · exact fun a b hperm => if_congr (and_congr_right fun _ => hperm.mem_iff) rfl rfl
  · obtain ⟨hlane', hfm⟩ := fm_shuffleLanes hlane lane' hmem
    exact hy lane' hlane' (hfm.trans hi)

theorem mem_stores {w : ℕ × XReal × XReal} : w ∈ stores x v0 v1 r0 rowTiles inp ↔
    r0 < x.n ∧ ∃ rt < rowTiles, ∃ lane < 32, (fn lane = 0 ∧ r0 + fm lane + 8 * rt < x.n) ∧
      w = (r0 + fm lane + 8 * rt,
        (inp (r0 + fm lane + 8 * rt)).1.mergeLog
          ((run x v0 v1 r0).m lane rt + ((run x v0 v1 r0).s lane rt).log),
        if XReal.lt (real (1 / 2)) (Epilogue.rowHit rt (run x v0 v1 r0) lane) then Epilogue.rowTarget rt (run x v0 v1 r0) lane
        else (inp (r0 + fm lane + 8 * rt)).2) := by
  unfold stores Epilogue.stores
  split
  · next hge => simp [not_lt.2 hge]
  · next hlt =>
    rw [and_iff_right (not_le.1 hlt)]
    simp only [List.mem_flatMap, List.mem_range]
    refine exists_congr fun rt => and_congr_right fun _ => exists_congr fun lane => and_congr_right fun _ => ?_
    split
    · next hall =>
      rw [List.mem_singleton, and_iff_right hall]
      rfl
    · next hnot => exact ⟨fun hmem => absurd hmem List.not_mem_nil, fun h => absurd h.1 hnot⟩

/-- Every store is the row's value. -/
theorem stores_value (hrange : x.InRange) (htile : v0 < v1) {w : ℕ × XReal × XReal}
    (hw : w ∈ stores x v0 v1 r0 rowTiles inp) : w.2 = rowOut x v0 v1 inp w.1 := by
  obtain ⟨-, rt, -, lane, hlane, ⟨-, hrow⟩, rfl⟩ := mem_stores.1 hw
  have hne : (Finset.Ico v0 v1).Nonempty := Finset.nonempty_Ico.2 htile
  have hheld := @run_holds x v0 v1 r0 rt (fm lane) hrange hrow
  have htarget : Epilogue.rowTarget rt (run x v0 v1 r0) lane =
      if x.target (r0 + fm lane + 8 * rt) ∈ Finset.Ico v0 v1 then
        real (x.logit (r0 + fm lane + 8 * rt) (x.target (r0 + fm lane + 8 * rt))) else negInf := by
    refine reduceRow_hit v0 (max_negInf _) rfl (by rw [max_real, max_self]) rfl hlane rfl fun lane' hlane' hfm => ?_
    rw [hheld.tv lane' hlane' hfm]
    unfold targetState
    split <;> rfl
  have hhit : Epilogue.rowHit rt (run x v0 v1 r0) lane =
      if x.target (r0 + fm lane + 8 * rt) ∈ Finset.Ico v0 v1 then real 1 else real 0 := by
    refine reduceRow_hit v0 (by simp) (by simp) (by simp) (by simp) hlane rfl fun lane' hlane' hfm => ?_
    rw [hheld.tv lane' hlane' hfm]
    unfold targetState
    split <;> rfl
  have hlse : (run x v0 v1 r0).m lane rt + ((run x v0 v1 r0).s lane rt).log =
      lseOf (Finset.Ico v0 v1) (x.logit (r0 + fm lane + 8 * rt)) := by
    rw [hheld.m lane hlane rfl, hheld.s lane hlane rfl, peak_of_nonempty hne, log_real (total_pos hne), real_add_real,
      shift_add_log hne, lseOf_of_nonempty hne]
  dsimp only
  rw [hlse, htarget, hhit]
  unfold rowOut
  refine congrArg (Prod.mk _) ?_
  split
  · exact if_pos (by simp [XReal.lt]; norm_num)
  · exact if_neg (by simp [XReal.lt])

/-- Every row is stored by its block. -/
theorem exists_store (hpos : 0 < rowTiles) (hrow : row < x.n) : ∃ ygroup ∈ rowBlocks x.n rowTiles,
    ∃ w ∈ stores x v0 v1 (ygroup * (8 * rowTiles)) rowTiles inp, w.1 = row := by
  have hrows : 0 < 8 * rowTiles := by omega
  obtain ⟨hlane, hfm, hfn⟩ := laneOf_spec (Nat.mod_lt row (by decide : 0 < 8)) (by decide : 0 < 8)
  have hrt : row % (8 * rowTiles) / 8 < rowTiles :=
    Nat.div_lt_of_lt_mul (Nat.mod_lt row hrows)
  have h8 : row % (8 * rowTiles) % 8 = row % 8 := Nat.mod_mod_of_dvd row (Nat.dvd_mul_right 8 rowTiles)
  have hsplit := Nat.div_add_mod row (8 * rowTiles)
  rw [Nat.mul_comm] at hsplit
  have hplace : row / (8 * rowTiles) * (8 * rowTiles) + row % 8 + 8 * (row % (8 * rowTiles) / 8) = row := by omega
  refine ⟨row / (8 * rowTiles), ?_, _, mem_stores.2 ⟨by omega, _, hrt, laneOf (row % 8) 0, hlane, ⟨hfn, ?_⟩, rfl⟩, ?_⟩
  · rw [rowBlocks, List.mem_range, Nat.lt_div_iff_mul_lt hrows]
    omega
  · rw [hfm, hplace]
    exact hrow
  · dsimp only
    rw [hfm, hplace]

end Stores
end Fwd

/-! ## The chain -/

section Chain
variable {x : DenseArgs} {rowTiles a b i : ℕ} {r : ℕ × ℕ} {tiles : List (ℕ × ℕ)} {inp mem : ℕ → XReal × XReal}

theorem forwardTile_eq (hrange : x.InRange) (hpos : 0 < rowTiles) (htile : r.1 < r.2) (hi : i < x.n) :
    forwardTile x rowTiles r inp mem i = Fwd.rowOut x r.1 r.2 inp i := by
  obtain ⟨ygroup, hy, w, hw, hplace⟩ := @Fwd.exists_store x r.1 r.2 rowTiles i inp hpos hi
  refine storeAll_eq ⟨w, List.mem_flatMap.2 ⟨ygroup, hy, hw⟩, hplace⟩ fun w hw hplace => ?_
  obtain ⟨ygroup, -, hw⟩ := List.mem_flatMap.1 hw
  rw [Fwd.stores_value hrange htile hw, hplace]

/-- A row of `lse` and `tgt`, once the columns before `a` are in. -/
noncomputable def rowState (x : DenseArgs) (a i : ℕ) : XReal × XReal :=
  (lseOf (Finset.range a) (x.logit i), if x.target i < a then real (x.logit i (x.target i)) else 0)

/-- A tile takes a row from its first column to its last. -/
theorem rowOut_rowState (htile : a < b) (hinp : inp i = rowState x a i) : Fwd.rowOut x a b inp i = rowState x b i := by
  unfold Fwd.rowOut
  rw [hinp]
  unfold rowState
  dsimp only
  rw [mergeLog_lseOf (disjoint_range_Ico a b) (Finset.nonempty_Ico.2 htile), range_union_Ico htile.le]
  refine congrArg (Prod.mk _) ?_
  by_cases hpast : x.target i < a
  · rw [if_neg (fun h => absurd (Finset.mem_Ico.1 h).1 (not_le.2 hpast)), if_pos hpast, if_pos (hpast.trans htile)]
  · rw [if_neg hpast]
    exact if_congr (Finset.mem_Ico.trans (and_iff_right (not_lt.1 hpast))) rfl rfl

/-- The launches chain over any tiles that cut the columns. -/
theorem foldl_forwardTile (hrange : x.InRange) (hpos : 0 < rowTiles) (htiles : Tiles a b tiles)
    (mem : ℕ × ℕ → ℕ → XReal × XReal) (hinp : ∀ i < x.n, inp i = rowState x a i) :
    ∀ i < x.n, tiles.foldl (fun inp r => forwardTile x rowTiles r inp (mem r)) inp i = rowState x b i := by
  induction tiles generalizing a inp with
  | nil =>
    obtain rfl : a = b := htiles
    exact hinp
  | cons r tiles ih =>
    obtain ⟨rfl, hlt, hrest⟩ := htiles
    refine ih hrest fun i hi => ?_
    dsimp only
    rw [forwardTile_eq hrange hpos hlt hi, rowOut_rowState hlt (hinp i hi)]

theorem rowState_all (hrange : x.InRange) (hi : i < x.n) : rowState x x.v i =
    (real (logSumExp (Finset.range x.v) (x.logit i)), real (x.logit i (x.target i))) := by
  have htarget := hrange.target_lt hi
  unfold rowState
  rw [if_pos htarget, lseOf_of_nonempty ⟨_, Finset.mem_range.2 htarget⟩]

end Chain

theorem launchTiles_ok {tile : ℤ} (v : ℕ) (h : 1 ≤ tile) : ∃ tiles, Tiles 0 v tiles ∧ launchTiles v tile = .ok tiles := by
  obtain ⟨tiles, hok, htiles⟩ := vocabTiles_pos v h
  refine ⟨tiles, htiles, ?_⟩
  unfold launchTiles
  rw [hok]
  rfl

/-- The forward, once its budget is accepted, returns the logsumexp over all the
columns and the target's logit of each row, whatever the tile width and the row
tiles. -/
theorem forward_logsumexp (x : DenseArgs) (hrange : x.InRange) (rowTiles tile : ℤ) (hrt : rowTiles = 2 ∨ rowTiles = 4)
    (htile : 1 ≤ tile) (rate : Option ℚ) (mem : ℕ × ℕ → ℕ → XReal × XReal) :
    forward x rowTiles tile rate mem = (checkRate x.n x.d x.v tile rate).map fun _ =>
      ((List.range x.n).map fun i => real (logSumExp (Finset.range x.v) (x.logit i)),
        (List.range x.n).map fun i => real (x.logit i (x.target i))) := by
  obtain ⟨rt, ⟨hpos, -⟩, hrt⟩ := checkRowTiles_ok hrt
  obtain ⟨tiles, htiles, hok⟩ := launchTiles_ok x.v htile
  have hrows := @foldl_forwardTile x rt 0 x.v tiles (fun _ => (negInf, 0)) hrange hpos htiles mem fun i _ => by
    unfold rowState
    rw [Finset.range_zero, lseOf_empty, if_neg (Nat.not_lt_zero _)]
  unfold forward
  rw [hrt, hok]
  cases checkRate x.n x.d x.v tile rate with
  | error e => rfl
  | ok u =>
    refine congrArg Except.ok (congrArg₂ Prod.mk (List.map_congr_left fun i hi => ?_) (List.map_congr_left fun i hi => ?_))
    · rw [hrows i (List.mem_range.1 hi), rowState_all hrange (List.mem_range.1 hi)]
    · rw [hrows i (List.mem_range.1 hi), rowState_all hrange (List.mem_range.1 hi)]

/-- One row of two columns; its target is the last. -/
noncomputable def oneRow : DenseArgs := ⟨1, 1, 2, fun _ _ => 1, fun c _ => c, fun _ => 1, by decide⟩

theorem oneRow_inRange : oneRow.InRange := fun _ _ => ⟨by norm_num [oneRow], by norm_num [oneRow]⟩

theorem forward_logsumexp_oneRow : forward oneRow 2 1 none (fun _ _ => (nan, nan)) =
    .ok ([real (logSumExp (Finset.range 2) (oneRow.logit 0))], [real (oneRow.logit 0 1)]) :=
  forward_logsumexp oneRow oneRow_inRange 2 1 (Or.inl rfl) (by decide) none fun _ _ => (nan, nan)

end MlxTrainPerf.Core.Kernel
