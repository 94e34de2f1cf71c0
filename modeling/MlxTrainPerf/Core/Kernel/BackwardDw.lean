import MlxTrainPerf.Core.FusedBackward
/-!
# The weight backward, add by add

`_BACKWARD_DW_TEMPLATE` and its launcher. Every row adds to every column of a
tile, so the output of a dispatch is atomic and the adds come in any order. The
flat offset of an add is formed in 32 bits, and the output is not: a tile of more
than 2^32 elements has elements no offset reaches.
-/
open Loops PyList XReal

namespace MlxTrainPerf.Core.Kernel

/-! ## The model -/

/-- The value of a `uint` expression. -/
def uint (x : ℕ) : ℕ := x % 2 ^ 32

/-- What `backward_dw` is called with. The entries of a shape are int32. -/
structure DwArgs extends BwdArgs where
  n_int32 : n < 2 ^ 31
  d_int32 : d < 2 ^ 31

/-- `atomic_fetch_add_explicit`, by its row, the tile's column `c` and the element `i`. -/
structure DwAdd where
  row : ℕ
  c : ℕ
  i : ℕ
deriving DecidableEq, Repr

namespace Dw

variable (x : DwArgs) (v0 v1 : ℕ)

/-- A row's adds, lane after lane. -/
def rowAdds (row : ℕ) : List DwAdd :=
  (List.range (v1 - v0)).flatMap fun c => (List.range 32).flatMap fun lane =>
    (steps 32 lane x.d).map fun i => ⟨row, c, i⟩

/-- The body, for one row block. -/
def blockAdds (rowTiles ygroup : ℕ) : List DwAdd :=
  let r0 := uint (ygroup * (8 * rowTiles))
  if x.n ≤ r0 then []
  else (List.range (8 * rowTiles)).flatMap fun rt =>
    let row := uint (r0 + rt)
    if x.n ≤ row then [] else rowAdds x v0 v1 row

/-- The adds of one dispatch. -/
def tileAdds (rowTiles : ℕ) : List DwAdd :=
  (rowBlocks x.n rowTiles).flatMap fun ygroup => blockAdds x v0 v1 rowTiles ygroup

/-- `c * d + i`. -/
def offset (a : DwAdd) : ℕ := uint (a.c * x.d + a.i)

/-- `coeff * (float)hrow[i]`; the coefficient is formed as in the scalar hidden-state backward. -/
noncomputable def value (a : DwAdd) : XReal := Bwd.coeff x.toBwdArgs v0 a.row a.c * real (x.hidden a.row a.i)

/-- `d_w_tile`, as its flat buffer: `order` is the order in which the adds come. -/
noncomputable def tile (rowTiles : ℕ) (order : List DwAdd → List DwAdd) : ℕ → XReal :=
  addAll ((order (tileAdds x v0 v1 rowTiles)).map fun a => (offset x a, value x v0 a)) fun _ => 0

end Dw

/-- `backward_dw`: the rows of `d_w`. As in the other backwards the budget is checked at half the rate. -/
noncomputable def backwardDw (x : DwArgs) (rowTiles tile : ℤ) (rate : Option ℚ)
    (order : ℕ × ℕ → List DwAdd → List DwAdd) : Except LaunchError (List (List XReal)) := do
  checkRate x.n x.d x.v tile (rate.map (· / 2))
  let rowTiles ← checkRowTiles rowTiles
  let tiles ← launchTiles x.v tile
  if tiles = [] then .error (.value "[concatenate] No arrays provided for concatenation")
  else return tiles.flatMap fun r => (List.range (r.2 - r.1)).map fun c => (List.range x.d).map fun i =>
    Dw.tile x r.1 r.2 rowTiles (order r) (c * x.d + i)

/-! ## The adds of a dispatch -/

namespace Dw

section Adds
variable {x : DwArgs} {v0 v1 rowTiles c i : ℕ} {a : DwAdd}

theorem mem_rowAdds {row : ℕ} : a ∈ rowAdds x v0 v1 row ↔ a.row = row ∧ a.c < v1 - v0 ∧ a.i < x.d := by
  simp only [rowAdds, List.mem_flatMap, List.mem_range, List.mem_map]
  constructor
  · rintro ⟨c, hc, lane, -, i, hi, rfl⟩
    exact ⟨rfl, hc, ((mem_steps (by decide)).1 hi).2.1⟩
  · rintro ⟨rfl, hc, hi⟩
    refine ⟨a.c, hc, a.i % 32, Nat.mod_lt _ (by decide), a.i, (mem_steps (by decide)).2 ?_, rfl⟩
    exact ⟨Nat.mod_le a.i 32, hi, Nat.dvd_sub_mod a.i⟩

/-- Each row's adds, once: no `uint` of the row arithmetic wraps. -/
theorem tileAdds_eq (hpos : 0 < rowTiles) (hrt : rowTiles ≤ 4) :
    tileAdds x v0 v1 rowTiles = (List.range x.n).flatMap (rowAdds x v0 v1) := by
  have hn := x.n_int32
  have hrows : 0 < 8 * rowTiles := by omega
  let row := fun r => if x.n ≤ r then [] else rowAdds x v0 v1 r
  -- A row number is below 2^31 + 31, so `uint` changes none.
  have hblock : ∀ ygroup ∈ rowBlocks x.n rowTiles, blockAdds x v0 v1 rowTiles ygroup =
      ((List.range (8 * rowTiles)).map fun rt => ygroup * (8 * rowTiles) + rt).flatMap row := by
    intro ygroup hygroup
    have hlt := (Nat.lt_div_iff_mul_lt hrows).1 (List.mem_range.1 hygroup)
    have hr0 : uint (ygroup * (8 * rowTiles)) = ygroup * (8 * rowTiles) := Nat.mod_eq_of_lt (by omega)
    unfold blockAdds
    rw [hr0, if_neg (by omega), List.flatMap_map]
    refine List.flatMap_congr fun rt hrt => ?_
    have hrt := List.mem_range.1 hrt
    have hrow : uint (ygroup * (8 * rowTiles) + rt) = ygroup * (8 * rowTiles) + rt := Nat.mod_eq_of_lt (by omega)
    dsimp only
    rw [hrow]
  obtain ⟨k, hk⟩ := Nat.exists_eq_add_of_le (show x.n ≤ (x.n + 8 * rowTiles - 1) / (8 * rowTiles) * (8 * rowTiles) by
    have := Nat.lt_div_mul_add hrows (a := x.n + 8 * rowTiles - 1)
    omega)
  -- The last block's rows past `n` add nothing.
  have hpast : ((List.range k).map fun j => x.n + j).flatMap row = [] := by
    rw [List.flatMap_eq_nil_iff]
    rintro r hr
    obtain ⟨j, -, rfl⟩ := List.mem_map.1 hr
    exact if_pos (Nat.le_add_right _ _)
  unfold tileAdds
  rw [List.flatMap_congr hblock, ← List.flatMap_assoc, rowBlocks, flatMap_blocks, hk, List.range_add,
    List.flatMap_append, hpast, List.append_nil]
  exact List.flatMap_congr fun r hr => if_neg (not_le.2 (List.mem_range.1 hr))

theorem mem_tileAdds (hpos : 0 < rowTiles) (hrt : rowTiles ≤ 4) :
    a ∈ tileAdds x v0 v1 rowTiles ↔ a.row < x.n ∧ a.c < v1 - v0 ∧ a.i < x.d := by
  simp only [tileAdds_eq hpos hrt, List.mem_flatMap, List.mem_range, mem_rowAdds]
  constructor
  · rintro ⟨row, hrow, rfl, hc, hi⟩
    exact ⟨hrow, hc, hi⟩
  · rintro ⟨hrow, hc, hi⟩
    exact ⟨a.row, hrow, rfl, hc, hi⟩

/-- What a row adds to one element. -/
theorem sum_rowAdds {row : ℕ} (hc : c < v1 - v0) (hi : i < x.d) (y : XReal) :
    ((rowAdds x v0 v1 row).map fun a => if a.c = c ∧ a.i = i then y else 0).sum = y := by
  -- Of the 32 lanes exactly one comes to element `i`.
  have hcol : ∀ c', (((List.range 32).flatMap fun lane => (steps 32 lane x.d).map fun i => DwAdd.mk row c' i).map
      fun a => if a.c = c ∧ a.i = i then y else 0).sum = if c' = c then y else 0 := by
    intro c'
    have hlanes := @sum_lanes 32 x.d XReal _ (by decide) fun i' => if c' = c ∧ i' = i then y else 0
    rw [sum_flatMap]
    simp only [List.map_map, Function.comp_def]
    refine hlanes.trans ?_
    by_cases hcc : c' = c
    · simp [hcc, hi]
    · simp [hcc]
  unfold rowAdds
  rw [sum_flatMap]
  simp only [hcol]
  have hcols := Finset.sum_ite_eq' (Finset.range (v1 - v0)) c fun _ => y
  rw [if_pos (Finset.mem_range.2 hc)] at hcols
  exact hcols

/-! ## The elements of a tile -/

/-- Every element of the tile is written, and only by the adds that are for it. -/
def OwnWrites (x : DwArgs) (v0 v1 rowTiles : ℕ) : Prop :=
  ∀ c < v1 - v0, ∀ i < x.d, (∃ a ∈ tileAdds x v0 v1 rowTiles, offset x a = c * x.d + i) ∧
    ∀ a ∈ tileAdds x v0 v1 rowTiles, offset x a = c * x.d + i → a.c = c ∧ a.i = i

theorem place_lt {m d : ℕ} (hc : c < m) (hi : i < d) : c * d + i < m * d := by
  have := Nat.mul_le_mul_right d (Nat.succ_le_of_lt hc)
  rw [Nat.succ_mul] at this
  omega

/-- In a tile of at most 2^32 elements no offset wraps. -/
theorem offset_eq (hfit : (v1 - v0) * x.d ≤ 2 ^ 32) (hc : a.c < v1 - v0) (hi : a.i < x.d) :
    offset x a = a.c * x.d + a.i := Nat.mod_eq_of_lt ((place_lt hc hi).trans_le hfit)

theorem place_inj {d c' i' : ℕ} (hi : i < d) (hi' : i' < d) : c * d + i = c' * d + i' ↔ c = c' ∧ i = i' := by
  constructor
  · intro h
    have hc : c = c' := by
      have := congrArg (· / d) h
      simpa [Nat.mul_add_div, Nat.div_eq_of_lt, hi, hi', Nat.mul_comm _ d, show 0 < d by omega] using this
    subst hc
    exact ⟨rfl, Nat.add_left_cancel h⟩
  · rintro ⟨rfl, rfl⟩
    rfl

theorem ownWrites_iff (hn : 1 ≤ x.n) (hpos : 0 < rowTiles) (hrt : rowTiles ≤ 4) :
    OwnWrites x v0 v1 rowTiles ↔ (v1 - v0) * x.d ≤ 2 ^ 32 := by
  constructor
  · intro h
    by_contra hover
    rw [not_le] at hover
    have hd : 0 < x.d := Nat.pos_of_ne_zero fun h0 => by simp [h0] at hover
    -- No offset reaches the element at place 2^32.
    obtain ⟨⟨a, -, hplace⟩, -⟩ := h (2 ^ 32 / x.d) ((Nat.div_lt_iff_lt_mul hd).2 hover) (2 ^ 32 % x.d) (Nat.mod_lt _ hd)
    rw [Nat.div_add_mod'] at hplace
    exact absurd hplace (Nat.mod_lt _ (by decide)).ne
  · intro hfit c hc i hi
    refine ⟨⟨⟨0, c, i⟩, (mem_tileAdds hpos hrt).2 ⟨hn, hc, hi⟩, offset_eq hfit hc hi⟩, fun a ha hplace => ?_⟩
    obtain ⟨-, hac, hai⟩ := (mem_tileAdds hpos hrt).1 ha
    rw [offset_eq hfit hac hai] at hplace
    exact (place_inj hai hi).1 hplace

/-- Then an element ends with what its own adds bring, in whatever order they come. -/
theorem tile_eq (hword : x.WordTargets) (hpos : 0 < rowTiles) (hrt : rowTiles ≤ 4) (hv : v1 ≤ x.v)
    (hfit : (v1 - v0) * x.d ≤ 2 ^ 32) {order : List DwAdd → List DwAdd} (horder : ∀ adds, (order adds).Perm adds)
    (hc : c < v1 - v0) (hi : i < x.d) : tile x v0 v1 rowTiles order (c * x.d + i) = real (x.dWeight (v0 + c) i) := by
  have hrow : ∀ row ∈ Finset.range x.n, ((rowAdds x v0 v1 row).map fun a =>
      if offset x a = c * x.d + i then value x v0 a else 0).sum = real (x.coeff row (v0 + c) * x.hidden row i) := by
    intro row hrow
    -- Among a row's adds only the one for `(c, i)` has this offset.
    have hown : ∀ a ∈ rowAdds x v0 v1 row, (if offset x a = c * x.d + i then value x v0 a else 0) =
        if a.c = c ∧ a.i = i then real (x.coeff row (v0 + c) * x.hidden row i) else 0 := by
      intro a ha
      obtain ⟨rfl, hac, hai⟩ := mem_rowAdds.1 ha
      rw [offset_eq hfit hac hai, if_congr (place_inj hai hi) rfl rfl]
      refine if_ctx_congr Iff.rfl (fun heq => ?_) fun _ => rfl
      rw [value, Bwd.coeff_eq hword (Finset.mem_range.1 hrow) (by omega), real_mul_real, heq.1, heq.2]
    rw [List.map_congr_left hown, sum_rowAdds hc hi]
  rw [tile, addAll_eq, List.map_map, ((horder _).map _).sum_eq, tileAdds_eq hpos hrt, sum_flatMap]
  exact (zero_add _).trans (sum_real hrow)

end Adds
end Dw

/-! ## The launch -/

section Launch
variable {x : DwArgs} {rowTiles tile : ℤ} {rate : Option ℚ} {order : ℕ × ℕ → List DwAdd → List DwAdd}

/-- The widest tile of a launch is its first. -/
theorem launchTiles_widest {v : ℕ} (hv : 1 ≤ v) (htile : 1 ≤ tile) :
    ∃ tiles, Tiles 0 v tiles ∧ launchTiles v tile = .ok tiles ∧
      ∀ d m : ℕ, (∀ r ∈ tiles, (r.2 - r.1) * d ≤ m) ↔ min tile v * d ≤ m := by
  obtain ⟨s, rfl⟩ := Int.eq_ofNat_of_zero_le (show 0 ≤ tile by omega)
  have hs : 0 < s := by omega
  refine ⟨_, tiles_steps hs (Nat.zero_le v), ?_, fun d m => ⟨fun h => ?_, fun h r hr => ?_⟩⟩
  · unfold launchTiles
    rw [vocabTiles_eq v hs]
    rfl
  · have hfirst := h (0, min s v) (by
      rw [steps_eq_cons hs hv, List.map_cons, Nat.zero_add]
      exact List.mem_cons_self)
    rw [Nat.sub_zero] at hfirst
    exact_mod_cast hfirst
  · obtain ⟨v0, -, rfl⟩ := List.mem_map.1 hr
    have hwidth : min (v0 + s) v - v0 ≤ min s v := by omega
    have hall : min s v * d ≤ m := by exact_mod_cast h
    exact (Nat.mul_le_mul_right d hwidth).trans hall

theorem backwardDw_eq (hword : x.WordTargets) (hv : 1 ≤ x.v) (hrt : rowTiles = 2 ∨ rowTiles = 4) (htile : 1 ≤ tile)
    (hbudget : checkRate x.n x.d x.v tile (rate.map (· / 2)) = .ok ()) (hfit : min tile x.v * x.d ≤ 2 ^ 32)
    (horder : ∀ r adds, (order r adds).Perm adds) :
    backwardDw x rowTiles tile rate order =
      .ok ((List.range x.v).map fun c => (List.range x.d).map fun i => real (x.dWeight c i)) := by
  obtain ⟨rt, hrtNat, hrtOk⟩ := checkRowTiles_ok hrt
  obtain ⟨tiles, htiles, hok, hwidest⟩ := launchTiles_widest hv htile
  have hne : tiles ≠ [] := htiles.ne_nil hv
  have hrows := htiles.flatMap_rows fun c => (List.range x.d).map fun i => real (x.dWeight c i)
  simp only [Nat.zero_add, Nat.sub_zero] at hrows
  unfold backwardDw
  rw [hbudget, hrtOk, hok]
  dsimp only [bind, Except.bind]
  rw [if_neg hne, ← hrows]
  refine congrArg Except.ok (List.flatMap_congr fun r hr => ?_)
  have htile : (r.2 - r.1) * x.d ≤ 2 ^ 32 := (hwidest x.d (2 ^ 32)).2 (by exact_mod_cast hfit) r hr
  refine List.map_congr_left fun c hc => List.map_congr_left fun i hi => ?_
  exact Dw.tile_eq hword hrtNat.1 hrtNat.2 (htiles.bounds hr).2.2 htile (horder r) (List.mem_range.1 hc)
    (List.mem_range.1 hi)

end Launch

/-- Every element of `d_w` is written, by its own column only, and comes out as the sum over the rows, in whatever
order the adds come, exactly when the widest tile has at most 2^32 elements. -/
theorem backward_dw_iff (x : DwArgs) (hn : 1 ≤ x.n) (hv : 1 ≤ x.v) (hword : x.WordTargets) (rowTiles tile : ℤ)
    (hrt : rowTiles = 2 ∨ rowTiles = 4) (htile : 1 ≤ tile) (rate : Option ℚ)
    (hbudget : checkRate x.n x.d x.v tile (rate.map (· / 2)) = .ok ()) (order : ℕ × ℕ → List DwAdd → List DwAdd)
    (horder : ∀ r adds, (order r adds).Perm adds) :
    (backwardDw x rowTiles tile rate order = .ok ((List.range x.v).map fun c => (List.range x.d).map fun i =>
        real (∑ r ∈ Finset.range x.n, x.cotangent r *
          (Real.exp (x.logit r c - x.lse r) - if (c : ℤ) = x.targets r then 1 else 0) * x.hidden r i)) ∧
      ∃ tiles, launchTiles x.v tile = .ok tiles ∧ ∀ r ∈ tiles, Dw.OwnWrites x r.1 r.2 rowTiles.toNat) ↔
        min tile x.v * x.d ≤ 2 ^ 32 := by
  have hrtNat : 0 < rowTiles.toNat ∧ rowTiles.toNat ≤ 4 := by omega
  obtain ⟨tiles, htiles, hok, hwidest⟩ := launchTiles_widest hv htile
  have hown : (∀ r ∈ tiles, Dw.OwnWrites x r.1 r.2 rowTiles.toNat) ↔ min tile x.v * x.d ≤ 2 ^ 32 := by
    simp only [Dw.ownWrites_iff hn hrtNat.1 hrtNat.2]
    exact_mod_cast hwidest x.d (2 ^ 32)
  constructor
  · rintro ⟨-, tiles', hok', hwrites⟩
    obtain rfl := Except.ok.inj (hok.symm.trans hok')
    exact hown.1 hwrites
  · intro hfit
    exact ⟨backwardDw_eq hword hv hrt htile hbudget hfit horder, tiles, hok, hown.2 hfit⟩

/-- `oneRowBwd`, as a call of `backward_dw`. -/
noncomputable def oneRowDw : DwArgs := ⟨oneRowBwd, by decide, by decide⟩

/-- Two tiles of a column each, their adds reversed. -/
theorem backward_dw_iff_oneRow : ∃ tiles, launchTiles 2 1 = .ok tiles ∧ ∀ r ∈ tiles, Dw.OwnWrites oneRowDw r.1 r.2 2 :=
  ((backward_dw_iff oneRowDw (by decide) (by decide) oneRowBwd_wordTargets 2 1 (.inl rfl) (by decide) none rfl
    (fun _ => List.reverse) fun _ _ => List.reverse_perm _).2 (by decide)).2

/-- One row, and a head of 2^16 + 1 columns of 2^16 elements. -/
noncomputable def wideHead : DwArgs :=
  ⟨⟨⟨1, 2 ^ 16, 2 ^ 16 + 1, fun _ _ => 1, fun _ _ => 0, fun _ => 0, by decide⟩, fun _ => 0, fun _ => 1⟩, by decide,
    by decide⟩

/-- The launcher admits the whole head as one tile. No add reaches its last column, whose gradient is not 0. -/
theorem backwardDw_wraps : checkRate wideHead.n wideHead.d wideHead.v (2 ^ 16 + 1) (some (10 ^ 12 / 2)) = .ok () ∧
    launchTiles wideHead.v (2 ^ 16 + 1) = .ok [(0, 2 ^ 16 + 1)] ∧
    (∀ a ∈ Dw.tileAdds wideHead 0 (2 ^ 16 + 1) 2, Dw.offset wideHead a ≠ 2 ^ 16 * wideHead.d + 0) ∧
    Dw.tile wideHead 0 (2 ^ 16 + 1) 2 id (2 ^ 16 * wideHead.d + 0) = real 0 ∧ wideHead.dWeight (2 ^ 16) 0 = 1 := by
  have hnone : ∀ a ∈ Dw.tileAdds wideHead 0 (2 ^ 16 + 1) 2, Dw.offset wideHead a ≠ 2 ^ 16 * wideHead.d + 0 := by
    intro a _ hplace
    exact absurd hplace (Nat.mod_lt _ (by decide)).ne
  refine ⟨?_, ?_, hnone, ?_, ?_⟩
  · rw [checkRate, checkBudget, if_neg (by norm_num)]
    exact if_neg (by norm_num [wideHead, maxDispatchSeconds, maxTotalSeconds])
  · have htiles := @vocabTiles_eq (2 ^ 16 + 1) wideHead.v (by decide)
    rw [steps_eq_cons (by decide) (by decide), steps_eq_nil (by decide)] at htiles
    unfold launchTiles
    exact_mod_cast congrArg (Except.mapError _) htiles
  · rw [Dw.tile, addAll_eq, List.map_map, id_eq, List.sum_eq_zero]
    · exact add_zero (0 : XReal)
    · intro y hy
      obtain ⟨a, ha, rfl⟩ := List.mem_map.1 hy
      exact if_neg (hnone a ha)
  · have hlogit : wideHead.logit 0 (2 ^ 16) = 0 := by
      unfold DenseArgs.logit
      exact Finset.sum_eq_zero fun k _ => mul_zero 1
    unfold BwdArgs.dWeight BwdArgs.coeff
    rw [show wideHead.n = 1 from rfl, Finset.sum_range_one, hlogit]
    norm_num [wideHead]

end MlxTrainPerf.Core.Kernel
