import MlxTrainPerf.Lib.Simdgroup
/-!
# Products of blocks of rows

The two products an attention body takes over simdgroup matrices: the dot
products of some rows with others (`dotTile`), and a block of weights times the
rows it weighs (`accTile`). Which rows a lane reads is a parameter, so a body
may clamp them. A body stores its accumulators slab by slab, and only the rows
under a limit (`blockStores`).
-/
open Loops XReal

namespace Simdgroup

/-- A left operand: row `row i` of `x` in matrix row `i`, from column `col` on. -/
def rowFrag (x : ℕ → ℕ → ℝ) (row : ℕ → ℕ) (col : ℕ) : Frag := fun lane e => real (x (row (fm lane)) (col + fn lane + e))

/-- A right operand, transposed: row `row j` of `x` in matrix column `j`. -/
def colFrag (x : ℕ → ℕ → ℝ) (row : ℕ → ℕ) (col : ℕ) : Frag := fun lane e => real (x (row (fn lane + e)) (col + fm lane))

/-- `for (d0 = 0; d0 < d; d0 += 8)`: the rows of `x` with the rows of `y`. -/
noncomputable def dotTile (d : ℕ) (x : ℕ → ℕ → ℝ) (xRow : ℕ → ℕ) (y : ℕ → ℕ → ℝ) (yRow : ℕ → ℕ) : Frag :=
  (steps 8 0 d).foldl (fun c d0 => multiplyAccumulate (rowFrag x xRow d0) (colFrag y yRow d0) c) (filled 0)

/-- `for (t = 0; t < 4; ++t)`: the tiles `w` times the 32 rows of `y` they weigh, onto `c`. -/
noncomputable def accTile (w : ℕ → Frag) (y : ℕ → ℕ → ℝ) (row : ℕ → ℕ) (col : ℕ) (c : Frag) : Frag :=
  (List.range 4).foldl (fun c t => multiplyAccumulate (w t) (rowFrag y (fun i => row (8 * t + i)) col) c) c

section Lanes
variable {x y : ℕ → ℕ → ℝ} {row xRow yRow : ℕ → ℕ} {col d lane e i j : ℕ}

theorem rowFrag_get (hi : i < 8) (hj : j < 8) : (rowFrag x row col).get i j = real (x (row i) (col + j)) :=
  @Frag.get_eq (rowFrag x row col) (fun i j => real (x (row i) (col + j))) i j
    (fun _ _ => by simp only [rowFrag, add_assoc]) hi hj

theorem colFrag_get (hi : i < 8) (hj : j < 8) : (colFrag x row col).get i j = real (x (row j) (col + i)) :=
  @Frag.get_eq (colFrag x row col) (fun i j => real (x (row j) (col + i))) i j (fun _ _ => rfl) hi hj

/-- A lane's element is the dot product of its two rows. -/
theorem dotTile_eq (hd : 8 ∣ d) (hlane : lane < 32) (he : e < 2) :
    dotTile d x xRow y yRow lane e =
      real (∑ c ∈ Finset.range d, x (xRow (fm lane)) c * y (yRow (fn lane + e)) c) := by
  have hfm : fm lane < 8 := fm_lt hlane
  obtain ⟨hfn, -⟩ := fn_lt hlane
  have hdot := foldl_multiplyAccumulate_real (steps 8 0 d)
    (fun d0 _ k hk => @rowFrag_get x xRow d0 (fm lane) k hfm hk)
    (fun d0 _ k hk => @colFrag_get y yRow d0 k (fn lane + e) hk (by omega))
    (show filled 0 lane e = real 0 from rfl)
  unfold dotTile
  rw [hdot, zero_add, sum_steps_eight (fun c => x (xRow (fm lane)) c * y (yRow (fn lane + e)) c) hd]

/-- A lane whose row weighs the block by `v` adds the weighted sum of the block's rows. -/
theorem accTile_eq {w : ℕ → Frag} {c : Frag} {v : ℕ → ℝ} {z : ℝ} (hlane : lane < 32) (he : e < 2)
    (hw : ∀ t < 4, ∀ lane' < 32, fm lane' = fm lane → ∀ e < 2, w t lane' e = real (v (8 * t + (fn lane' + e))))
    (hc : c lane e = real z) :
    accTile w y row col c lane e = real (z + ∑ i ∈ Finset.range 32, v i * y (row i) (col + (fn lane + e))) := by
  obtain ⟨hfn, -⟩ := fn_lt hlane
  have hleft : ∀ t ∈ List.range 4, ∀ k < 8, (w t).get (fm lane) k = real (v (8 * t + k)) := by
    intro t ht k hk
    obtain ⟨hlane', hfm', hfn'⟩ := laneOf_spec (fm_lt hlane) hk
    unfold Frag.get
    rw [hw t (List.mem_range.1 ht) _ hlane' hfm' _ (Nat.mod_lt k (by decide)), hfn']
  have hright : ∀ t ∈ List.range 4, ∀ k < 8, (rowFrag y (fun i => row (8 * t + i)) col).get k (fn lane + e) =
      real (y (row (8 * t + k)) (col + (fn lane + e))) := fun t _ k hk => rowFrag_get hk (by omega)
  unfold accTile
  rw [foldl_multiplyAccumulate_real (List.range 4) hleft hright hc,
    sum_range_eight (fun i => v i * y (row i) (col + (fn lane + e))) 4]

end Lanes

/-! ## Stores -/

/-- The guarded stores of 32 rows from `base` on: what `val` holds for a slab, a
row tile, a column tile, a lane and its element. -/
def blockStores (d slab base limit : ℕ) (val : ℕ → ℕ → ℕ → Frag) : List ((ℕ × ℕ) × XReal) :=
  (steps slab 0 d).flatMap fun slab0 => (List.range 4).flatMap fun rt => (List.range 32).flatMap fun lane =>
    if base + 8 * rt + fm lane < limit then
      (List.range (slab / 8)).flatMap fun dt =>
        [((base + 8 * rt + fm lane, slab0 + 8 * dt + fn lane), val slab0 rt dt lane 0),
          ((base + 8 * rt + fm lane, slab0 + 8 * dt + fn lane + 1), val slab0 rt dt lane 1)]
    else []

section Stores
variable {d slab base limit : ℕ} {val : ℕ → ℕ → ℕ → Frag}

theorem mem_blockStores {w : (ℕ × ℕ) × XReal} : w ∈ blockStores d slab base limit val ↔
    ∃ slab0 ∈ steps slab 0 d, ∃ rt < 4, ∃ lane < 32, base + 8 * rt + fm lane < limit ∧ ∃ dt < slab / 8, ∃ e < 2,
      w = ((base + 8 * rt + fm lane, slab0 + 8 * dt + (fn lane + e)), val slab0 rt dt lane e) := by
  unfold blockStores
  simp only [List.mem_flatMap, List.mem_range]
  refine exists_congr fun slab0 => and_congr_right fun _ => exists_congr fun rt => and_congr_right fun _ =>
    exists_congr fun lane => and_congr_right fun _ => ?_
  split
  · next hlt =>
    simp only [hlt, true_and, List.mem_flatMap, List.mem_range]
    refine exists_congr fun dt => and_congr_right fun _ => ?_
    rw [List.mem_cons, List.mem_singleton]
    constructor
    · rintro (rfl | rfl)
      · exact ⟨0, by decide, rfl⟩
      · exact ⟨1, by decide, rfl⟩
    · rintro ⟨e, he, rfl⟩
      rcases Nat.le_one_iff_eq_zero_or_eq_one.1 (Nat.lt_succ_iff.1 he) with rfl | rfl
      · exact Or.inl rfl
      · exact Or.inr rfl
  · next hge =>
    constructor
    · exact fun hmem => absurd hmem List.not_mem_nil
    · exact fun h => absurd h.1 hge

/-- Every column of a row under the limit is stored. -/
theorem exists_blockStore {i c : ℕ} (hslab : 0 < slab) (hdvd : 8 ∣ slab) (hi : i < limit) (hc : c < d) :
    ∃ w ∈ blockStores d slab (i / 32 * 32) limit val, w.1 = (i, c) := by
  have hmem := @mem_steps_block slab 0 d c hslab (Nat.zero_le c) hc
  rw [Nat.zero_add, Nat.sub_zero] at hmem
  have hdt : c % slab / 8 < slab / 8 := Nat.div_lt_div_of_lt_of_dvd hdvd (Nat.mod_lt c hslab)
  obtain ⟨hlane, hfm, hfn⟩ := laneOf_spec (Nat.mod_lt i (by decide : 0 < 8)) (Nat.mod_lt c (by decide : 0 < 8))
  have hrow : i / 32 * 32 + 8 * (i % 32 / 8) + i % 8 = i := by omega
  have hcol : c / slab * slab + 8 * (c % slab / 8) + c % 8 = c := by
    have hmod : c % slab % 8 = c % 8 := Nat.mod_mod_of_dvd c hdvd
    have hsplit := Nat.div_add_mod c slab
    rw [Nat.mul_comm] at hsplit
    omega
  refine ⟨_, mem_blockStores.2 ⟨_, hmem, i % 32 / 8, by omega, laneOf (i % 8) (c % 8), hlane, ?_, _, hdt, c % 8 % 2,
    Nat.mod_lt _ (by decide), rfl⟩, ?_⟩
  · rw [hfm, hrow]
    exact hi
  · dsimp only
    rw [hfm, hfn, hrow, hcol]

/-- The columns of a slab are columns of the row. -/
theorem slabCol_lt {slab0 dt lane e : ℕ} (hd : slab ∣ d) (hslab0 : slab0 ∈ steps slab 0 d) (hdt : dt < slab / 8)
    (hlane : lane < 32) (he : e < 2) : slab0 + 8 * dt + (fn lane + e) < d := by
  obtain ⟨hfn, -⟩ := fn_lt hlane
  have hslab : 0 < slab := Nat.pos_of_ne_zero fun h => by
    rw [h] at hdt
    omega
  obtain ⟨-, hlt, k, hk⟩ := (mem_steps hslab).1 hslab0
  obtain ⟨m, rfl⟩ := hd
  rw [Nat.sub_zero] at hk
  have hkm : k + 1 ≤ m := Nat.lt_of_mul_lt_mul_left (hk ▸ hlt)
  have hle := Nat.mul_le_mul_left slab hkm
  rw [Nat.mul_succ] at hle
  omega

/-- A grid of blocks whose lanes hold `f` stores `f`, whatever the memory held. -/
theorem storeAll_blocks {val : ℕ → ℕ → ℕ → ℕ → Frag} {f : ℕ → ℕ → XReal} {i c : ℕ} (hslab : 0 < slab) (hdvd : 8 ∣ slab)
    (hval : ∀ block, ∀ slab0 ∈ steps slab 0 d, ∀ rt < 4, ∀ dt < slab / 8, ∀ lane < 32, ∀ e < 2,
      block * 32 + 8 * rt + fm lane < limit →
        val block slab0 rt dt lane e = f (block * 32 + 8 * rt + fm lane) (slab0 + 8 * dt + (fn lane + e)))
    (hi : i < limit) (hc : c < d) (mem : ℕ × ℕ → XReal) :
    storeAll ((List.range ((limit + 31) / 32)).flatMap fun block => blockStores d slab (block * 32) limit (val block)) mem
      (i, c) = f i c := by
  obtain ⟨w, hw, hplace⟩ := @exists_blockStore d slab limit (val (i / 32)) i c hslab hdvd hi hc
  have hblock : i / 32 ∈ List.range ((limit + 31) / 32) := List.mem_range.2 (by omega)
  refine storeAll_eq ⟨w, List.mem_flatMap.2 ⟨_, hblock, hw⟩, hplace⟩ fun w hw hplace => ?_
  obtain ⟨block, -, hw⟩ := List.mem_flatMap.1 hw
  obtain ⟨slab0, hslab0, rt, hrt, lane, hlane, hlt, dt, hdt, e, he, rfl⟩ := mem_blockStores.1 hw
  obtain ⟨rfl, rfl⟩ := Prod.mk.inj hplace
  exact hval block slab0 hslab0 rt hrt dt hdt lane hlane e he hlt

end Stores

end Simdgroup
