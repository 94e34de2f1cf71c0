import MlxTrainPerf.Core.FusedForward
import MlxTrainPerf.Core.Chunked
import MlxTrainPerf.Core.Kernel.BackwardRun
/-!
# The hidden-state backwards agree

A chain of any body that adds a tile at a time ends with every column added
once. The chunk loop of `chunked_backward` adds the same columns, so all three
return `dHidden`.
-/
open Loops XReal

namespace MlxTrainPerf.Core

namespace Kernel

/-! ## The launches -/

section Chain
variable {x : BwdArgs} {block : ℕ → ℕ → ℕ → Buffer → Buffer → ℕ → Buffer} {rowTiles a b i k : ℕ} {r : ℕ × ℕ}
  {tiles : List (ℕ × ℕ)} {inp : Buffer}

/-- One dispatch: each row is in one row block. -/
theorem foldl_rowBlocks (h : AddsTile x block) (hpos : 0 < rowTiles) (hlt : r.1 < r.2) (hv : r.2 ≤ x.v) (hi : i < x.n)
    (hk : k < x.d) {base : ℝ} (hinp : inp (i, k) = real base) (mem : Buffer) :
    (rowBlocks x.n rowTiles).foldl (fun out ygroup => block r.1 r.2 (ygroup * (8 * rowTiles)) inp out rowTiles) mem (i, k) =
      real (base + ∑ c ∈ Finset.Ico r.1 r.2, x.coeff i c * x.w c k) := by
  have hrows : 0 < 8 * rowTiles := by omega
  have hlo : i / (8 * rowTiles) * (8 * rowTiles) ≤ i := Nat.div_mul_le_self i _
  have hhi : i < i / (8 * rowTiles) * (8 * rowTiles) + 8 * rowTiles := Nat.lt_div_mul_add hrows
  have hmem : i / (8 * rowTiles) ∈ rowBlocks x.n rowTiles := by
    rw [rowBlocks, List.mem_range, Nat.lt_div_iff_mul_lt hrows]
    omega
  refine foldl_owned mem hmem (fun out => h.adds _ _ _ _ _ _ _ _ _ hlt hv hlo hhi hi hk hinp) fun ygroup _ hne out => ?_
  -- Another block lies wholly before or behind this one.
  apply h.frame
  rcases lt_or_gt_of_ne hne with hlt' | hgt
  · have hnext := Nat.mul_le_mul_right (8 * rowTiles) (Nat.succ_le_of_lt hlt')
    rw [Nat.succ_mul] at hnext
    exact Or.inr (hnext.trans hlo)
  · have hnext := Nat.mul_le_mul_right (8 * rowTiles) (Nat.succ_le_of_lt hgt)
    rw [Nat.succ_mul] at hnext
    exact Or.inl (hhi.trans_le hnext)

/-- The chain over tiles that cut the columns from `a` on. -/
theorem foldl_tiles (h : AddsTile x block) (hpos : 0 < rowTiles) (htiles : Tiles a x.v tiles) (mem : ℕ × ℕ → Buffer)
    (hinp : ∀ i < x.n, ∀ k < x.d, inp (i, k) = real (∑ c ∈ Finset.range a, x.coeff i c * x.w c k)) :
    ∀ i < x.n, ∀ k < x.d, tiles.foldl (fun inp r => (rowBlocks x.n rowTiles).foldl
      (fun out ygroup => block r.1 r.2 (ygroup * (8 * rowTiles)) inp out rowTiles) (mem r)) inp (i, k) =
        real (x.dHidden i k) := by
  induction tiles generalizing a inp with
  | nil =>
    obtain rfl : a = x.v := htiles
    exact hinp
  | cons r tiles ih =>
    obtain ⟨rfl, hlt, hrest⟩ := htiles
    refine ih hrest fun i hi k hk => ?_
    dsimp only
    rw [foldl_rowBlocks h hpos hlt hrest.le hi hk (hinp i hi k hk) (mem r), Finset.sum_range_add_sum_Ico _ hlt.le]

theorem backwardWith_eq (h : AddsTile x block) {rowTiles tile : ℤ} (hrt : rowTiles = 2 ∨ rowTiles = 4) (htile : 1 ≤ tile)
    (rate : Option ℚ) (mem : ℕ × ℕ → Buffer) :
    backwardWith block x rowTiles tile rate mem = (checkRate x.n x.d x.v tile (rate.map (· / 2))).map fun _ =>
      (List.range x.n).map fun i => (List.range x.d).map fun k => real (x.dHidden i k) := by
  obtain ⟨rt, ⟨hpos, -⟩, hrt⟩ := checkRowTiles_ok hrt
  obtain ⟨tiles, htiles, hok⟩ := launchTiles_ok x.v htile
  have hrows := @foldl_tiles x block rt 0 tiles (fun _ => 0) h hpos htiles mem fun i _ k _ => rfl
  unfold backwardWith
  rw [hrt, hok]
  cases checkRate x.n x.d x.v tile (rate.map (· / 2)) with
  | error e => rfl
  | ok u =>
    refine congrArg Except.ok (List.map_congr_left fun i hi => List.map_congr_left fun k hk => ?_)
    exact hrows i (List.mem_range.1 hi) k (List.mem_range.1 hk)

end Chain
end Kernel

/-! ## The chunk loop -/

section Chunked
variable {x : BwdArgs} {a i k : ℕ} {rs : List (ℕ × ℕ)}

theorem denseMatmul_eq (x : DenseArgs) (v0 v1 i j : ℕ) : denseMatmul x v0 v1 i j = real (x.logit i (v0 + j)) :=
  sum_real fun _ _ => rfl

theorem chunks_pos {chunkSize : ℤ} (v : ℕ) (h : 1 ≤ chunkSize) : ∃ rs, Tiles 0 v rs ∧ chunks v chunkSize = .ok rs := by
  obtain ⟨rs, hok, htiles⟩ := vocabTiles_pos v h
  refine ⟨rs, htiles, ?_⟩
  unfold chunks
  rw [hok]
  rfl

theorem chunkGrad_eq (r : ℕ × ℕ) (i j : ℕ) :
    chunkGrad (denseMatmul x.toDenseArgs) x.targets (fun i => real (x.lse i)) (fun i => real (x.cotangent i)) r i j =
      real (x.coeff i (r.1 + j)) := by
  unfold chunkGrad BwdArgs.coeff
  dsimp only
  rw [denseMatmul_eq, Kernel.ite_real, real_sub_real, exp_real, real_sub_real, real_mul_real, mul_comm]

theorem foldl_chunks (htiles : Tiles a x.v rs) :
    rs.foldl (fun acc r => acc + ∑ j ∈ Finset.range (r.2 - r.1),
      chunkGrad (denseMatmul x.toDenseArgs) x.targets (fun i => real (x.lse i)) (fun i => real (x.cotangent i)) r i j *
        denseChunk x.toDenseArgs r.1 r.2 j k) (real (∑ c ∈ Finset.range a, x.coeff i c * x.w c k)) =
      real (x.dHidden i k) := by
  induction rs generalizing a with
  | nil =>
    obtain rfl : a = x.v := htiles
    rfl
  | cons r rs ih =>
    obtain ⟨rfl, hlt, hrest⟩ := htiles
    have hchunk : ∑ j ∈ Finset.range (r.2 - r.1),
        chunkGrad (denseMatmul x.toDenseArgs) x.targets (fun i => real (x.lse i)) (fun i => real (x.cotangent i)) r i j *
          denseChunk x.toDenseArgs r.1 r.2 j k = real (∑ c ∈ Finset.Ico r.1 r.2, x.coeff i c * x.w c k) := by
      rw [Finset.sum_Ico_eq_sum_range]
      refine sum_real fun j _ => ?_
      rw [chunkGrad_eq]
      rfl
    rw [List.foldl_cons, hchunk, real_add_real, Finset.sum_range_add_sum_Ico _ hlt.le]
    exact ih hrest

end Chunked

/-- The chunk loop over chunks that cut the columns. -/
theorem chunkedBackward_ok (x : BwdArgs) {chunkSize : ℤ} {rs : List (ℕ × ℕ)} (hok : chunks x.v chunkSize = .ok rs)
    (htiles : Tiles 0 x.v rs) (hne : rs ≠ []) (headTrainable : Bool) :
    ∃ dHidden, chunkedBackward x.n (fun i k => real (x.hidden i k)) (denseMatmul x.toDenseArgs)
      (denseChunk x.toDenseArgs) x.targets (fun i => real (x.lse i)) (fun i => real (x.cotangent i)) x.v chunkSize
      headTrainable = .ok (dHidden, if headTrainable then some (rs.flatMap fun r =>
        chunkDw x.n (fun i k => real (x.hidden i k)) (chunkGrad (denseMatmul x.toDenseArgs) x.targets
          (fun i => real (x.lse i)) (fun i => real (x.cotangent i)) r) (r.2 - r.1)) else none) ∧
      ∀ i k, dHidden i k = real (x.dHidden i k) := by
  have hrows := fun i k => @foldl_chunks x 0 i k rs htiles
  unfold chunkedBackward
  rw [hok]
  cases headTrainable with
  | false => exact ⟨_, rfl, hrows⟩
  | true =>
    dsimp only [bind, Except.bind]
    rw [if_pos rfl, if_neg hne, if_pos rfl]
    exact ⟨_, rfl, hrows⟩

/-- The chunk loop's gradient, whatever else it returns. -/
theorem chunkedBackward_eq (x : BwdArgs) (hv : 1 ≤ x.v) {chunkSize : ℤ} (hchunk : 1 ≤ chunkSize) (headTrainable : Bool) :
    ∃ dHidden dW, chunkedBackward x.n (fun i k => real (x.hidden i k)) (denseMatmul x.toDenseArgs)
      (denseChunk x.toDenseArgs) x.targets (fun i => real (x.lse i)) (fun i => real (x.cotangent i)) x.v chunkSize
      headTrainable = .ok (dHidden, dW) ∧ ∀ i k, dHidden i k = real (x.dHidden i k) := by
  obtain ⟨rs, htiles, hok⟩ := chunks_pos x.v hchunk
  have hne : rs ≠ [] := htiles.ne_nil hv
  obtain ⟨dHidden, hrun, hrows⟩ := chunkedBackward_ok x hok htiles hne headTrainable
  exact ⟨dHidden, _, hrun, hrows⟩

/-- The scalar kernel, the kernel on matrices and the chunk loop return the same
gradient of the hidden state: each column of the head once. -/
theorem hidden_backwards_agree (x : BwdArgs) (hv : 1 ≤ x.v) (hword : x.WordTargets)
    (rowTiles rowTiles' tile tile' chunkSize : ℤ) (hrt : rowTiles = 2 ∨ rowTiles = 4)
    (hrt' : rowTiles' = 2 ∨ rowTiles' = 4) (htile : 1 ≤ tile) (htile' : 1 ≤ tile') (hchunk : 1 ≤ chunkSize)
    (rate rate' : Option ℚ) (mem mem' : ℕ × ℕ → Kernel.Buffer) (headTrainable : Bool) :
    let dHidden := fun i k => ∑ c ∈ Finset.range x.v,
      x.cotangent i * (Real.exp (x.logit i c - x.lse i) - if (c : ℤ) = x.targets i then 1 else 0) * x.w c k
    let rows := (List.range x.n).map fun i => (List.range x.d).map fun k => real (dHidden i k)
    Kernel.backwardDhidden x rowTiles tile rate mem =
        (Kernel.checkRate x.n x.d x.v tile (rate.map (· / 2))).map (fun _ => rows) ∧
      Kernel.backwardDhiddenMma x rowTiles' tile' rate' mem' =
        (Kernel.checkRate x.n x.d x.v tile' (rate'.map (· / 2))).map (fun _ => rows) ∧
      ∃ dH dW, chunkedBackward x.n (fun i k => real (x.hidden i k)) (denseMatmul x.toDenseArgs)
          (denseChunk x.toDenseArgs) x.targets (fun i => real (x.lse i)) (fun i => real (x.cotangent i)) x.v chunkSize
          headTrainable = .ok (dH, dW) ∧
        ((List.range x.n).map fun i => (List.range x.d).map fun k => dH i k) = rows := by
  intro dHidden rows
  refine ⟨Kernel.backwardWith_eq (Kernel.Bwd.scalarBlock_addsTile hword) hrt htile rate mem,
    Kernel.backwardWith_eq (Kernel.Bwd.mmaBlock_addsTile hword) hrt' htile' rate' mem', ?_⟩
  obtain ⟨dH, dW, hok, hrows⟩ := chunkedBackward_eq x hv hchunk headTrainable
  exact ⟨dH, dW, hok, List.map_congr_left fun i _ => List.map_congr_left fun k _ => hrows i k⟩

/-- `oneRow`, with a cotangent. -/
noncomputable def oneRowBwd : BwdArgs := ⟨Kernel.oneRow, fun _ => 1, fun _ => 1⟩

theorem oneRowBwd_wordTargets : oneRowBwd.WordTargets := fun _ _ =>
  ⟨by norm_num [oneRowBwd, Kernel.oneRow], by norm_num [oneRowBwd, Kernel.oneRow]⟩

theorem hidden_backwards_agree_oneRow :
    Kernel.backwardDhidden oneRowBwd 2 1 none (fun _ _ => nan) = Kernel.backwardDhiddenMma oneRowBwd 4 2 none fun _ _ => nan :=
  have h := hidden_backwards_agree oneRowBwd (by decide) oneRowBwd_wordTargets 2 4 1 2 3 (Or.inl rfl) (Or.inr rfl)
    (by decide) (by decide) (by decide) none none (fun _ _ => nan) (fun _ _ => nan) true
  h.1.trans h.2.1.symm

end MlxTrainPerf.Core
